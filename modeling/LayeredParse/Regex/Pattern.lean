import LayeredParse.Regex.Reader
/-!
# Pattern — regular expressions over whole values

What an expression is and where it matches is up to an engine of regular expressions, which is any function from texts.
A pattern is put into a group between anchors and then compiled, so that it speaks of whole values.  The text of the
pattern is put there as it stands: one that closes the group and opens another has its own way with the anchors.
-/
namespace LayeredParse

/-- Compiles a text, if it is an expression, to the test whether there is a match of it somewhere in a value. -/
structure Engine where
  compile? : String → Option (String → Bool)

/-- The engine that reads an expression with `Regex.parse?`.  Other engines may know other properties of characters than
those of `CharClass.property?`, and other bounds than `nestingLimit` and `sizeLimit`. -/
def Regex.engine : Engine where
  compile? source := (parse? source.toList).map fun r value => r.accepts value.toList

/-- A pattern as it was written, and what its matcher makes of values. -/
structure Pattern where
  source : String
  accepts : String → Bool

namespace Pattern

/-- The pattern between anchors. -/
def anchor (source : String) : String :=
  "^(?:" ++ source ++ ")$"

/-- The pattern with the given text, if the anchored text is an expression. -/
def compile? (engine : Engine) (source : String) : Option Pattern :=
  (engine.compile? (anchor source)).map fun accepts => { source, accepts }

end Pattern
end LayeredParse
