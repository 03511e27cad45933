/-!
# LineBreak — where lines end

A line ends after a line feed, and after a carriage return that no line feed follows.
-/
namespace LayeredParse

/-- Whether a line ends after the character `c` that stands before `rest`. -/
def endsLine (c : Char) (rest : List Char) : Bool :=
  c == '\n' || (c == '\r' && rest.head? != some '\n')

end LayeredParse
