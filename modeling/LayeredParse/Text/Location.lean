/-!
# Location — resolved positions, layer by layer

A place is a line and a column, both from 1, in some layer of text.  A location is the place of a character together
with the places it was produced from, one layer down at a time; attaching a parent puts it below the deepest layer.
-/
namespace LayeredParse

/-- A position in one layer of text, whose origin is usually the name of a file.  Line and column are at most
4294967295 in the locations of a text. -/
structure Place where
  origin : Option String
  line : Nat
  column : Nat
  deriving DecidableEq, Repr, Inhabited

/-- Origin, if known, line and column. -/
def Place.display (p : Place) : String :=
  match p.origin with
  | some origin => s!"{origin}:{p.line}:{p.column}"
  | none => s!"{p.line}:{p.column}"

/-- A place in the source itself, or a place in text that was produced from a location one layer down. -/
inductive Location where
  | source (place : Place)
  | produced (place : Place) (parent : Location)
  deriving DecidableEq, Repr

namespace Location

def place : Location → Place
  | source p => p
  | produced p _ => p

def parent? : Location → Option Location
  | source _ => none
  | produced _ parent => some parent

/-- Attaches `parent` below the deepest layer. -/
def withParent : Location → Location → Location
  | source p, parent => produced p parent
  | produced p below, parent => produced p (withParent below parent)

/-- The places of all layers, outermost first. -/
def layers : Location → List Place
  | source p => [p]
  | produced p parent => p :: layers parent

def depth : Location → Nat
  | source _ => 0
  | produced _ parent => depth parent + 1

def root : Location → Place
  | source p => p
  | produced _ parent => root parent

/-- The outermost place, then in parentheses what it was produced from. -/
def display : Location → String
  | source p => p.display
  | produced p parent => s!"{p.display} (from {display parent})"

end Location
end LayeredParse
