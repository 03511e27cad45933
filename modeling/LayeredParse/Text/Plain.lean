import LayeredParse.Ascending
import LayeredParse.Text.LineBreak
import LayeredParse.Text.Location
/-!
# Plain — characters with a line table

Plain text holds its characters directly.  It may have an origin, and its first character may sit at any line and column
of it; the column counts for the first line only, since later lines begin at column 1.  The line table holds where each
line starts, so that `place?` finds the line of a character by searching it.

Lines and columns are numbers of 32 bits.  What is counted within a text is cut down to the largest of them; the sum with
the first line or column is not, and starts again from zero beyond the largest.  (A build that checks for overflow stops
there instead.)
-/
namespace LayeredParse

/-- Where the lines after the first start in the characters that begin at `offset`. -/
def lineStartsAfter (offset : Nat) : List Char → List Nat
  | [] => []
  | c :: rest =>
    if endsLine c rest then (offset + 1) :: lineStartsAfter (offset + 1) rest
    else lineStartsAfter (offset + 1) rest

def lineStarts (s : List Char) : List Nat :=
  0 :: lineStartsAfter 0 s

/-- Characters, the table of their lines, and where the first of them sits. -/
structure Plain where
  chars : Array Char
  origin : Option String
  firstLine : UInt32
  firstColumn : UInt32
  lines : Array Nat
  lines_eq : lines = (lineStarts chars.toList).toArray

namespace Plain

/-- Plain text from characters and the place of the first of them. -/
def ofChars (s : List Char) (origin : Option String) (firstLine firstColumn : UInt32) : Plain where
  chars := s.toArray
  origin := origin
  firstLine := firstLine
  firstColumn := firstColumn
  lines := (lineStarts s).toArray
  lines_eq := by simp

def length (p : Plain) : Nat :=
  p.chars.size

/-- The place of the character at an index, or just after the last character. -/
def place? (p : Plain) (index : Nat) : Option Place :=
  if index ≤ p.length then
    let line := Ascending.rank p.lines index
    let offset := UInt32.ofNatClamp (index - p.lines.getD line 0)
    let column := if line = 0 then p.firstColumn + offset else offset + 1
    some ⟨p.origin, (p.firstLine + .ofNatClamp line).toNat, column.toNat⟩
  else none

end Plain
end LayeredParse
