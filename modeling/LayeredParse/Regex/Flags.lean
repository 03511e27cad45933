import LayeredParse.Reading
import LayeredParse.Unicode.Category
/-!
# Flags — the modes a regular expression is read in

Modes are set for the rest of a group or for a group of its own.  In the spaced mode blanks and comments, from a number
sign to the end of the line, do not count.
-/
namespace LayeredParse
namespace Regex

structure Flags where
  /-- Case does not count. -/
  caseless : Bool := false
  /-- Line anchors also hold next to line breaks. -/
  multiLine : Bool := false
  /-- A dot also stands for a line feed. -/
  dotAll : Bool := false
  /-- Blanks and comments do not count. -/
  spaced : Bool := false
  /-- A carriage return also breaks a line. -/
  carriageReturn : Bool := false
  /-- Characters are not just those of ASCII. -/
  unicode : Bool := true
  deriving DecidableEq, Repr, Inhabited

namespace Flags

/-- Turns the mode with the given letter on or off. -/
def set? (f : Flags) (letter : Char) (on : Bool) : Option Flags :=
  match letter with
  | 'i' => some { f with caseless := on }
  | 'm' => some { f with multiLine := on }
  | 's' => some { f with dotAll := on }
  | 'x' => some { f with spaced := on }
  | 'R' => some { f with carriageReturn := on }
  | 'u' => some { f with unicode := on }
  | 'U' => some f
  | _ => none

/-- Reads letters up to the colon or parenthesis after them.  Letters after a hyphen are turned off; none may be repeated,
and a hyphen may not come last.  The answer tells whether a colon ends them; a parenthesis may not stand alone. -/
def read (f : Flags) (seen : List Char) : List Char → Option (Flags × Bool × List Char)
  | [] => none
  | ':' :: rest => if seen.head? = some '-' then none else some (f, true, rest)
  | ')' :: rest => if seen.head? = some '-' ∨ seen = [] then none else some (f, false, rest)
  | c :: rest =>
    if seen.contains c then none
    else if c = '-' then read f (c :: seen) rest
    else (f.set? c (!seen.contains '-')).bind fun f => read f (c :: seen) rest

end Flags

/-- Drops blanks and comments; `inComment` tells whether a comment has begun. -/
def dropBlank (inComment : Bool) : List Char → List Char
  | [] => []
  | c :: rest =>
    if inComment then dropBlank (c != '\n') rest
    else if Unicode.isSpace c then dropBlank false rest
    else if c = '#' then dropBlank true rest
    else c :: rest

def Flags.skip (f : Flags) (s : List Char) : List Char :=
  if f.spaced then dropBlank false s else s

/-- What counts of the characters up to a closing brace, and what follows the brace. -/
def Flags.readBraced (f : Flags) (inComment : Bool) : List Char → Reading (List Char)
  | [] => none
  | c :: rest =>
    if inComment then f.readBraced (c != '\n') rest
    else if f.spaced && Unicode.isSpace c then f.readBraced false rest
    else if f.spaced && c == '#' then f.readBraced true rest
    else if c = '\x7d' then some ([], rest)
    else (f.readBraced false rest).map fun (inside, after) => (c :: inside, after)

end Regex
end LayeredParse
