import LayeredParse.Regex.Basic
import LayeredParse.Regex.Flags
/-!
# Escape — what a backslash stands before

After a backslash stand a character by its code, a class, a condition on the position, a control by its letter, or any
punctuation character, which then stands for itself.  Digits, and letters without a meaning, may not follow one.
-/
namespace LayeredParse
namespace Regex

/-- A single item of an expression. -/
inductive Atom where
  | literal (c : Char)
  | members (set : CharClass)
  | look (condition : Look)

/-- Reads `count` characters; blanks between them do not count in the spaced mode. -/
def readChars (f : Flags) : (count : Nat) → List Char → Reading (List Char)
  | 0, s => some ([], s)
  | count + 1, s =>
    match s with
    | [] => none
    | c :: rest => (readChars f count (f.skip rest)).map fun (cs, after) => (c :: cs, after)

/-- Reads a character by its code: digits in braces, or as many as the letter asks for. -/
def readCode (f : Flags) (count : Nat) (s : List Char) : Reading Atom :=
  let digits := match f.skip s with
    | '\x7b' :: rest => f.readBraced false rest
    | rest => readChars f count rest
  digits.bind fun (digits, rest) =>
    ((hexNumber? digits).bind charOfCode?).map fun c => (.literal c, f.skip rest)

/-- Splits at the first sign that compares a property with a value: whether they are to differ, and both sides. -/
def splitProperty (s : List Char) : Option (Bool × List Char × List Char) :=
  let left := s.takeWhile fun c => c != ':' && c != '='
  match s.drop left.length with
  | [] => none
  | sign :: value =>
    if sign = '=' ∧ left.getLast? = some '!' then some (true, left.dropLast, value)
    else some (false, left, value)

/-- A class as it is in the mode: closed under case if case does not count, then complemented if it is negated. -/
def Flags.close (f : Flags) (negated : Bool) (set : CharClass) : CharClass :=
  let set := if !f.caseless then set else if f.unicode then set.caseless else set.asciiCaseless
  if negated then set.complement else set

/-- Reads a property, a letter or a name in braces, after the `p`. -/
def readProperty (f : Flags) (negated : Bool) (s : List Char) : Reading Atom :=
  if !f.unicode then none
  else
    match f.skip s with
    | [] => none
    | '\\' :: _ => none
    | '\x7b' :: rest =>
      (f.readBraced false rest).bind fun (name, rest) =>
        match splitProperty name with
        | some (differ, property, value) =>
          (CharClass.propertyValue? property value).map fun set => (.members (f.close (negated != differ) set), rest)
        | none => (CharClass.property? name).map fun set => (.members (f.close negated set), rest)
    | c :: rest => (CharClass.property? [c]).map fun set => (.members (f.close negated set), rest)

/-- The classes with a letter of their own.  Outside the Unicode mode they have ASCII characters only, and complements,
which would have more, are refused. -/
def letterClass? (f : Flags) : Char → Option (Option CharClass)
  | 'd' => some (some (if f.unicode then .decimalDigit else .asciiDigit))
  | 's' => some (some (if f.unicode then .space else .asciiSpace))
  | 'w' => some (some (if f.unicode then .word else .asciiWord))
  | 'D' => some (if f.unicode then some (.complement .decimalDigit) else none)
  | 'S' => some (if f.unicode then some (.complement .space) else none)
  | 'W' => some (if f.unicode then some (.complement .word) else none)
  | _ => none

def control? : Char → Option Char
  | 'a' => some '\x07'
  | 'f' => some '\x0c'
  | 't' => some '\t'
  | 'n' => some '\n'
  | 'r' => some '\r'
  | 'v' => some '\x0b'
  | _ => none

/-- ASCII characters other than letters, digits and angle brackets stand for themselves. -/
def isEscapable (c : Char) : Bool :=
  c.toNat < 128 && !c.isAlphanum && c != '<' && c != '>'

/-- Reads a word boundary after the `b`: in braces may stand which side of a word it is. -/
def readBoundary (f : Flags) (s : List Char) : Reading Atom :=
  match s with
  | '\x7b' :: rest =>
    match f.skip rest with
    | [] => none
    | c :: _ =>
      if c.isAlpha || c == '-' then
        (f.readBraced false rest).bind fun (side, rest) =>
          match String.ofList side with
          | "start" => some (.look .wordStart, rest)
          | "end" => some (.look .wordEnd, rest)
          | "start-half" => some (.look .wordStartHalf, rest)
          | "end-half" => some (.look .wordEndHalf, rest)
          | _ => none
      else some (.look .wordBoundary, s)
  | _ => some (.look .wordBoundary, s)

/-- Reads what follows a backslash. -/
def readEscape (f : Flags) : List Char → Reading Atom
  | [] => none
  | c :: rest =>
    if isEscapable c then some (.literal c, rest)
    else
      match letterClass? f c with
      | some set => set.map fun set => (.members set, rest)
      | none =>
        match control? c with
        | some c => some (.literal c, rest)
        | none =>
          match c with
          | 'x' => readCode f 2 rest
          | 'u' => readCode f 4 rest
          | 'U' => readCode f 8 rest
          | 'p' => readProperty f false rest
          | 'P' => readProperty f true rest
          | 'A' => some (.look .textStart, rest)
          | 'z' => some (.look .textEnd, rest)
          | 'b' => readBoundary f rest
          | 'B' => some (.look .notWordBoundary, rest)
          | '<' => some (.look .wordStart, rest)
          | '>' => some (.look .wordEnd, rest)
          | _ => none

end Regex
end LayeredParse
