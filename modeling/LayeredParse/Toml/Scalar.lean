import LayeredParse.Reading
import LayeredParse.Toml.Value
/-!
# Scalar — strings, numbers, truth values and dates

Quoted strings are read up to their closing quotes.  What stands without quotes is first taken as a whole, up to the next
mark or blank, and then has to be a number, a truth value or a date.
-/
namespace LayeredParse
namespace Toml

/-- Characters that may stand in strings and comments: all but controls, and the tab. -/
def isTextChar (c : Char) : Bool :=
  c == '\t' || (0x20 ≤ c.toNat && c.toNat != 0x7F)

/-- The character that a letter or mark stands for after a backslash. -/
def shortEscape? : Char → Option Char
  | 'b' => some '\x08'
  | 't' => some '\t'
  | 'n' => some '\n'
  | 'f' => some '\x0c'
  | 'r' => some '\r'
  | 'e' => some '\x1b'
  | '"' => some '"'
  | '\\' => some '\\'
  | _ => none

def codeEscape? (digits : List Char) : Option Char :=
  (hexNumber? digits).bind charOfCode?

/-- A reading with one more character in front. -/
def withChar (c : Option Char) (r : Reading (List Char)) : Reading (List Char) :=
  c.bind fun c => r.map fun (cs, rest) => (c :: cs, rest)

def readBasic : List Char → Reading (List Char)
  | [] => none
  | '"' :: rest => some ([], rest)
  | '\\' :: 'x' :: a :: b :: rest => withChar (codeEscape? [a, b]) (readBasic rest)
  | '\\' :: 'u' :: a :: b :: c :: d :: rest => withChar (codeEscape? [a, b, c, d]) (readBasic rest)
  | '\\' :: 'U' :: a :: b :: c :: d :: e :: f :: g :: h :: rest =>
    withChar (codeEscape? [a, b, c, d, e, f, g, h]) (readBasic rest)
  | '\\' :: c :: rest => withChar (shortEscape? c) (readBasic rest)
  | c :: rest => if isTextChar c then withChar (some c) (readBasic rest) else none

/-- Where a string over several lines is read on. -/
inductive Trim where
  /-- Within the text. -/
  | no
  /-- After a backslash, before the end of its line. -/
  | toLineEnd
  /-- After such a line end, before the next thing that is not blank. -/
  | toText
  deriving DecidableEq

/-- Reads a string in three double quotes after the opening ones.  Up to two quotes may stand right before the closing
ones; a backslash at the end of a line leaves out all that is blank after it. -/
def readBasicLines : Trim → List Char → Reading (List Char)
  | _, [] => none
  | .toLineEnd, '\n' :: rest => readBasicLines .toText rest
  | .toLineEnd, '\r' :: '\n' :: rest => readBasicLines .toText rest
  | .toLineEnd, c :: rest => if c = ' ' ∨ c = '\t' then readBasicLines .toLineEnd rest else none
  | .toText, ' ' :: rest => readBasicLines .toText rest
  | .toText, '\t' :: rest => readBasicLines .toText rest
  | .toText, '\n' :: rest => readBasicLines .toText rest
  | .toText, '\r' :: '\n' :: rest => readBasicLines .toText rest
  | _, '"' :: '"' :: '"' :: '"' :: '"' :: rest => some (['"', '"'], rest)
  | _, '"' :: '"' :: '"' :: '"' :: rest => some (['"'], rest)
  | _, '"' :: '"' :: '"' :: rest => some ([], rest)
  | _, '\\' :: 'x' :: a :: b :: rest => withChar (codeEscape? [a, b]) (readBasicLines .no rest)
  | _, '\\' :: 'u' :: a :: b :: c :: d :: rest => withChar (codeEscape? [a, b, c, d]) (readBasicLines .no rest)
  | _, '\\' :: 'U' :: a :: b :: c :: d :: e :: f :: g :: h :: rest =>
    withChar (codeEscape? [a, b, c, d, e, f, g, h]) (readBasicLines .no rest)
  | _, '\\' :: ' ' :: rest => readBasicLines .toLineEnd rest
  | _, '\\' :: '\t' :: rest => readBasicLines .toLineEnd rest
  | _, '\\' :: '\n' :: rest => readBasicLines .toText rest
  | _, '\\' :: '\r' :: '\n' :: rest => readBasicLines .toText rest
  | _, '\\' :: c :: rest => withChar (shortEscape? c) (readBasicLines .no rest)
  | _, '\r' :: '\n' :: rest => withChar (some '\n') (readBasicLines .no rest)
  | _, c :: rest => if isTextChar c || c == '\n' then withChar (some c) (readBasicLines .no rest) else none

def readLiteral : List Char → Reading (List Char)
  | [] => none
  | '\'' :: rest => some ([], rest)
  | c :: rest => if isTextChar c then withChar (some c) (readLiteral rest) else none

/-- Reads a string in three single quotes after the opening ones. -/
def readLiteralLines : List Char → Reading (List Char)
  | [] => none
  | '\'' :: '\'' :: '\'' :: '\'' :: '\'' :: rest => some (['\'', '\''], rest)
  | '\'' :: '\'' :: '\'' :: '\'' :: rest => some (['\''], rest)
  | '\'' :: '\'' :: '\'' :: rest => some ([], rest)
  | '\r' :: '\n' :: rest => withChar (some '\n') (readLiteralLines rest)
  | c :: rest => if isTextChar c || c == '\n' then withChar (some c) (readLiteralLines rest) else none

/-- Drops the line break right after the opening quotes of a string over several lines. -/
def dropLineBreak : List Char → List Char
  | '\n' :: rest => rest
  | '\r' :: '\n' :: rest => rest
  | rest => rest

def readString : List Char → Reading (List Char)
  | '"' :: '"' :: '"' :: rest => readBasicLines .no (dropLineBreak rest)
  | '"' :: rest => readBasic rest
  | '\'' :: '\'' :: '\'' :: rest => readLiteralLines (dropLineBreak rest)
  | '\'' :: rest => readLiteral rest
  | _ => none

/-- Whether the characters are digits with single underscores between them; `afterDigit` tells what came before. -/
def isGrouped (isDigit : Char → Bool) (afterDigit : Bool) : List Char → Bool
  | [] => afterDigit
  | c :: rest =>
    if isDigit c then isGrouped isDigit true rest
    else c == '_' && afterDigit && isGrouped isDigit false rest

def ungrouped (s : List Char) : List Char :=
  s.filter (· != '_')

/-- Whether a decimal number is well formed: no zero in front of another digit. -/
def isDecimal (s : List Char) : Bool :=
  isGrouped Char.isDigit false s && (s.length == 1 || s.head? != some '0')

def splitSign : List Char → Option Char × List Char
  | '+' :: rest => (some '+', rest)
  | '-' :: rest => (some '-', rest)
  | rest => (none, rest)

/-- A number in another base than ten. -/
def inBase? (base : Nat) (isDigit : Char → Bool) (s : List Char) : Option Int :=
  if isGrouped isDigit false s then
    some (((ungrouped s).foldl (fun n c => n * base + (hexDigit? c).getD 0) 0 : Nat) : Int)
  else none

/-- An integer.  Numbers in other bases have no sign. -/
def integer? (s : List Char) : Option Int :=
  match s with
  | '0' :: 'x' :: digits => inBase? 16 (fun c => (hexDigit? c).isSome) digits
  | '0' :: 'o' :: digits => inBase? 8 (fun c => '0' ≤ c && c ≤ '7') digits
  | '0' :: 'b' :: digits => inBase? 2 (fun c => c == '0' || c == '1') digits
  | s =>
    let (sign, digits) := splitSign s
    if isDecimal digits then
      let n : Int := decimalNumber (ungrouped digits)
      some (if sign = some '-' then -n else n)
    else none

/-- Whether a decimal number with an exponent is less than what rounds to infinity among doubles: half a unit beyond the
greatest of them. -/
def belowInfinity (digits : Nat) (exponent : Int) : Bool :=
  let bound := (1 <<< 1024) - (1 <<< 970)
  if digits = 0 then true
  else if 400 < exponent then false
  else if 0 ≤ exponent then digits * Nat.pow 10 exponent.toNat < bound
  else if exponent < -((Nat.log2 digits : Int) + 1) then true
  else digits < bound * Nat.pow 10 (-exponent).toNat

/-- A number with a point or an exponent, or one of the special numbers: whether it is within the range of doubles. -/
def float? (s : List Char) : Option Bool :=
  let (_, body) := splitSign s
  if body = "inf".toList ∨ body = "nan".toList then some true
  else
    let whole := body.takeWhile fun c => c.isDigit || c == '_'
    let afterWhole := body.drop whole.length
    let fraction? : Option (List Char × List Char) := match afterWhole with
      | '.' :: rest =>
        let fraction := rest.takeWhile fun c => c.isDigit || c == '_'
        if isGrouped Char.isDigit false fraction then some (fraction, rest.drop fraction.length) else none
      | rest => some ([], rest)
    fraction?.bind fun (fraction, rest) =>
      let exponent? : Option Int := match rest with
        | [] => if fraction = [] then none else some 0
        | e :: rest =>
          let (sign, digits) := splitSign rest
          if (e = 'e' ∨ e = 'E') ∧ isGrouped Char.isDigit false digits then
            let n : Int := decimalNumber (ungrouped digits)
            some (if sign = some '-' then -n else n)
          else none
      exponent?.bind fun exponent =>
        if isDecimal whole then
          let digits := decimalNumber (ungrouped whole ++ ungrouped fraction)
          some (belowInfinity digits (exponent - (ungrouped fraction).length))
        else none

def daysOf (year month : Nat) : Nat :=
  if month = 2 then if year % 4 = 0 ∧ (year % 100 ≠ 0 ∨ year % 400 = 0) then 29 else 28
  else if month = 4 ∨ month = 6 ∨ month = 9 ∨ month = 11 then 30
  else 31

/-- Reads a number of exactly `count` digits. -/
def readDigits (count : Nat) (s : List Char) : Reading Nat :=
  let digits := s.take count
  if digits.length = count ∧ digits.all Char.isDigit then some (decimalNumber digits, s.drop count) else none

/-- Reads two numbers of two digits with a colon between them, each up to its greatest value. -/
def readClock (first second : Nat) (s : List Char) : Option (List Char) :=
  match readDigits 2 s with
  | some (a, ':' :: s) =>
    match readDigits 2 s with
    | some (b, rest) => if a ≤ first ∧ b ≤ second then some rest else none
    | none => none
  | _ => none

def readDate (s : List Char) : Option (List Char) :=
  match readDigits 4 s with
  | some (year, '-' :: s) =>
    match readDigits 2 s with
    | some (month, '-' :: s) =>
      match readDigits 2 s with
      | some (day, rest) =>
        if 1 ≤ month ∧ month ≤ 12 ∧ 1 ≤ day ∧ day ≤ daysOf year month then some rest else none
      | none => none
    | _ => none
  | _ => none

/-- Reads a time: hours and minutes, perhaps seconds, perhaps fractions of a second. -/
def readTime (s : List Char) : Option (List Char) :=
  match readClock 23 59 s with
  | some (':' :: s) =>
    match readDigits 2 s with
    | some (seconds, rest) =>
      if 60 < seconds then none
      else
        match rest with
        | '.' :: s =>
          let digits := s.takeWhile Char.isDigit
          if digits = [] then none else some (s.drop digits.length)
        | rest => some rest
    | none => none
  | other => other

def isOffset : List Char → Bool
  | [] => true
  | ['Z'] | ['z'] => true
  | sign :: rest => (sign == '+' || sign == '-') && readClock 23 59 rest == some []

/-- Whether the characters are a date, a time, or both with or without an offset. -/
def isDatetime (s : List Char) : Bool :=
  match readDate s with
  | some [] => true
  | some (c :: rest) => (c == 'T' || c == 't' || c == ' ') && (readTime rest).any isOffset
  | none => readTime s == some []

/-- The value of what stands without quotes. -/
def bare? (s : List Char) : Option Value :=
  if s = "true".toList then some (.boolean true)
  else if s = "false".toList then some (.boolean false)
  else if isDatetime s then some .datetime
  else
    match integer? s with
    | some n => some (.integer n)
    | none => (float? s).map .float

/-- Characters that may stand in a value without quotes. -/
def isBareChar (c : Char) : Bool :=
  isTextChar c && !(" \t,[]\x7b\x7d#=\"'".toList.contains c)

/-- Reads a value that stands without quotes.  A date may be followed by a space and a time. -/
def readBare (s : List Char) : Reading Value :=
  let token := s.takeWhile isBareChar
  let rest := s.drop token.length
  match rest with
  | ' ' :: c :: more =>
    if c.isDigit ∧ readDate token = some [] then
      let time := (c :: more).takeWhile isBareChar
      (bare? (token ++ ' ' :: time)).map fun v => (v, (c :: more).drop time.length)
    else (bare? token).map fun v => (v, rest)
  | rest => (bare? token).map fun v => (v, rest)

end Toml
end LayeredParse
