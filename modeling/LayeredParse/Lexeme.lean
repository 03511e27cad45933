import LayeredParse.Token
/-!
# Lexeme — the pieces that source text is cut into

`Lexeme.ofSource` cuts a text into consecutive pieces: white space and comments, identifiers, numbers, quoted strings,
operators, and pieces that are none of these.  `Lexeme.next` finds the first piece by its first character, as the longest
run of characters that one kind admits; the pieces put together give the text back.
-/
namespace LayeredParse

inductive LexemeKind where
  /-- Spaces, tabs, form feeds and line breaks. -/
  | whitespace
  /-- Two slashes and the rest of the line. -/
  | lineComment
  /-- From an opening mark to the first closing mark after it. -/
  | blockComment
  /-- A letter or underscore, then letters, digits and underscores. -/
  | identifier
  /-- Digits, and perhaps a point and more digits. -/
  | number
  /-- Single or double quotes around anything but line breaks, with backslash escapes. -/
  | string
  /-- An operator of two characters or one of the punctuation characters. -/
  | punctuator
  deriving DecidableEq, Repr, Inhabited

namespace LexemeKind

/-- Lexemes that never become tokens. -/
def isTrivia : LexemeKind → Bool
  | whitespace | lineComment | blockComment => true
  | identifier | number | string | punctuator => false

/-- The type of the token that a lexeme becomes; trivia, which becomes none, has the type of errors. -/
def tokenType : LexemeKind → TokenType
  | identifier => TokenType.identifier
  | number => TokenType.number
  | string => TokenType.string
  | punctuator => TokenType.punctuator
  | whitespace | lineComment | blockComment => TokenType.error

def name : LexemeKind → String
  | whitespace => "Whitespace"
  | lineComment => "LineComment"
  | blockComment => "BlockComment"
  | identifier => "Identifier"
  | number => "Number"
  | string => "String"
  | punctuator => "Punctuator"

end LexemeKind

/-- A piece of source text: its kind, if it is recognized, and its characters. -/
structure Lexeme where
  kind : Option LexemeKind
  chars : List Char
  deriving DecidableEq, Repr, Inhabited

namespace Lexeme

/-- Spaces, tabs, form feeds and line breaks. -/
def isBlank (c : Char) : Bool :=
  c == ' ' || c == '\t' || c == '\r' || c == '\n' || c == '\x0c'

def isInLine (c : Char) : Bool :=
  c != '\r' && c != '\n'

def isWordStart (c : Char) : Bool :=
  c.isAlpha || c == '_'

def isWordPart (c : Char) : Bool :=
  c.isAlphanum || c == '_'

/-- Characters that are operators or punctuation by themselves. -/
def isPunctuation (c : Char) : Bool :=
  "-+*/%=<>!&|^~?:;,.()\x7b\x7d[]#@$".toList.contains c

def isOperatorPair (first second : Char) : Bool :=
  [('=', '='), ('!', '='), ('<', '='), ('>', '='), ('&', '&'), ('|', '|'), ('-', '>'), (':', ':'), ('+', '+'),
    ('-', '-'), ('<', '<'), ('>', '>')].contains (first, second)

/-- The number of characters up to and including the first closing mark of a block comment. -/
def commentEnd : List Char → Option Nat
  | '*' :: '/' :: _ => some 2
  | _ :: rest => (commentEnd rest).map (· + 1)
  | [] => none

/-- The number of characters of a quoted string after its opening quote, and whether it is closed.  An escape is a
backslash and any character but a line feed; an unclosed string stops before the line break that may not stand in it. -/
def stringEnd (mark : Char) : List Char → Nat × Bool
  | [] => (0, false)
  | '\\' :: c :: rest =>
    if c = '\n' then (1, false)
    else
      let (n, closed) := stringEnd mark rest
      (n + 2, closed)
  | '\\' :: [] => (1, false)
  | c :: rest =>
    if c = mark then (1, true)
    else if isInLine c then
      let (n, closed) := stringEnd mark rest
      (n + 1, closed)
    else (0, false)

/-- The number of characters of the fraction of a number: a point and at least one digit, or nothing. -/
def fractionLength : List Char → Nat
  | '.' :: rest =>
    match (rest.takeWhile Char.isDigit).length with
    | 0 => 0
    | n + 1 => n + 2
  | _ => 0

/-- The kind of the lexeme that begins with `c` before `rest`, and how many characters of `rest` belong to it. -/
def measure (c : Char) (rest : List Char) : Option LexemeKind × Nat :=
  if isBlank c then (some .whitespace, (rest.takeWhile isBlank).length)
  else if isWordStart c then (some .identifier, (rest.takeWhile isWordPart).length)
  else if c.isDigit then
    let digits := (rest.takeWhile Char.isDigit).length
    (some .number, digits + fractionLength (rest.drop digits))
  else if c = '"' ∨ c = '\'' then
    let (n, closed) := stringEnd c rest
    (if closed then some .string else none, n)
  else
    match c, rest with
    | '/', '/' :: line => (some .lineComment, 1 + (line.takeWhile isInLine).length)
    | '/', '*' :: body =>
      match commentEnd body with
      | some n => (some .blockComment, 1 + n)
      | none => (none, 1 + body.length)
    | c, second :: _ =>
      if isOperatorPair c second then (some .punctuator, 1)
      else if isPunctuation c then (some .punctuator, 0)
      else (none, 0)
    | c, [] => if isPunctuation c then (some .punctuator, 0) else (none, 0)

def next (c : Char) (rest : List Char) : Lexeme :=
  let (kind, n) := measure c rest
  ⟨kind, c :: rest.take n⟩

/-- What follows the first lexeme of a text that begins with `c`. -/
def after (c : Char) (rest : List Char) : List Char :=
  rest.drop (measure c rest).2

/-- The consecutive lexemes of a text. -/
def ofChars : List Char → List Lexeme
  | [] => []
  | c :: rest => next c rest :: ofChars (after c rest)
termination_by s => s.length
decreasing_by simp only [after, List.length_drop, List.length_cons]; omega

def ofSource (source : String) : List Lexeme :=
  ofChars source.toList

def isTrivia (l : Lexeme) : Bool :=
  match l.kind with
  | some kind => kind.isTrivia
  | none => false

def tokenType (l : Lexeme) : TokenType :=
  match l.kind with
  | some kind => kind.tokenType
  | none => TokenType.error

def text (l : Lexeme) : String :=
  String.ofList l.chars

/-- Each lexeme with the range of bytes of encoded text that it covers, the first from `start` on. -/
def byteSpans (start : Nat) : List Lexeme → List (Lexeme × Span)
  | [] => []
  | l :: rest =>
    let stop := start + l.text.utf8ByteSize
    (l, ⟨start, stop⟩) :: byteSpans stop rest

end Lexeme
end LayeredParse
