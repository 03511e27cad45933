import LayeredParse.Text.Quoted
/-!
# Token — what a grammar matches

A token has a value, a type that is just a name, the line (from 1) and column (from 0) of its first character, and the
range of characters it covers in the text it was read from.
-/
namespace LayeredParse

/-- The name of a token type.  Any tokenizer may bring its own. -/
abbrev TokenType := String

namespace TokenType

def words : TokenType := "WORDS"

def identifier : TokenType := "IDENTIFIER"

def number : TokenType := "NUMBER"

def string : TokenType := "STRING"

def punctuator : TokenType := "PUNCTUATOR"

def error : TokenType := "ERROR"

end TokenType

/-- A range of characters, from `start` up to but not including `stop`. -/
structure Span where
  start : Nat
  stop : Nat
  deriving DecidableEq, Repr, Inhabited

/-- The least range that includes both. -/
def Span.cover (a b : Span) : Span :=
  ⟨min a.start b.start, max a.stop b.stop⟩

structure Token where
  value : String
  type : TokenType
  line : Nat
  column : Nat
  range : Span
  deriving DecidableEq, Repr, Inhabited

namespace Token

/-- The largest column and the largest length that are told apart. -/
def columnLimit : Nat := 4294967295

def length (t : Token) : Nat :=
  min t.value.length columnLimit

def isEmpty (t : Token) : Bool :=
  t.value.isEmpty

/-- The column just past the last character, as far as columns are told apart. -/
def endColumn (t : Token) : Nat :=
  min (t.column + t.length) columnLimit

/-- Type, quoted value and position. -/
def display (t : Token) : String :=
  s!"{t.type} {quote t.value} @{t.line}:{t.column}"

end Token
end LayeredParse
