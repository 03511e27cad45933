import LayeredParse.Lexeme
import LayeredParse.Text.LineBreak
/-!
# Lex — the tokens of a source text

`lex` drops trivia from the lexemes of a text and gives each of the others its position.  The position is advanced over
the gap before a token and then over the token itself, each taken as a text of its own.
-/
namespace LayeredParse
namespace Lex

/-- A running position: characters passed, line from 1, column from 0. -/
structure Position where
  offset : Nat
  line : Nat
  column : Nat
  deriving DecidableEq, Repr, Inhabited

def Position.origin : Position := ⟨0, 1, 0⟩

def Position.advance (p : Position) : List Char → Position
  | [] => p
  | c :: rest =>
    if endsLine c rest then Position.advance ⟨p.offset + 1, p.line + 1, 0⟩ rest
    else Position.advance ⟨p.offset + 1, p.line, p.column + 1⟩ rest

/-- The tokens of the lexemes that follow position `p` and, after it, the trivia `gap`. -/
def tokensFrom (p : Position) (gap : List Char) : List Lexeme → List Token
  | [] => []
  | l :: rest =>
    if l.isTrivia then tokensFrom p (gap ++ l.chars) rest
    else
      let start := p.advance gap
      let stop := start.advance l.chars
      ⟨l.text, l.tokenType, start.line, start.column, ⟨start.offset, stop.offset⟩⟩ :: tokensFrom stop [] rest

end Lex

def lex (source : String) : List Token :=
  Lex.tokensFrom .origin [] (Lexeme.ofSource source)

end LayeredParse
