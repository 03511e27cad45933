import LayeredParse.Lex
import LayeredParse.Parse.Matching
import LayeredParse.Text.Cursor
/-!
# Run — parsing whole token lists and texts

A parse succeeds if a rule matches all tokens.  If the rule matches only some of them, the end of input is expected after
those; the error of a parse that is not fatal is the furthest failure.
-/
namespace LayeredParse

/-- The outcome of a parse and the state it ended in. -/
structure Parse where
  outcome : Except ParseError Node
  state : State

namespace Grammar

/-- Parses tokens from the rule with a key. -/
def run (g : Grammar) (key : RuleKey) (config : ParserConfig) (tokens : List Token) : Parse :=
  let input : Input := { tokens := tokens.toArray, config }
  match g.matchRule input key {} with
  | (.matched node, s) =>
    if s.atEnd input then { outcome := .ok node, state := s }
    else
      let s := s.miss (.matching .endOfInput)
      { outcome := .error (s.failure input), state := s }
  | (.backtrack _, s) => { outcome := .error (s.failure input), state := s }
  | (.fatal error, s) => { outcome := .error error, state := s }

/-- The tree of the tokens, parsed from the rule with a key, or what is wrong with them. -/
def parseRule (g : Grammar) (key : RuleKey) (config : ParserConfig) (tokens : List Token) : Except ParseError Node :=
  (g.run key config tokens).outcome

def parseWith (g : Grammar) (config : ParserConfig) (tokens : List Token) : Except ParseError Node :=
  g.parseRule g.root config tokens

/-- The tree of the tokens, parsed from the root with the default configuration. -/
def parse (g : Grammar) (tokens : List Token) : Except ParseError Node :=
  g.parseWith {} tokens

end Grammar

/-- A tree and the text it was parsed from. -/
structure ParsedText where
  root : Node
  text : Text

namespace ParsedText

/-- Where a token came from. -/
def location (p : ParsedText) (token : Token) : Option Location :=
  p.text.location token.range.start

/-- Where the first token of a node came from. -/
def nodeLocation (p : ParsedText) (n : Node) : Option Location :=
  n.firstToken?.bind p.location

end ParsedText

namespace Grammar

/-- The tree of the tokens of a text. -/
def parseText (g : Grammar) (text : Text) : Except ParseError ParsedText :=
  (g.parse (lex text.toString)).map fun root => { root, text }

end Grammar
end LayeredParse
