import LayeredParse.Regex.Pattern
import LayeredParse.Token
/-!
# Form — grammar expressions and matchers

A form says what to match: tokens by value, pattern or type, rules by key, and combinations of forms.  Drafts of grammars
hold expressions, whose patterns are still texts; built grammars hold matchers, whose patterns are compiled.  `render`
writes a form the way diagnostics show it.
-/
namespace LayeredParse

/-- The position of a rule in its grammar. -/
abbrev RuleKey := Nat

/-- What to match; `ρ` is how patterns are held. -/
inductive Form (ρ : Type) where
  | sequence (items : List (Form ρ))
  | firstOf (alternatives : List (Form ρ))
  /-- The alternative that takes the most tokens, the first of those that take as many. -/
  | longestOne (alternatives : List (Form ρ))
  /-- The only alternative that matches. -/
  | strictOr (alternatives : List (Form ρ))
  | optional (item : Form ρ)
  | zeroOrMore (item : Form ρ)
  | oneOrMore (item : Form ρ)
  /-- Nothing, where the item would match. -/
  | next (item : Form ρ)
  /-- Nothing, where the item would not match. -/
  | not (item : Form ρ)
  /-- The item, right where the token before ends. -/
  | adjacent (item : Form ρ)
  /-- All tokens up to and including a match of the terminator. -/
  | till (terminator : Form ρ)
  | literal (value : String)
  /-- A token whose value the pattern accepts. -/
  | regex (pattern : ρ)
  | tokenType (name : TokenType)
  | anyToken
  | endOfInput
  | rule (key : RuleKey)

/-- A form as a grammar is drafted with: patterns are texts, and rules may still be missing. -/
abbrev Expr := Form String

/-- A form as a grammar matches with. -/
abbrev Matcher := Form Pattern

namespace Form

variable {ρ : Type}

mutual

/-- The form as diagnostics show it; `source` gives the text of a pattern. -/
def renderWith (source : ρ → String) : Form ρ → String
  | sequence items => "(" ++ " ".intercalate (renderEach source items) ++ ")"
  | firstOf alternatives => "(" ++ " | ".intercalate (renderEach source alternatives) ++ ")"
  | longestOne alternatives => "longestOne(" ++ ", ".intercalate (renderEach source alternatives) ++ ")"
  | strictOr alternatives => "strictOr(" ++ " | ".intercalate (renderEach source alternatives) ++ ")"
  | optional item => renderWith source item ++ "?"
  | zeroOrMore item => renderWith source item ++ "*"
  | oneOrMore item => renderWith source item ++ "+"
  | next item => "&" ++ renderWith source item
  | not item => "!" ++ renderWith source item
  | adjacent item => "adjacent(" ++ renderWith source item ++ ")"
  | till terminator => "till(" ++ renderWith source terminator ++ ")"
  | literal value => quote value
  | regex pattern => "/" ++ source pattern ++ "/"
  | tokenType name => name
  | anyToken => "any token"
  | endOfInput => "end of input"
  | rule key => s!"<rule #{key}>"

def renderEach (source : ρ → String) : List (Form ρ) → List String
  | [] => []
  | item :: items => renderWith source item :: renderEach source items

end

mutual

/-- The structure of an expression, constructor by constructor. -/
def outline : Expr → String
  | sequence items => "Sequence([" ++ ", ".intercalate (outlines items) ++ "])"
  | firstOf alternatives => "FirstOf([" ++ ", ".intercalate (outlines alternatives) ++ "])"
  | longestOne alternatives => "LongestOne([" ++ ", ".intercalate (outlines alternatives) ++ "])"
  | strictOr alternatives => "StrictOr([" ++ ", ".intercalate (outlines alternatives) ++ "])"
  | optional item => "Optional(" ++ outline item ++ ")"
  | zeroOrMore item => "ZeroOrMore(" ++ outline item ++ ")"
  | oneOrMore item => "OneOrMore(" ++ outline item ++ ")"
  | next item => "Next(" ++ outline item ++ ")"
  | not item => "Not(" ++ outline item ++ ")"
  | adjacent item => "Adjacent(" ++ outline item ++ ")"
  | till terminator => "Till(" ++ outline terminator ++ ")"
  | literal value => "Literal(" ++ quote value ++ ")"
  | regex pattern => "Regex(" ++ quote pattern ++ ")"
  | tokenType name => "TokenType(" ++ quote name ++ ")"
  | anyToken => "AnyToken"
  | endOfInput => "EndOfInput"
  | rule key => s!"Rule(RuleKey({key}))"

def outlines : List Expr → List String
  | [] => []
  | item :: items => outline item :: outlines items

end

end Form

/-- The matcher as diagnostics show it, patterns as they were written. -/
def Matcher.render (m : Matcher) : String :=
  Form.renderWith Pattern.source m

end LayeredParse
