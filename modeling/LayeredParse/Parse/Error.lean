import LayeredParse.Token
/-!
# Error — why a match or a parse fails

A match that does not apply backtracks, and whatever tried it goes on with something else.  Some errors are fatal: they
end the whole parse at once.
-/
namespace LayeredParse

/-- Why an attempt did not match; something else may be tried. -/
inductive Backtrack where
  /-- The current token is not what was wanted. -/
  | mismatch
  /-- A token was wanted after the last one. -/
  | endOfInput
  deriving DecidableEq, Repr, Inhabited

def Backtrack.message : Backtrack → String
  | mismatch => "mismatch"
  | endOfInput => "unexpected end of input"

/-- Why a parse fails. -/
inductive ParseError where
  /-- The furthest failure was at a token: its index, its value, its line, column and first character, and what would
  have been accepted there. -/
  | unexpectedToken (index : Nat) (found : String) (line column offset : Nat) (expected : List String)
  /-- The furthest failure was after the last token. -/
  | unexpectedEnd (index : Nat) (expected : List String)
  /-- More than one alternative of a strict alternation, tried at the index, matches. -/
  | ambiguousAlternatives (index : Nat) (matcher : String)
  | recursionLimit (rule : String) (limit : Nat)
  | foreignRule (key : Nat)
  deriving DecidableEq, Repr, Inhabited

namespace ParseError

/-- The index of the token where the error is, if it is at one. -/
def index? : ParseError → Option Nat
  | unexpectedToken index .. | unexpectedEnd index _ | ambiguousAlternatives index _ => some index
  | recursionLimit .. | foreignRule _ => none

def oneOf : List String → String
  | [] => "nothing"
  | [single] => single
  | several => "one of " ++ ", ".intercalate several

def message : ParseError → String
  | unexpectedToken _ found line column _ expected =>
    s!"expected {oneOf expected}, got {quote found} at {line}:{column + 1}"
  | unexpectedEnd _ expected => s!"unexpected end of input, expected {oneOf expected}"
  | ambiguousAlternatives index matcher => s!"more than one alternative of {matcher} matches at token {index}"
  | recursionLimit rule limit => s!"rule '{rule}' exceeded the maximum nesting depth of {limit}"
  | foreignRule key => s!"rule #{key} does not belong to this grammar"

end ParseError
end LayeredParse
