import LayeredParse.Grammar.Basic
import LayeredParse.Parse.Attempt
/-!
# Matching — matchers and rules as attempts

`Matcher.attempt` reads a matcher as an attempt, given what it is to enter a rule.  `Grammar.enter` enters a rule: it
attempts the rule's matcher, in which rules can be entered with room for one less.  Where there is no room left a rule is
not entered, and the parse fails for good.
-/
namespace LayeredParse

mutual

/-- The attempt that a matcher makes. -/
def Matcher.attempt (input : Input) (call : RuleKey → Attempt Node) : Matcher → Attempt Forest
  | .sequence items => .sequence (Matcher.attempts input call items)
  | .firstOf alternatives => .firstOf (Matcher.attempts input call alternatives)
  | .longestOne alternatives => .longestOne (Matcher.attempts input call alternatives)
  | .strictOr alternatives =>
    .strictOr (fun index => .ambiguousAlternatives index (Matcher.render (.strictOr alternatives)))
      (Matcher.attempts input call alternatives)
  | .optional item => .optional (Matcher.attempt input call item)
  | .zeroOrMore item => .zeroOrMore input (Matcher.attempt input call item)
  | .oneOrMore item => .oneOrMore input (Matcher.attempt input call item)
  | .next item => .next (Matcher.attempt input call item)
  | .not item => .not item (Matcher.attempt input call item)
  | .adjacent item => .adjacent input item (Matcher.attempt input call item)
  | .till terminator => .till input (Matcher.attempt input call terminator)
  | .literal value => .leaf input (.literal value) fun token => token.value == value
  | .regex pattern => .leaf input (.regex pattern) fun token => pattern.accepts token.value
  | .tokenType name => .leaf input (.tokenType name) fun token => token.type == name
  | .anyToken => .leaf input .anyToken fun _ => true
  | .endOfInput => .endOfInput input
  | .rule key => .spliced (call key)

def Matcher.attempts (input : Input) (call : RuleKey → Attempt Node) : List Matcher → List (Attempt Forest)
  | [] => []
  | m :: ms => Matcher.attempt input call m :: Matcher.attempts input call ms

end

namespace Rule

/-- The node of a match of the rule. -/
def node (rule : Rule) (children : Forest) (start stop : Nat) : Node :=
  .branch rule.name children start stop (rule.policy.skips children)

/-- Enters the rule, makes the attempt and leaves the rule. -/
def around (rule : Rule) (a : Attempt Forest) : Attempt Node := fun s =>
  match a (s.enter rule.name) with
  | (answer, t) => (answer.map fun children => rule.node children s.index t.index, t.leave rule.name answer.isMatch)

end Rule

namespace Grammar

/-- Matches the rule with a key, with room to nest `room` rules. -/
def enter (g : Grammar) (input : Input) : (room : Nat) → RuleKey → Attempt Node
  | 0, key, s =>
    match g.rule? key with
    | none => (.fatal (.foreignRule key), s)
    | some rule => (.fatal (.recursionLimit rule.name input.config.maxDepth), s)
  | room + 1, key, s =>
    match g.rule? key with
    | none => (.fatal (.foreignRule key), s)
    | some rule => rule.around (rule.matcher.attempt input (g.enter input room)) s

/-- Matches the rule with a key from a state.  What follows the match is left. -/
def matchRule (g : Grammar) (input : Input) (key : RuleKey) : Attempt Node := fun s =>
  g.enter input (input.config.maxDepth - s.depth) key s

end Grammar
end LayeredParse
