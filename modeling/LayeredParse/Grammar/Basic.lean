import LayeredParse.Grammar.Form
import LayeredParse.Tree
/-!
# Grammar — built grammars

A built grammar is a table of rules and the key of the rule that parsing starts from.  Every rule has a name, a matcher,
and a policy for its nodes.
-/
namespace LayeredParse

structure Rule where
  name : String
  matcher : Matcher
  policy : SkipPolicy

structure Grammar where
  rules : Array Rule
  root : RuleKey

namespace Grammar

def size (g : Grammar) : Nat :=
  g.rules.size

def isEmpty (g : Grammar) : Bool :=
  g.rules.isEmpty

def rule? (g : Grammar) (key : RuleKey) : Option Rule :=
  g.rules[key]?

def key? (g : Grammar) (name : String) : Option RuleKey :=
  g.rules.findIdx? (·.name == name)

/-- The name of the rule with a key; a key of no rule has the empty name. -/
def ruleName (g : Grammar) (key : RuleKey) : String :=
  match g.rule? key with
  | some rule => rule.name
  | none => ""

def matcher? (g : Grammar) (key : RuleKey) : Option Matcher :=
  (g.rule? key).map Rule.matcher

def policy? (g : Grammar) (key : RuleKey) : Option SkipPolicy :=
  (g.rule? key).map Rule.policy

end Grammar
end LayeredParse
