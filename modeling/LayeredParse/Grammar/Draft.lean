import LayeredParse.Grammar.Basic
/-!
# Draft — grammars as they are written

Rules are declared by name and get their bodies later, so that rules may refer to each other.  A body can be given once;
it can be wrapped any number of times, and a mock replaces it by a token spelled like the rule.  `Draft.build` makes a
grammar of all rules or says what is wrong with the first that cannot be built; patterns are compiled by the engine that it
is given.
-/
namespace LayeredParse

/-- Why a rule cannot be defined or built. -/
inductive GrammarError where
  | alreadyDefined (rule : String)
  | notDefined (rule : String)
  | unknownRule (rule : String) (index : RuleKey)
  | invalidRegex (rule : String) (pattern : String)
  deriving DecidableEq, Repr

namespace GrammarError

def message : GrammarError → String
  | alreadyDefined rule => s!"rule '{rule}' has already been defined somewhere in the grammar"
  | notDefined rule => s!"rule '{rule}' hasn't been defined"
  | unknownRule rule index => s!"rule '{rule}' refers to unknown rule #{index}"
  | invalidRegex rule pattern => s!"rule '{rule}' has an invalid regular expression /{pattern}/"

def rule : GrammarError → String
  | alreadyDefined rule | notDefined rule | unknownRule rule _ | invalidRegex rule _ => rule

end GrammarError

namespace Form

/-- A list form of the given items; a single item stands for itself. -/
def collapsed (make : List Matcher → Matcher) : List Matcher → Matcher
  | [item] => item
  | items => make items

mutual

/-- The matcher of an expression in a grammar of `count` rules; `name` is the rule that the expression belongs to. -/
def resolve (engine : Engine) (name : String) (count : Nat) : Expr → Except GrammarError Matcher
  | sequence items => (resolveEach engine name count items).map (collapsed .sequence)
  | firstOf alternatives => (resolveEach engine name count alternatives).map (collapsed .firstOf)
  | longestOne alternatives => (resolveEach engine name count alternatives).map .longestOne
  | strictOr alternatives => (resolveEach engine name count alternatives).map .strictOr
  | optional item => (resolve engine name count item).map .optional
  | zeroOrMore item => (resolve engine name count item).map .zeroOrMore
  | oneOrMore item => (resolve engine name count item).map .oneOrMore
  | next item => (resolve engine name count item).map .next
  | not item => (resolve engine name count item).map .not
  | adjacent item => (resolve engine name count item).map .adjacent
  | till terminator => (resolve engine name count terminator).map .till
  | literal value => .ok (.literal value)
  | regex pattern =>
    match Pattern.compile? engine pattern with
    | some compiled => .ok (.regex compiled)
    | none => .error (.invalidRegex name pattern)
  | tokenType type => .ok (.tokenType type)
  | anyToken => .ok .anyToken
  | endOfInput => .ok .endOfInput
  | rule key => if key < count then .ok (.rule key) else .error (.unknownRule name key)

def resolveEach (engine : Engine) (name : String) (count : Nat) : List Expr → Except GrammarError (List Matcher)
  | [] => .ok []
  | item :: items =>
    match resolve engine name count item with
    | .error e => .error e
    | .ok m => (resolveEach engine name count items).map (m :: ·)

end

end Form

/-- A rule as it is drafted: its body if it has one yet, what to wrap the body in, from the inside out, and the policy
for its nodes. -/
structure Definition where
  name : String
  body : Option Expr := none
  wraps : List (Expr → Expr) := []
  policy : SkipPolicy := .never

namespace Definition

def isDefined (d : Definition) : Bool :=
  d.body.isSome

def stateName (d : Definition) : String :=
  if d.isDefined then "Defined" else "Unbound"

/-- Gives the rule its body, once. -/
def define (d : Definition) (body : Expr) : Except GrammarError Definition :=
  if d.isDefined then .error (.alreadyDefined d.name) else .ok { d with body := some body }

/-- Wraps what the body will be when the grammar is built. -/
def wrap (d : Definition) (f : Expr → Expr) : Definition :=
  { d with wraps := d.wraps ++ [f] }

/-- Replaces the body by a token spelled like the rule. -/
def mock (d : Definition) : Definition :=
  { d with body := some (.literal d.name) }

def skipIf (d : Definition) (policy : SkipPolicy) : Definition :=
  { d with policy }

/-- The rule in a grammar of `count` rules. -/
def build (d : Definition) (count : Nat) (engine : Engine := Regex.engine) : Except GrammarError Rule :=
  match d.body with
  | none => .error (.notDefined d.name)
  | some body =>
    ((d.wraps.foldl (fun body f => f body) body).resolve engine d.name count).map fun matcher =>
      { name := d.name, matcher, policy := d.policy }

/-- A summary of the rule with the given key for diagnostics. -/
def summary (d : Definition) (key : RuleKey) : String :=
  let body := match d.body with
    | some body => s!"Some({body.outline})"
    | none => "None"
  s!"RuleDefinition \x7b key: RuleKey({key}), name: {quote d.name}, state: {d.stateName}, body: {body}, " ++
    s!"overrides: {d.wraps.length}, policy: {d.policy.name} \x7d"

end Definition

/-- A grammar as it is drafted: its rules in the order in which they were first named. -/
structure Draft where
  definitions : Array Definition := #[]

namespace Draft

def size (d : Draft) : Nat :=
  d.definitions.size

def isEmpty (d : Draft) : Bool :=
  d.definitions.isEmpty

def find? (d : Draft) (name : String) : Option RuleKey :=
  d.definitions.findIdx? (·.name == name)

/-- The key of the rule with a name, which is declared if it is not yet. -/
def declare (d : Draft) (name : String) : RuleKey × Draft :=
  match d.find? name with
  | some key => (key, d)
  | none => (d.size, { definitions := d.definitions.push { name } })

def definition? (d : Draft) (key : RuleKey) : Option Definition :=
  d.definitions[key]?

def update (d : Draft) (key : RuleKey) (f : Definition → Definition) : Draft :=
  { definitions := d.definitions.modify key f }

def define (d : Draft) (name : String) (body : Expr) : Except GrammarError Draft :=
  let (key, d) := d.declare name
  match d.definition? key with
  | none => .ok d
  | some definition => (definition.define body).map fun definition => d.update key fun _ => definition

def wrap (d : Draft) (name : String) (f : Expr → Expr) : Draft :=
  let (key, d) := d.declare name
  d.update key (·.wrap f)

def mock (d : Draft) (name : String) : Draft :=
  let (key, d) := d.declare name
  d.update key Definition.mock

def skipIf (d : Draft) (name : String) (policy : SkipPolicy) : Draft :=
  let (key, d) := d.declare name
  d.update key (·.skipIf policy)

/-- The rules of the definitions, or the first error among them. -/
def buildEach (engine : Engine) (count : Nat) : List Definition → Except GrammarError (List Rule)
  | [] => .ok []
  | definition :: rest =>
    match definition.build count engine with
    | .error e => .error e
    | .ok rule => (buildEach engine count rest).map (rule :: ·)

/-- The grammar that starts from the given root.  An unknown root is reported before anything else. -/
def build (d : Draft) (root : RuleKey) (engine : Engine := Regex.engine) : Except GrammarError Grammar :=
  if d.size ≤ root then .error (.unknownRule "<root>" root)
  else (buildEach engine d.size d.definitions.toList).map fun rules => { rules := rules.toArray, root }

end Draft
end LayeredParse
