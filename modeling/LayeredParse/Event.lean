import LayeredParse.Parse.Run
/-!
# Event — what building and parsing report
-/
namespace LayeredParse

/-- How important an event is. -/
inductive Level where
  | trace | debug | warn
  deriving DecidableEq, Repr

def Level.name : Level → String
  | trace => "TRACE"
  | debug => "DEBUG"
  | warn => "WARN"

/-- Something worth reporting. -/
inductive Event where
  /-- A grammar of so many rules with the named root was built. -/
  | builtGrammar (rules : Nat) (root : String)
  | enteredRule (rule : String) (index : Nat)
  | leftRule (rule : String) (matched : Bool) (index : Nat)
  | failedParse (rule : String) (furthest : Nat) (error : ParseError)
  /-- A configuration could not be read and the defaults are used instead. -/
  | fellBack
  deriving DecidableEq, Repr

namespace Event

def level : Event → Level
  | builtGrammar .. | failedParse .. => .debug
  | enteredRule .. | leftRule .. => .trace
  | fellBack => .warn

/-- The event that a journal entry shows as; failed expectations show as none. -/
def ofEntry? : Entry → Option Event
  | .missed .. => none
  | .entered rule index => some (enteredRule rule index)
  | .left rule matched index => some (leftRule rule matched index)

end Event

/-- The rule entries and exits so far, if they are traced. -/
def State.events (s : State) (config : ParserConfig) : List Event :=
  if config.traceRules then s.journal.entries.reverse.filterMap Event.ofEntry? else []

namespace Grammar

/-- What building the grammar reports. -/
def builtEvent (g : Grammar) : Event :=
  .builtGrammar g.size (g.ruleName g.root)

/-- What a parse from the rule with a key reports. -/
def events (g : Grammar) (key : RuleKey) (config : ParserConfig) (p : Parse) : List Event :=
  p.state.events config ++
    match p.outcome with
    | .ok _ => []
    | .error error => [.failedParse (g.ruleName key) p.state.furthest.index error]

end Grammar
end LayeredParse
