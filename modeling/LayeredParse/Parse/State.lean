import LayeredParse.Config
import LayeredParse.Parse.Error
import LayeredParse.Parse.Journal
/-!
# State — where a parse stands

The tokens and the configuration do not change during a parse; what does is the index of the next token, the number of
rules that are open, and the journal.  Going back is setting the index back: `Mark` is an index to go back to.
-/
namespace LayeredParse

structure Input where
  tokens : Array Token
  config : ParserConfig := {}

structure State where
  index : Nat := 0
  depth : Nat := 0
  journal : Journal := {}

structure Mark where
  index : Nat
  deriving DecidableEq, Repr, Inhabited

/-- The wording of a mark that was taken and then forgotten. -/
def Mark.forgotten : String :=
  "parsing state mark was neither restored nor committed"

namespace Input

def size (input : Input) : Nat :=
  input.tokens.size

def isEmpty (input : Input) : Bool :=
  input.tokens.isEmpty

def read (input : Input) (index : Nat) : Option Token :=
  input.tokens[index]?

end Input

namespace State

def atEnd (s : State) (input : Input) : Bool :=
  input.size ≤ s.index

/-- The token `offset` places after the next one. -/
def peek (s : State) (input : Input) (offset : Nat) : Except Backtrack Token :=
  match input.read (s.index + offset) with
  | some token => .ok token
  | none => .error .endOfInput

def goTo (s : State) (index : Nat) : State :=
  { s with index }

def pop (s : State) (input : Input) : Except Backtrack Token × State :=
  match s.peek input 0 with
  | .ok token => (.ok token, s.goTo (s.index + 1))
  | .error e => (.error e, s)

/-- The token taken last. -/
def previous (s : State) (input : Input) : Option Token :=
  match s.index with
  | 0 => none
  | index + 1 => input.read index

def mark (s : State) : Mark :=
  ⟨s.index⟩

def restore (s : State) (m : Mark) : State :=
  s.goTo m.index

/-- Stays where it is, whatever the mark.  Left out is the assertion of checking builds that the mark is not ahead of the
index; no matcher falls behind its mark. -/
def commit (s : State) (_ : Mark) : State :=
  s

def record (s : State) (e : Entry) : State :=
  { s with journal := s.journal.record e }

/-- Writes down that something was expected at the current index in vain. -/
def miss (s : State) (expected : Expectation) : State :=
  s.record (.missed s.index expected)

def enter (s : State) (rule : String) : State :=
  { s with depth := s.depth + 1 }.record (.entered rule s.index)

def leave (s : State) (rule : String) (matched : Bool) : State :=
  { s with depth := s.depth - 1 }.record (.left rule matched s.index)

def furthest (s : State) : Furthest :=
  s.journal.furthest

/-- The error for a failed parse, at the furthest failure. -/
def failure (s : State) (input : Input) : ParseError :=
  let furthest := s.furthest
  match input.read furthest.index with
  | some token =>
    .unexpectedToken furthest.index token.value token.line token.column token.range.start furthest.expected
  | none => .unexpectedEnd furthest.index furthest.expected

end State
end LayeredParse
