import LayeredParse.Grammar.Form
/-!
# Journal — what happened during a parse

Matching writes down every failed expectation and every rule it enters or leaves, and never takes anything back.  The
furthest failure is a view of the journal: the greatest index at which something was expected in vain, and what was
expected there, each thing once and in the order in which it was first expected.
-/
namespace LayeredParse

/-- What an attempt expected in vain. -/
inductive Expectation where
  | matching (m : Matcher)
  | notMatching (m : Matcher)

def Expectation.text : Expectation → String
  | matching m => m.render
  | notMatching m => "not " ++ m.render

/-- Something that happened at a token index. -/
inductive Entry where
  | missed (index : Nat) (expected : Expectation)
  | entered (rule : String) (index : Nat)
  | left (rule : String) (matched : Bool) (index : Nat)

/-- A furthest failure: where, and what was expected there. -/
structure Furthest where
  index : Nat := 0
  expected : List String := []
  deriving DecidableEq, Repr, Inhabited

/-- Takes in a further expectation.  One before the furthest index does not count, one after it makes all earlier ones
obsolete. -/
def Furthest.add (f : Furthest) (index : Nat) (text : String) : Furthest :=
  if index < f.index then f
  else
    let expected := if f.index < index then [] else f.expected
    ⟨index, if expected.contains text then expected else expected ++ [text]⟩

/-- Takes in an entry. -/
def Furthest.read (f : Furthest) : Entry → Furthest
  | .missed index expected => f.add index expected.text
  | .entered .. | .left .. => f

/-- All that happened, the newest entry first. -/
structure Journal where
  entries : List Entry := []

namespace Journal

def record (j : Journal) (e : Entry) : Journal :=
  ⟨e :: j.entries⟩

def furthest (j : Journal) : Furthest :=
  j.entries.foldr (fun e f => f.read e) {}

end Journal
end LayeredParse
