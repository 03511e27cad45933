import LayeredParse.Parse.Run
import LayeredParse.Proofs.Parse.Agreement
import Mathlib.Data.List.Induction
/-!
# Furthest — the error of a failed parse is the furthest failure

The log of a state is all that was expected in vain up to there, in order, each with its index.  The furthest failure,
which is kept up to date entry by entry, is the greatest index of the log with all that is logged there
(`Journal.furthest_tells`).  In a session tokens are taken, marks are taken and gone back to, and rules are matched, in
any order: index and log stay within the tokens, and nothing is ever taken back from the log (`Session.act_within`,
`Session.act_log`).  A parse is such a session, after which the end of input may have been expected as well.
-/
namespace LayeredParse

/-- What was expected in vain and where, if that is what happened. -/
def Entry.miss? : Entry → Option (Nat × String)
  | .missed index expected => some (index, expected.text)
  | .entered .. | .left .. => none

/-- All that was expected in vain, the oldest first. -/
def Journal.log (j : Journal) : List (Nat × String) :=
  j.entries.reverse.filterMap Entry.miss?

theorem Journal.log_record (j : Journal) (e : Entry) : (j.record e).log = j.log ++ e.miss?.toList := by
  unfold log record
  rw [List.reverse_cons, List.filterMap_append]
  cases e <;> rfl

namespace State

def log (s : State) : List (Nat × String) :=
  s.journal.log

variable (s : State)

@[simp] theorem log_miss (expected : Expectation) : (s.miss expected).log = s.log ++ [(s.index, expected.text)] :=
  s.journal.log_record _

@[simp] theorem log_enter (rule : String) : (s.enter rule).log = s.log := by
  rw [log, enter, record, Journal.log_record]
  exact List.append_nil _

@[simp] theorem log_leave (rule : String) (matched : Bool) : (s.leave rule matched).log = s.log := by
  rw [log, leave, record, Journal.log_record]
  exact List.append_nil _

end State

def State.Inside (input : Input) (s : State) : Prop :=
  s.index ≤ input.size ∧ ∀ p ∈ s.log, p.1 ≤ input.size

/-! ## The furthest failure of a log -/

/-- The greatest index of a log; no index at all counts as 0. -/
def furthestOf (log : List (Nat × String)) : Nat :=
  (log.map Prod.fst).max?.getD 0

/-- What is logged at an index, each thing once and in the order in which it was first logged. -/
def expectedAt (log : List (Nat × String)) (index : Nat) : List String :=
  ((log.filter (·.1 == index)).map Prod.snd).eraseDups

theorem le_furthestOf {log : List (Nat × String)} {p : Nat × String} (h : p ∈ log) : p.1 ≤ furthestOf log :=
  List.le_max?_getD_of_mem (List.mem_map_of_mem h)

theorem furthestOf_append (log : List (Nat × String)) (index : Nat) (text : String) :
    furthestOf (log ++ [(index, text)]) = max (furthestOf log) index := by
  have running : ∀ is : List Nat, is.max?.getD 0 = is.foldl max 0 := by
    intro is
    rw [List.foldl_max, Nat.zero_max]
  unfold furthestOf
  rw [List.map_append, running, running, List.foldl_append]
  rfl

theorem furthestOf_le {log : List (Nat × String)} {n : Nat} (h : ∀ p ∈ log, p.1 ≤ n) : furthestOf log ≤ n := by
  induction log using List.reverseRecOn with
  | nil => exact Nat.zero_le n
  | append_singleton log p ih =>
    rw [furthestOf_append]
    exact Nat.max_le.2 ⟨ih (fun q hq => h q (List.mem_append_left _ hq)), h p (List.mem_append_right _ List.mem_cons_self)⟩

theorem expectedAt_append_of_ne {log : List (Nat × String)} {i j : Nat} (h : j ≠ i) (text : String) :
    expectedAt (log ++ [(j, text)]) i = expectedAt log i := by
  have hnone : [(j, text)].filter (·.1 == i) = [] := by simp [h]
  unfold expectedAt
  rw [List.filter_append, hnone, List.append_nil]

theorem expectedAt_append (log : List (Nat × String)) (i : Nat) (text : String) : expectedAt (log ++ [(i, text)]) i =
    if (expectedAt log i).contains text then expectedAt log i else expectedAt log i ++ [text] := by
  have hlast : [(i, text)].filter (·.1 == i) = [(i, text)] := by simp
  unfold expectedAt
  rw [List.filter_append, hlast, List.map_append, List.eraseDups_append]
  generalize (log.filter (·.1 == i)).map Prod.snd = texts
  by_cases hmem : text ∈ texts
  · simp [hmem, List.removeAll]
  · simp [hmem, List.removeAll, List.eraseDups_cons]

theorem expectedAt_of_lt {log : List (Nat × String)} {i : Nat} (h : furthestOf log < i) : expectedAt log i = [] := by
  have hnone : log.filter (·.1 == i) = [] := by
    refine List.filter_eq_nil_iff.2 (fun p hp => ?_)
    have := le_furthestOf hp
    simp
    omega
  unfold expectedAt
  rw [hnone]
  rfl

/-- **Whether a furthest failure is that of a log**: the greatest index of the log, and what is logged there. -/
structure Furthest.Tells (f : Furthest) (log : List (Nat × String)) : Prop where
  index_eq : f.index = furthestOf log
  expected_eq : f.expected = expectedAt log f.index

namespace Furthest

variable {f : Furthest} {log : List (Nat × String)}

theorem add_index (f : Furthest) (index : Nat) (text : String) : (f.add index text).index = max f.index index := by
  unfold add
  by_cases hlt : index < f.index
  · rw [if_pos hlt, Nat.max_eq_left (Nat.le_of_lt hlt)]
  · rw [if_neg hlt, Nat.max_eq_right (Nat.le_of_not_lt hlt)]

theorem Tells.add (h : f.Tells log) (index : Nat) (text : String) : (f.add index text).Tells (log ++ [(index, text)]) := by
  constructor
  · rw [add_index, furthestOf_append, h.index_eq]
  · unfold Furthest.add
    rcases Nat.lt_trichotomy index f.index with hlt | heq | hgt
    · rw [if_pos hlt, expectedAt_append_of_ne (Nat.ne_of_lt hlt)]
      exact h.expected_eq
    · subst heq
      rw [if_neg (Nat.lt_irrefl _), expectedAt_append, ← h.expected_eq]
      simp only [if_neg (Nat.lt_irrefl _)]
    · rw [if_neg (Nat.not_lt_of_gt hgt), expectedAt_append, expectedAt_of_lt (h.index_eq ▸ hgt)]
      simp only [if_pos hgt]

/-- What is taken in counts, unless it is before the furthest index. -/
theorem mem_add (f : Furthest) (index : Nat) (text : String) :
    text ∈ (f.add index text).expected ∨ index < f.index ∧ f.add index text = f := by
  unfold add
  by_cases hlt : index < f.index
  · rw [if_pos hlt]
    exact .inr ⟨hlt, rfl⟩
  · rw [if_neg hlt]
    left
    generalize (if f.index < index then [] else f.expected) = texts
    by_cases hmem : text ∈ texts
    · simp [hmem]
    · simp [hmem]

theorem read_missed (f : Furthest) (index : Nat) (expected : Expectation) :
    f.read (.missed index expected) = f.add index expected.text := rfl

theorem Tells.read (h : f.Tells log) (e : Entry) : (f.read e).Tells (log ++ e.miss?.toList) := by
  cases e with
  | missed index expected =>
    rw [read_missed]
    exact h.add index expected.text
  | entered rule index | left rule matched index =>
    rw [Entry.miss?, Option.toList_none, List.append_nil]
    exact h

end Furthest

/-- **The furthest failure of a journal is that of its log.** -/
theorem Journal.furthest_tells (j : Journal) : j.furthest.Tells j.log := by
  obtain ⟨entries⟩ := j
  induction entries with
  | nil => exact ⟨rfl, rfl⟩
  | cons e entries ih =>
    have hlog : Journal.log ⟨e :: entries⟩ = Journal.log ⟨entries⟩ ++ e.miss?.toList := Journal.log_record ⟨entries⟩ e
    rw [hlog]
    exact ih.read e

/-! ## Sessions -/

/-- What can be done with a state: a token is taken, the index is marked, set back to one of the marks or kept, or a rule
of a grammar is matched. -/
inductive Action where
  | pop
  | mark
  | restore (n : Nat)
  | commit (n : Nat)
  | matchRule (g : Grammar) (key : RuleKey)

/-- A state and the marks that were taken of it. -/
structure Session where
  state : State := {}
  marks : List Mark := []

namespace Session

variable {input : Input}

/-- The session after an action.  A mark that was never taken does nothing. -/
def act (input : Input) (s : Session) : Action → Session
  | .pop => { s with state := (s.state.pop input).2 }
  | .mark => { s with marks := s.marks ++ [s.state.mark] }
  | .restore n =>
    match s.marks[n]? with
    | some m => { s with state := s.state.restore m }
    | none => s
  | .commit n =>
    match s.marks[n]? with
    | some m => { s with state := s.state.commit m }
    | none => s
  | .matchRule g key => { s with state := (g.matchRule input key s.state).2 }

def run (input : Input) (actions : List Action) : Session :=
  actions.foldl (act input) {}

/-- **Inside stays inside**, whatever is attempted, and the log only grows. -/
theorem inside_lasting (input : Input) (log : List (Nat × String)) :
    Comparison.Lasting input (fun s => s.Inside input ∧ log <+: s.log) where
  back hs ht := ⟨⟨hs.1.1, ht.1.2⟩, ht.2⟩
  next hs hlt := ⟨⟨hlt, hs.1.2⟩, hs.2⟩
  miss {s} hs expected := by
    obtain ⟨⟨hindex, hlog⟩, hgrows⟩ := hs
    refine ⟨⟨hindex, ?_⟩, ?_⟩
    · rw [State.log_miss]
      exact List.forall_mem_append.2 ⟨hlog, List.forall_mem_singleton.2 hindex⟩
    · rw [State.log_miss]
      exact hgrows.trans (List.prefix_append _ _)
  enter {s} hs name := by
    rw [State.Inside, State.log_enter]
    exact hs
  leave {s} hs name matched := by
    rw [State.Inside, State.log_leave]
    exact hs

theorem matchRule_inside (g : Grammar) (key : RuleKey) {s : State} (h : s.Inside input) :
    (g.matchRule input key s).2.Inside input ∧ s.log <+: (g.matchRule input key s).2.log :=
  Grammar.matchRule_keeps (inside_lasting input s.log) g key ⟨h, List.prefix_rfl⟩

theorem pop_inside {s : State} (h : s.Inside input) :
    (s.pop input).2.Inside input ∧ (s.pop input).2.log = s.log := by
  unfold State.pop State.peek
  cases hread : input.read (s.index + 0) with
  | none => exact ⟨h, rfl⟩
  | some token =>
    have hlt : s.index < input.size := (Array.getElem?_eq_some_iff.1 hread).1
    exact ⟨⟨hlt, h.2⟩, rfl⟩

def Within (input : Input) (s : Session) : Prop :=
  s.state.Inside input ∧ ∀ m ∈ s.marks, m.index ≤ input.size

/-- **An action stays within the tokens, and takes nothing back from the log.** -/
theorem act_within {s : Session} (h : s.Within input) (a : Action) :
    (s.act input a).Within input ∧ s.state.log <+: (s.act input a).state.log := by
  obtain ⟨hstate, hmarks⟩ := h
  cases a with
  | pop =>
    obtain ⟨hinside, hlog⟩ := pop_inside hstate
    exact ⟨⟨hinside, hmarks⟩, hlog ▸ List.prefix_rfl⟩
  | mark => exact ⟨⟨hstate, List.forall_mem_append.2 ⟨hmarks, List.forall_mem_singleton.2 hstate.1⟩⟩, List.prefix_rfl⟩
  | restore n =>
    rw [act]
    split
    · rename_i m hm
      exact ⟨⟨⟨hmarks m (List.mem_of_getElem? hm), hstate.2⟩, hmarks⟩, List.prefix_rfl⟩
    · exact ⟨⟨hstate, hmarks⟩, List.prefix_rfl⟩
  | commit n =>
    rw [act]
    split
    · exact ⟨⟨hstate, hmarks⟩, List.prefix_rfl⟩
    · exact ⟨⟨hstate, hmarks⟩, List.prefix_rfl⟩
  | matchRule g key =>
    obtain ⟨hinside, hlog⟩ := matchRule_inside g key hstate
    exact ⟨⟨hinside, hmarks⟩, hlog⟩

theorem foldl_within : ∀ (actions : List Action) {s : Session}, s.Within input →
    (actions.foldl (act input) s).Within input ∧ s.state.log <+: (actions.foldl (act input) s).state.log
  | [], _, h => ⟨h, List.prefix_rfl⟩
  | a :: actions, s, h => by
    obtain ⟨hact, hlog⟩ := act_within h a
    obtain ⟨hrun, hgrows⟩ := foldl_within actions hact
    exact ⟨hrun, hlog.trans hgrows⟩

theorem run_within (input : Input) (actions : List Action) : (run input actions).Within input := by
  have hfresh : State.Inside input {} := ⟨Nat.zero_le _, fun _ hp => absurd hp List.not_mem_nil⟩
  exact (foldl_within actions ⟨hfresh, fun _ hm => absurd hm List.not_mem_nil⟩).1

theorem run_grows (input : Input) (earlier later : List Action) :
    (run input earlier).state.log <+: (run input (earlier ++ later)).state.log := by
  rw [run, run, List.foldl_append]
  exact (foldl_within later (run_within input earlier)).2

end Session

/-! ## Diagnoses -/

/-- **A state whose diagnosis is the furthest failure of its log**: index and furthest failure are within the tokens, and
the error that it gives is at the token there, or after the last one. -/
structure State.Diagnosed (input : Input) (s : State) : Prop where
  index_le : s.index ≤ input.size
  furthest_le : s.furthest.index ≤ input.size
  tells : s.furthest.Tells s.log
  failure_eq : s.failure input =
    if h : s.furthest.index < input.tokens.size then
      .unexpectedToken s.furthest.index input.tokens[s.furthest.index].value input.tokens[s.furthest.index].line
        input.tokens[s.furthest.index].column input.tokens[s.furthest.index].range.start s.furthest.expected
    else .unexpectedEnd input.tokens.size s.furthest.expected

theorem State.Inside.diagnosed {input : Input} {s : State} (h : s.Inside input) : s.Diagnosed input := by
  obtain ⟨hindex, hlog⟩ := h
  have htells : s.furthest.Tells s.log := s.journal.furthest_tells
  have hle : s.furthest.index ≤ input.size := htells.index_eq ▸ furthestOf_le hlog
  refine ⟨hindex, hle, htells, ?_⟩
  unfold State.failure Input.read
  by_cases hlt : s.furthest.index < input.tokens.size
  · rw [dif_pos hlt]
    simp only [Array.getElem?_eq_getElem hlt]
  · have hend : s.furthest.index = input.tokens.size := Nat.le_antisymm hle (Nat.le_of_not_lt hlt)
    have hnone : input.tokens[s.furthest.index]? = none := Array.getElem?_eq_none (Nat.le_of_not_lt hlt)
    rw [dif_neg hlt]
    simp only [hnone]
    rw [hend]

theorem State.failure_index (input : Input) (s : State) : (s.failure input).index? = some s.furthest.index := by
  unfold State.failure
  dsimp only
  split <;> rfl

/-- The state in which the end of input has been expected as well. -/
theorem State.Inside.missed_end {input : Input} {t : State} (h : t.Inside input) :
    let last := t.miss (.matching .endOfInput)
    last.Diagnosed input ∧ last.log = t.log ++ [(t.index, "end of input")] ∧
      (last.failure input).index? = some (max t.furthest.index t.index) ∧
      ("end of input" ∈ last.furthest.expected ∨ t.index < t.furthest.index ∧ last.furthest = t.furthest) := by
  intro last
  have hinside : last.Inside input := ((Session.inside_lasting input []).miss ⟨h, List.nil_prefix⟩ _).1
  have hfurthest : last.furthest = t.furthest.add t.index "end of input" := Furthest.read_missed _ _ _
  refine ⟨hinside.diagnosed, State.log_miss t _, ?_, ?_⟩
  · rw [State.failure_index, hfurthest, Furthest.add_index]
  · rw [hfurthest]
    exact Furthest.mem_add _ _ _

/-- **The error of a failed parse is the furthest failure.**

Whatever was done with a fresh state, its furthest failure is the greatest index of its log with all that is logged there;
it is within the tokens, and the error that it gives is at the token there or after the last one.  What was logged once
stays logged.

A parse fails with the error of the state that its rule leaves, unless that is fatal.  If the rule has matched some of the
tokens only, the end of input has been expected after those as well, so that the error is not before that index, and names
the end of input if it is there. -/
theorem furthest_failure :
    (∀ (input : Input) (earlier later : List Action),
      (Session.run input earlier).state.Diagnosed input ∧
        (Session.run input earlier).state.log <+: (Session.run input (earlier ++ later)).state.log) ∧
    ∀ (g : Grammar) (key : RuleKey) (config : ParserConfig) (tokens : List Token),
      let input : Input := { tokens := tokens.toArray, config }
      let last := (g.run key config tokens).state
      match g.matchRule input key {} with
      | (.matched node, t) =>
        t.index = tokens.length ∧ g.parseRule key config tokens = .ok node ∨
          t.index < tokens.length ∧ g.parseRule key config tokens = .error (last.failure input) ∧
            last.Diagnosed input ∧ last.log = t.log ++ [(t.index, "end of input")] ∧
            (last.failure input).index? = some (max t.furthest.index t.index) ∧
            ("end of input" ∈ last.furthest.expected ∨ t.index < t.furthest.index ∧ last.furthest = t.furthest)
      | (.backtrack _, t) =>
        g.parseRule key config tokens = .error (last.failure input) ∧ last.Diagnosed input ∧ last = t
      | (.fatal error, _) => g.parseRule key config tokens = .error error := by
  constructor
  · intro input earlier later
    exact ⟨(Session.run_within input earlier).1.diagnosed, Session.run_grows input earlier later⟩
  · intro g key config tokens input last
    have hinside : State.Inside input (g.matchRule input key {}).2 := (Session.run_within input [.matchRule g key]).1
    have hlast : last = (g.run key config tokens).state := rfl
    unfold Grammar.parseRule
    rw [hlast]
    unfold Grammar.run
    simp only
    generalize g.matchRule input key {} = r at hinside ⊢
    rcases r with ⟨node | why | error, t⟩
    · simp only
      by_cases hend : t.index < tokens.length
      · have hnot : ¬t.atEnd input = true := by simpa [State.atEnd, Input.size, input] using hend
        rw [if_neg hnot]
        exact .inr ⟨hend, rfl, hinside.missed_end⟩
      · have hall : t.atEnd input = true := by simpa [State.atEnd, Input.size, input] using hend
        rw [if_pos hall]
        exact .inl ⟨Nat.le_antisymm hinside.1 (Nat.le_of_not_lt hend), rfl⟩
    · exact ⟨rfl, hinside.diagnosed, rfl⟩
    · rfl

/-- What is taken or gone back to after a failure does not make it any nearer. -/
example :
    let letter : String → Token := fun value => ⟨value, TokenType.identifier, 1, 0, ⟨0, 1⟩⟩
    let g : Grammar := ⟨#[⟨"pair", .sequence [.literal "a", .firstOf [.literal "c", .literal "d"]], .never⟩], 0⟩
    let input : Input := { tokens := #[letter "a", letter "b", letter "c"] }
    (Session.run input [.mark, .matchRule g 0, .pop, .restore 0, .matchRule g 0]).state.furthest =
      ⟨1, ["\"c\"", "\"d\""]⟩ := by
  decide +kernel

end LayeredParse
