import LayeredParse.Proofs.Grammar.LeftCalls
import LayeredParse.Proofs.Peg.Outcomes
/-!
# Idle — matches that take no token

An attempt is idle if from some state it matches where it is (`Attempt.Idle`).  What a combinator makes can be idle only
if the attempts that it is made of can, as many of them as the form of the matcher tells.  So a matcher that ever matches
without taking a token may do so as far as its form tells (`Grammar.nullable_of_idle`).
-/
namespace LayeredParse

open Outcome (success failure)

namespace Attempt

variable {α : Type} {input : Input} {a : Attempt Forest} {as : List (Attempt Forest)}

/-- Whether the attempt may match without taking a token. -/
def Idle (a : Attempt α) : Prop :=
  ∃ s, outcome (a s) = .ok (success s.index)

theorem idle_atomic {a : Attempt α} : Idle (atomic a) → Idle a := by
  rintro ⟨s, h⟩
  rw [outcome_atomic] at h
  exact ⟨s, h⟩

theorem idle_chain : ∀ {as : List (Attempt Forest)}, (∀ a ∈ as, Advances input a) → Idle (chain as) → ∀ a ∈ as, Idle a
  | [], _, _, _, hb => nomatch hb
  | a :: rest, h, ⟨s, hs⟩, b, hb => by
    have ha := h a List.mem_cons_self s
    have hrest := chain_advances rest (fun c hc => h c (List.mem_cons_of_mem a hc))
    rw [outcome_chain_cons] at hs
    rcases hr : a s with ⟨first | _ | _, t⟩ <;> rw [hr] at hs ha
    · obtain ⟨others, u, hu, hi⟩ := outcome_success hs
      have hend := hrest t
      rw [hu] at hend
      -- what the first attempt takes, the others do not give back
      have hstay : t.index = s.index := Nat.le_antisymm (hi ▸ hend.2.1) ha.2.1
      rcases List.mem_cons.1 hb with rfl | hb
      · exact ⟨s, by rw [hr, outcome, hstay]⟩
      · exact idle_chain (fun c hc => h c (List.mem_cons_of_mem a hc)) ⟨t, hstay ▸ hs⟩ b hb
    · cases hs
    · cases hs

theorem idle_firstOf : ∀ {as : List (Attempt Forest)}, (∀ a ∈ as, Balanced input a) → Idle (firstOf as) → ∃ a ∈ as, Idle a
  | [], _, ⟨_, hs⟩ => by cases hs
  | a :: rest, h, ⟨s, hs⟩ => by
    have ha := h a List.mem_cons_self s
    rw [outcome_firstOf_cons] at hs
    rcases hr : a s with ⟨v | _ | _, t⟩ <;> rw [hr] at hs ha
    · exact ⟨a, List.mem_cons_self, s, by rw [hr]; exact hs⟩
    · have hidle : Idle (firstOf rest) := ⟨t, ha.2 ▸ hs⟩
      obtain ⟨b, hb, hbidle⟩ := idle_firstOf (fun c hc => h c (List.mem_cons_of_mem a hc)) hidle
      exact ⟨b, List.mem_cons_of_mem a hb, hbidle⟩
    · cases hs

theorem idle_make {s : State} {r : Except ParseError (Option (Attempt Forest)) × State} (hr : Chosen as s r)
    (h : outcome (make r) = .ok (success s.index)) : ∃ a ∈ as, Idle a := by
  obtain ⟨⟨-, hi⟩, hm⟩ := hr
  rcases r with ⟨error | _ | a, t⟩
  · cases h
  · cases h
  · refine ⟨a, hm a rfl, t, ?_⟩
    rw [hi]
    exact h

theorem idle_longestOne (h : ∀ a ∈ as, Balanced input a) : Idle (longestOne as) → ∃ a ∈ as, Idle a := by
  rintro ⟨s, hs⟩
  exact idle_make (longest_chosen as as none s h (fun _ ha => ha) (fun _ hp => nomatch hp)) hs

theorem idle_strictOr (tie : Nat → ParseError) (h : ∀ a ∈ as, Balanced input a) :
    Idle (strictOr tie as) → ∃ a ∈ as, Idle a := by
  rintro ⟨s, hs⟩
  exact idle_make (only_chosen tie as as none s h (fun _ ha => ha) (fun _ ha => nomatch ha)) hs

theorem idle_pair {b : Attempt Forest} (ha : Advances input a) (hb : Advances input b) (h : Idle (sequence [a, b])) :
    Idle a ∧ Idle b := by
  have hpair : ∀ c ∈ [a, b], Advances input c := List.forall_mem_cons.2 ⟨ha, List.forall_mem_singleton.2 hb⟩
  obtain ⟨hfirst, hsecond⟩ := List.forall_mem_cons.1 (idle_chain hpair (idle_atomic h))
  exact ⟨hfirst, List.forall_mem_singleton.1 hsecond⟩

theorem idle_oneOrMore (h : Balanced input a) (hidle : Idle (oneOrMore input a)) : Idle a :=
  (idle_pair h.advances (repeatedFrom_advances h) hidle).1

theorem idle_leaf (m : Matcher) (accepts : Token → Bool) : ¬Idle (leaf input m accepts) := by
  rintro ⟨s, hs⟩
  unfold leaf at hs
  split at hs
  · split at hs
    · exact absurd (Outcome.success.inj (Except.ok.inj hs)) (Nat.succ_ne_self s.index)
    · cases hs
  · cases hs

theorem outcome_wrapped (name : String) (s : State) : outcome (wrapped name a s) = outcome (a s) := by
  unfold wrapped
  generalize a s = r
  rcases r with ⟨_ | _ | _, t⟩ <;> rfl

theorem idle_adjacent (m : Matcher) : Idle (adjacent input m a) → Idle a := by
  rintro ⟨s, hs⟩
  unfold adjacent at hs
  split at hs
  · split at hs
    · rw [outcome_wrapped] at hs
      exact ⟨s, hs⟩
    · cases hs
  · cases hs
  · cases hs

theorem idle_till (h : Balanced input a) : Idle (till input a) → Idle a := by
  rintro ⟨s, hs⟩
  unfold till at hs
  rw [outcome_wrapped] at hs
  exact (idle_pair (skippedWords_advances h.advances) h.advances ⟨s, hs⟩).2

theorem idle_around (rule : Rule) : Idle (.spliced (rule.around a)) → Idle a := by
  rintro ⟨s, hs⟩
  rw [outcome_spliced, outcome_around] at hs
  exact ⟨s.enter rule.name, hs⟩

end Attempt

namespace Grammar

open Attempt

variable {g : Grammar} {input : Input} {room : Nat} {ms : List Matcher}

theorem attempts_balanced (g : Grammar) (input : Input) (room : Nat) (ms : List Matcher) :
    ∀ a ∈ Matcher.attempts input (g.enter input room) ms, Balanced input a := by
  rw [Matcher.attempts_eq_map]
  exact List.forall_mem_map.2 (fun m _ => g.attempt_balanced input room m)

theorem exists_nullable (h : ∀ m ∈ ms, Idle (m.attempt input (g.enter input room)) → g.Nullable m)
    (hidle : ∃ a ∈ Matcher.attempts input (g.enter input room) ms, Idle a) : ∃ m ∈ ms, g.Nullable m := by
  obtain ⟨a, ha, hidle⟩ := hidle
  rw [Matcher.attempts_eq_map] at ha
  obtain ⟨m, hm, rfl⟩ := List.mem_map.1 ha
  exact ⟨m, hm, h m hm hidle⟩

theorem nullable_of_calls (hcall : ∀ key, Idle (.spliced (g.enter input room key)) → g.Nullable (.rule key)) (m : Matcher)
    (hidle : Idle (m.attempt input (g.enter input room))) : g.Nullable m := by
  induction m using Form.parts_induction with
  | sequence items ih =>
    have advances := fun a ha => (attempts_balanced g input room items a ha).advances
    have each := idle_chain advances (idle_atomic hidle)
    rw [Matcher.attempts_eq_map, List.forall_mem_map] at each
    exact .sequence (fun m hm => ih m hm (each m hm))
  | firstOf alternatives ih =>
    obtain ⟨m, hm, hnull⟩ := exists_nullable ih (idle_firstOf (attempts_balanced g input room alternatives) hidle)
    exact .firstOf hm hnull
  | longestOne alternatives ih =>
    obtain ⟨m, hm, hnull⟩ := exists_nullable ih (idle_longestOne (attempts_balanced g input room alternatives) hidle)
    exact .longestOne hm hnull
  | strictOr alternatives ih =>
    obtain ⟨m, hm, hnull⟩ := exists_nullable ih (idle_strictOr _ (attempts_balanced g input room alternatives) hidle)
    exact .strictOr hm hnull
  | optional item => exact .optional item
  | zeroOrMore item => exact .zeroOrMore item
  | oneOrMore item ih => exact .oneOrMore (ih (idle_oneOrMore (g.attempt_balanced input room item) hidle))
  | next item => exact .next item
  | not item => exact .not item
  | adjacent item ih => exact .adjacent (ih (idle_adjacent item hidle))
  | till terminator ih => exact .till (ih (idle_till (g.attempt_balanced input room terminator) hidle))
  | literal value => exact absurd hidle (idle_leaf _ _)
  | regex pattern => exact absurd hidle (idle_leaf _ _)
  | tokenType name => exact absurd hidle (idle_leaf _ _)
  | anyToken => exact absurd hidle (idle_leaf _ _)
  | endOfInput => exact .endOfInput
  | rule key => exact hcall key hidle

/-- **A matcher that ever matches without taking a token may do so as far as its form tells.** -/
theorem nullable_of_idle (g : Grammar) (input : Input) : ∀ (room : Nat) (m : Matcher),
    Idle (m.attempt input (g.enter input room)) → g.Nullable m
  | room, m => by
    refine nullable_of_calls (fun key hidle => ?_) m
    cases hr : g.rule? key with
    | none =>
      rw [enter_foreign hr] at hidle
      obtain ⟨s, hs⟩ := hidle
      cases hs
    | some rule =>
      cases room with
      | zero =>
        rw [enter_zero hr] at hidle
        obtain ⟨s, hs⟩ := hidle
        cases hs
      | succ room =>
        rw [enter_succ hr] at hidle
        exact .rule hr (nullable_of_idle g input room rule.matcher (idle_around rule hidle))

end Grammar
end LayeredParse
