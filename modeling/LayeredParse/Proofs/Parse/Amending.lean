import LayeredParse.Proofs.Parse.Explaining
import LayeredParse.Proofs.Parse.Origins
import LayeredParse.Proofs.Text.Quoting
/-!
# Amending — a token changed to what was expected

Two parses are compared, the second of which has a literal's value at index `i` where the first has another.  They go
alike until one of them gets past the index, or the first expects the literal there (`Attempt.Parallel`): a leaf at the
index that would take the literal takes the amended token.  Once a parse is past the index, whatever it does ends there
or fails further on (`Attempt.Explains`).  So if the literal is among what a parse expected where it failed, the amended
parse does not fail there again (`Grammar.parseRule_amended`).  Lookaheads have to be left out, which expect what would
not be taken, and alternations of nothing, which do not say where they fail.
-/
namespace LayeredParse

open Attempt (Arrived Explains Tried Skipped Candidate)

/-- Whether the form may expect the literal `v` where it does not take it: a lookahead, or a type of tokens that is
written like the literal. -/
def Form.isMisleading {ρ : Type} (v : String) : Form ρ → Bool
  | .next _ | .not _ => true
  | .tokenType name => name == quote v
  | _ => false

/-- Whether the form takes the literal `v` wherever it expects it. -/
def Form.Frank {ρ : Type} (v : String) (m : Form ρ) : Prop :=
  ∀ f ∈ m.subforms, f.isMisleading v = false

instance {ρ : Type} (v : String) (m : Form ρ) : Decidable (m.Frank v) :=
  inferInstanceAs (Decidable (∀ f ∈ m.subforms, f.isMisleading v = false))

namespace Grammar

def Frank (g : Grammar) (v : String) : Prop :=
  ∀ rule ∈ g.rules.toList, rule.matcher.Frank v

instance (g : Grammar) (v : String) : Decidable (g.Frank v) :=
  inferInstanceAs (Decidable (∀ rule ∈ g.rules.toList, rule.matcher.Frank v))

theorem Frank.rule {g : Grammar} {v : String} {key : RuleKey} {rule : Rule} (h : g.Frank v)
    (hr : g.rule? key = some rule) : rule.matcher.Frank v :=
  h rule (Array.mem_toList_iff.2 (Array.mem_of_getElem? hr))

end Grammar

/-- **Tokens of which the one at an index has another value in the second parse.** -/
structure Input.Amended (i : Nat) (v : String) (input input' : Input) : Prop where
  size_eq : input'.size = input.size
  before : ∀ k < i, input'.read k = input.read k
  here : ∃ token, input.read i = some token ∧ input'.read i = some { token with value := v }

/-- States at the same index, up to `i`, before the first has expected the literal there. -/
structure State.Abreast (i : Nat) (v : String) (s s' : State) : Prop where
  index_eq : s'.index = s.index
  index_le : s.index ≤ i
  unmissed : (i, quote v) ∉ s.log

variable {i : Nat} {v : String} {input input' : Input} {s s' t t' : State}

namespace State.Abreast

theorem back (hs : s.Abreast i v s') (ht : t.Abreast i v t') : (t.goTo s.index).Abreast i v (t'.goTo s'.index) :=
  ⟨hs.index_eq, hs.index_le, ht.unmissed⟩

theorem next (hs : s.Abreast i v s') (hlt : s.index < i) :
    (s.goTo (s.index + 1)).Abreast i v (s'.goTo (s'.index + 1)) :=
  ⟨congrArg (· + 1) hs.index_eq, hlt, hs.unmissed⟩

theorem miss (hs : s.Abreast i v s') {expected expected' : Expectation} (h : s.index = i → expected.text ≠ quote v) :
    (s.miss expected).Abreast i v (s'.miss expected') := by
  refine ⟨hs.index_eq, hs.index_le, ?_⟩
  rw [State.log_miss, List.mem_append, List.mem_singleton, not_or]
  exact ⟨hs.unmissed, fun heq => h (Prod.mk.inj heq).1.symm (Prod.mk.inj heq).2.symm⟩

theorem enter (hs : s.Abreast i v s') (name name' : String) : (s.enter name).Abreast i v (s'.enter name') := by
  refine ⟨hs.index_eq, hs.index_le, ?_⟩
  rw [State.log_enter]
  exact hs.unmissed

theorem leave (hs : s.Abreast i v s') (name name' : String) (matched matched' : Bool) :
    (s.leave name matched).Abreast i v (s'.leave name' matched') := by
  refine ⟨hs.index_eq, hs.index_le, ?_⟩
  rw [State.log_leave]
  exact hs.unmissed

end State.Abreast

namespace Attempt

variable {α : Type} {a b : Attempt α}

/-- **Outcomes that are alike, or of which one is past the index**. -/
inductive Parallel (i : Nat) (v : String) : Answer α × State → Answer α × State → Prop
  | matched {x x' : α} {t t' : State} (h : t.Abreast i v t') : Parallel i v (.matched x, t) (.matched x', t')
  | backtrack {why why' : Backtrack} {t t' : State} (h : t.Abreast i v t') :
      Parallel i v (.backtrack why, t) (.backtrack why', t')
  | past {r r' : Answer α × State} (h : Arrived (i + 1) r ∨ Arrived (i + 1) r') : Parallel i v r r'

/-- **Whether attempts go alike until one of them gets past the index**, and go on from there once they are. -/
structure Amends (i : Nat) (v : String) (a b : Attempt α) : Prop where
  first : Explains (i + 1) a
  second : Explains (i + 1) b
  parallel : ∀ s s', s.Abreast i v s' → Parallel i v (a s) (b s')

theorem forall₂_first {as bs : List (Attempt α)} (h : List.Forall₂ (Amends i v) as bs) :
    ∀ a ∈ as, Explains (i + 1) a :=
  List.forall₂_left_mem (h.imp fun _ _ hab => hab.first)

theorem forall₂_second {as bs : List (Attempt α)} (h : List.Forall₂ (Amends i v) as bs) :
    ∀ b ∈ bs, Explains (i + 1) b :=
  List.forall₂_left_mem (h.flip.imp fun _ _ hab => hab.second)

/-- What is done to the values that are matched makes no difference. -/
theorem Parallel.map {β : Type} {f g : α → β} {r r' : Answer α × State} (h : Parallel i v r r') :
    Parallel i v (r.1.map f, r.2) (r'.1.map g, r'.2) := by
  cases h with
  | matched h => exact .matched h
  | backtrack h => exact .backtrack h
  | past h =>
    refine .past (h.imp (fun h => ?_) (fun h => ?_))
    · rcases r with ⟨_ | _ | _, t⟩ <;> exact h
    · rcases r' with ⟨_ | _ | _, t⟩ <;> exact h

theorem atomic_parallel (hs : s.Abreast i v s') (h : Parallel i v (a s) (b s')) :
    Parallel i v (atomic a s) (atomic b s') := by
  generalize hr : a s = r at h
  generalize hr' : b s' = r' at h
  cases h with
  | matched ht =>
    rw [atomic, atomic, hr, hr']
    exact .matched ht
  | backtrack ht =>
    rw [atomic, atomic, hr, hr']
    exact .backtrack (hs.back ht)
  | past h => exact .past (h.imp (fun h => atomic_arrived (hr ▸ h)) (fun h => atomic_arrived (hr' ▸ h)))

/-! ## One after the other, and one of several -/

theorem chain_cons_eq (a : Attempt Forest) (rest : List (Attempt Forest)) (s : State) : chain (a :: rest) s =
    match a s with
    | (.matched first, t) => ((chain rest t).1.map (first ++ ·), (chain rest t).2)
    | failed => failed := by
  rw [chain]
  rcases a s with ⟨first | _ | _, t⟩
  · simp only
    rcases chain rest t with ⟨_ | _ | _, u⟩ <;> rfl
  · rfl
  · rfl

theorem chain_cons_parallel {a b : Attempt Forest} {rest rest' : List (Attempt Forest)}
    (hfirst : ∀ t, t.Reaches (i + 1) → Arrived (i + 1) (chain rest t))
    (hsecond : ∀ t, t.Reaches (i + 1) → Arrived (i + 1) (chain rest' t))
    (hrest : ∀ {t t'}, t.Abreast i v t' → Parallel i v (chain rest t) (chain rest' t'))
    (h : Parallel i v (a s) (b s')) : Parallel i v (chain (a :: rest) s) (chain (b :: rest') s') := by
  generalize hr : a s = r at h
  generalize hr' : b s' = r' at h
  cases h with
  | matched ht =>
    rw [chain_cons_eq, chain_cons_eq, hr, hr']
    exact (hrest ht).map
  | backtrack ht =>
    rw [chain_cons_eq, chain_cons_eq, hr, hr']
    exact .backtrack ht
  | past h =>
    exact .past (h.imp (fun h => chain_arrived hfirst (hr ▸ h)) (fun h => chain_arrived hsecond (hr' ▸ h)))

theorem chain_parallel {as bs : List (Attempt Forest)} (h : List.Forall₂ (Amends i v) as bs)
    (hs : s.Abreast i v s') : Parallel i v (chain as s) (chain bs s') := by
  induction h generalizing s s' with
  | nil => exact .matched hs
  | cons hab hrest ih =>
    exact chain_cons_parallel (chain_arrives (forall₂_first hrest)) (chain_arrives (forall₂_second hrest)) ih
      (hab.parallel s s' hs)

theorem firstOf_parallel {as bs : List (Attempt α)} (h : List.Forall₂ (Amends i v) as bs) (hs : s.Abreast i v s') :
    Parallel i v (firstOf as s) (firstOf bs s') := by
  induction h generalizing s s' with
  | nil => exact .backtrack hs
  | @cons a b as bs hab hrest ih =>
    have h := hab.parallel s s' hs
    generalize hr : a s = r at h
    generalize hr' : b s' = r' at h
    cases h with
    | matched ht =>
      rw [firstOf, firstOf, hr, hr']
      exact .matched ht
    | backtrack ht =>
      rw [firstOf, firstOf, hr, hr']
      exact ih ht
    | past h =>
      refine .past (h.imp (fun h => firstOf_arrived (forall₂_first hrest) (hr ▸ h)) (fun h => ?_))
      exact firstOf_arrived (forall₂_second hrest) (hr' ▸ h)

/-! ## Alternations that try everything first -/

theorem trial_backtrack {why : Backtrack} (h : a s = (.backtrack why, t)) : trial a s = (.ok none, t.goTo s.index) := by
  rw [trial, h]

/-- Best attempts so far that amend each other and reached the same index. -/
abbrev AmendsBest (i : Nat) (v : String) : Option (Attempt α × Nat) → Option (Attempt α × Nat) → Prop :=
  Option.Rel fun p q => Amends i v p.1 q.1 ∧ q.2 = p.2

theorem better_amends {best best' : Option (Attempt α × Nat)} (h : AmendsBest i v best best') (hab : Amends i v a b)
    (j : Nat) : AmendsBest i v (better best a (some j)) (better best' b (some j)) := by
  cases h with
  | none => exact .some ⟨hab, rfl⟩
  | @some p q hpq =>
    obtain ⟨p, _⟩ := p
    obtain ⟨q, far⟩ := q
    obtain ⟨hp, rfl⟩ := hpq
    unfold better
    by_cases hlt : far < j
    · simp only [if_pos hlt]
      exact .some ⟨hab, rfl⟩
    · simp only [if_neg hlt]
      exact .some ⟨hp, rfl⟩

theorem longest_parallel {as bs : List (Attempt α)} (h : List.Forall₂ (Amends i v) as bs)
    {best best' : Option (Attempt α × Nat)} (hbest : AmendsBest i v best best')
    (hcandidates : ∀ p ∈ best, Candidate (i + 1) s.index p)
    (hcandidates' : ∀ p ∈ best', Candidate (i + 1) s'.index p) (hs : s.Abreast i v s') :
    Parallel i v (make (longest as best s)) (make (longest bs best' s')) := by
  induction h generalizing best best' s s' with
  | nil =>
    cases hbest with
    | none => exact .backtrack hs
    | some hpq => exact hpq.1.parallel s s' hs
  | @cons a b as bs hab hrest ih =>
    have h := hab.parallel s s' hs
    generalize hr : a s = r at h
    generalize hr' : b s' = r' at h
    cases h with
    | @matched x x' t t' ht =>
      have htrial := trial_eq ⟨x, hr⟩
      have htrial' := trial_eq ⟨x', hr'⟩
      have hnext := better_candidate hab.first hcandidates htrial
      have hnext' := better_candidate hab.second hcandidates' htrial'
      rw [longest, longest, htrial, htrial']
      rw [ht.index_eq] at hnext' ⊢
      exact ih (better_amends hbest hab t.index) hnext hnext' (hs.back ht)
    | backtrack ht =>
      rw [longest, longest, trial_backtrack hr, trial_backtrack hr']
      exact ih hbest hcandidates hcandidates' (hs.back ht)
    | past h =>
      refine .past (h.imp (fun h => longest_tried hab.first (forall₂_first hrest) hcandidates (hr ▸ h)) (fun h => ?_))
      exact longest_tried hab.second (forall₂_second hrest) hcandidates' (hr' ▸ h)

theorem longestOne_parallel {as bs : List (Attempt α)} (h : List.Forall₂ (Amends i v) as bs) (hs : s.Abreast i v s') :
    Parallel i v (longestOne as s) (longestOne bs s') :=
  longest_parallel h .none (fun _ hp => nomatch hp) (fun _ hp => nomatch hp) hs

theorem only_parallel (tie tie' : Nat → ParseError) {as bs : List (Attempt α)} (h : List.Forall₂ (Amends i v) as bs)
    {found found' : Option (Attempt α)} (hfound : Option.Rel (Amends i v) found found') (hs : s.Abreast i v s') :
    Parallel i v (make (only tie as found s)) (make (only tie' bs found' s')) := by
  induction h generalizing found found' s s' with
  | nil =>
    cases hfound with
    | none => exact .backtrack hs
    | some hab => exact hab.parallel s s' hs
  | @cons a b as bs hab hrest ih =>
    have h := hab.parallel s s' hs
    generalize hr : a s = r at h
    generalize hr' : b s' = r' at h
    cases h with
    | @matched x x' t t' ht =>
      rw [only, only, trial_eq ⟨x, hr⟩, trial_eq ⟨x', hr'⟩]
      cases hfound with
      | none => exact ih (.some hab) (hs.back ht)
      | some _ => exact .past (.inl trivial)
    | backtrack ht =>
      rw [only, only, trial_backtrack hr, trial_backtrack hr']
      exact ih hfound (hs.back ht)
    | past h =>
      have hfirst : ∀ c ∈ found, Explains (i + 1) c := by
        rintro c ⟨⟩
        cases hfound with
        | some hcd => exact hcd.first
      have hsecond : ∀ c ∈ found', Explains (i + 1) c := by
        rintro c ⟨⟩
        cases hfound with
        | some hcd => exact hcd.second
      refine .past (h.imp (fun h => only_tried tie hab.first (forall₂_first hrest) hfirst (hr ▸ h)) (fun h => ?_))
      exact only_tried tie' hab.second (forall₂_second hrest) hsecond (hr' ▸ h)

theorem strictOr_parallel (tie tie' : Nat → ParseError) {as bs : List (Attempt α)} (h : List.Forall₂ (Amends i v) as bs)
    (hs : s.Abreast i v s') : Parallel i v (strictOr tie as s) (strictOr tie' bs s') :=
  only_parallel tie tie' h .none hs

/-! ## Options and repetitions -/

theorem optional_parallel {a b : Attempt Forest} (h : Parallel i v (a s) (b s')) :
    Parallel i v (optional a s) (optional b s') := by
  generalize hr : a s = r at h
  generalize hr' : b s' = r' at h
  cases h with
  | matched ht =>
    rw [optional, optional, hr, hr']
    exact .matched ht
  | backtrack ht =>
    rw [optional, optional, hr, hr']
    exact .matched ht
  | past h => exact .past (h.imp (fun h => optional_arrived (hr ▸ h)) (fun h => optional_arrived (hr' ▸ h)))

theorem repeated_succ_eq (a : Attempt Forest) (limit : Nat) (s : State) : repeated a (limit + 1) s =
    match a s with
    | (.matched first, t) =>
      if t.index = s.index then (.matched first, t)
      else ((repeated a limit t).1.map (first ++ ·), (repeated a limit t).2)
    | (.backtrack _, t) => (.matched [], t)
    | (.fatal error, t) => (.fatal error, t) := by
  rw [repeated]
  rcases a s with ⟨first | _ | _, t⟩
  · simp only
    split
    · rfl
    · rcases repeated a limit t with ⟨_ | _ | _, u⟩ <;> rfl
  · rfl
  · rfl

theorem repeated_parallel {a b : Attempt Forest} (hab : Amends i v a b) : ∀ (limit : Nat) {s s'}, s.Abreast i v s' →
    Parallel i v (repeated a limit s) (repeated b limit s')
  | 0, _, _, hs => .matched hs
  | limit + 1, s, s', hs => by
    have h := hab.parallel s s' hs
    generalize hr : a s = r at h
    generalize hr' : b s' = r' at h
    cases h with
    | @matched x x' t t' ht =>
      rw [repeated_succ_eq, repeated_succ_eq, hr, hr']
      simp only [ht.index_eq, hs.index_eq]
      split
      · exact .matched ht
      · exact (repeated_parallel hab limit ht).map
    | backtrack ht =>
      rw [repeated_succ_eq, repeated_succ_eq, hr, hr']
      exact .matched ht
    | past h =>
      refine .past (h.imp (fun h => repeated_arrived (repeated_arrives hab.first limit) (hr ▸ h)) (fun h => ?_))
      exact repeated_arrived (repeated_arrives hab.second limit) (hr' ▸ h)

theorem repeatedFrom_parallel (hsize : input'.size = input.size) {a b : Attempt Forest} (hab : Amends i v a b)
    (hs : s.Abreast i v s') : Parallel i v (repeatedFrom input a s) (repeatedFrom input' b s') := by
  rw [repeatedFrom, repeatedFrom, hsize, hs.index_eq]
  exact repeated_parallel hab _ hs

theorem oneOrMore_parallel (hsize : input'.size = input.size) {a b : Attempt Forest} (hab : Amends i v a b)
    (hs : s.Abreast i v s') : Parallel i v (oneOrMore input a s) (oneOrMore input' b s') := by
  have more : ∀ {input : Input} {c : Attempt Forest}, Explains (i + 1) c → ∀ t, t.Reaches (i + 1) →
      Arrived (i + 1) (chain [repeatedFrom input c] t) :=
    fun hc t ht => chain_arrived (fun _ hu => hu) (repeated_arrives hc _ t ht)
  have hmore : ∀ {t t'}, t.Abreast i v t' →
      Parallel i v (chain [repeatedFrom input a] t) (chain [repeatedFrom input' b] t') := fun ht =>
    chain_cons_parallel (fun _ hu => hu) (fun _ hu => hu) .matched (repeatedFrom_parallel hsize hab ht)
  exact atomic_parallel hs (chain_cons_parallel (more hab.first) (more hab.second) hmore (hab.parallel s s' hs))

/-! ## Leaves and what is made of them -/

/-- A leaf that would take the literal takes the amended token. -/
theorem leaf_parallel (hin : Input.Amended i v input input') {m : Matcher} {accepts : Token → Bool}
    (hm : ∀ token : Token, token.value = v → m.render = quote v → accepts token = true) (hs : s.Abreast i v s') :
    Parallel i v (leaf input m accepts s) (leaf input' m accepts s') := by
  unfold leaf
  rw [hs.index_eq]
  rcases Nat.lt_or_eq_of_le hs.index_le with hlt | heq
  · rw [hin.before s.index hlt]
    have hmiss : ∀ {e e'}, (s.miss e).Abreast i v (s'.miss e') := hs.miss fun heq => absurd heq (Nat.ne_of_lt hlt)
    split
    · split
      · exact .matched (hs.index_eq ▸ hs.next hlt)
      · exact .backtrack hmiss
    · exact .backtrack hmiss
  · subst heq
    obtain ⟨token, htoken, htoken'⟩ := hin.here
    rw [htoken, htoken']
    simp only
    split
    · exact .past (.inl (.inl (Nat.le_refl _)))
    · split
      · exact .past (.inr (.inl (Nat.le_refl _)))
      · rename_i hrejected
        have htext : m.render ≠ quote v := fun htext => hrejected (hm _ rfl htext)
        exact .backtrack (hs.miss fun _ => htext)

theorem endOfInput_parallel (hin : Input.Amended i v input input') (hs : s.Abreast i v s') :
    Parallel i v (endOfInput input s) (endOfInput input' s') := by
  obtain ⟨token, htoken, -⟩ := hin.here
  have hinside : i < input.size := (Array.getElem?_eq_some_iff.1 htoken).1
  have hend : s.atEnd input = false := decide_eq_false (Nat.not_le_of_lt (Nat.lt_of_le_of_lt hs.index_le hinside))
  have hend' : s'.atEnd input' = false := by
    rw [← hend, State.atEnd, State.atEnd, hin.size_eq, hs.index_eq]
  rw [endOfInput, endOfInput, hend, hend']
  exact .backtrack (hs.miss fun _ => ne_quote (by decide) v)

theorem wrapped_parallel (name : String) {a b : Attempt Forest} (h : Parallel i v (a s) (b s')) :
    Parallel i v (wrapped name a s) (wrapped name b s') := by
  generalize hr : a s = r at h
  generalize hr' : b s' = r' at h
  cases h with
  | matched ht =>
    rw [wrapped, wrapped, hr, hr']
    exact .matched ht
  | backtrack ht =>
    rw [wrapped, wrapped, hr, hr']
    exact .backtrack ht
  | past h =>
    exact .past (h.imp (fun h => wrapped_arrived name (hr ▸ h)) (fun h => wrapped_arrived name (hr' ▸ h)))

theorem previous_eq (hin : Input.Amended i v input input') (hs : s.Abreast i v s') :
    s'.previous input' = s.previous input := by
  have hle := hs.index_le
  rw [State.previous, State.previous, hs.index_eq]
  generalize s.index = index at hle
  cases index with
  | zero => rfl
  | succ index => exact hin.before index hle

/-- Where the next token is has not changed. -/
theorem next_place (hin : Input.Amended i v input input') (hs : s.Abreast i v s') :
    (input.read s.index = none ∧ input'.read s'.index = none) ∨
    ∃ token token', input.read s.index = some token ∧ input'.read s'.index = some token' ∧
      ∀ p, touches p token' = touches p token := by
  rw [hs.index_eq]
  rcases Nat.lt_or_eq_of_le hs.index_le with hlt | heq
  · rw [hin.before s.index hlt]
    cases input.read s.index with
    | none => exact .inl ⟨rfl, rfl⟩
    | some token => exact .inr ⟨token, token, rfl, rfl, fun _ => rfl⟩
  · obtain ⟨token, htoken, htoken'⟩ := hin.here
    rw [heq]
    exact .inr ⟨token, _, htoken, htoken', fun _ => rfl⟩

theorem adjacent_parallel (hin : Input.Amended i v input input') (m : Matcher) {a b : Attempt Forest}
    (hab : Amends i v a b) (hs : s.Abreast i v s') :
    Parallel i v (adjacent input m a s) (adjacent input' m b s') := by
  have hmiss : (s.miss (.matching (.adjacent m))).Abreast i v (s'.miss (.matching (.adjacent m))) :=
    hs.miss fun _ => ne_quote (by simp [Expectation.text, Matcher.render, Form.renderWith]) v
  unfold adjacent
  rw [previous_eq hin hs]
  rcases next_place hin hs with ⟨hnone, hnone'⟩ | ⟨token, token', htoken, htoken', htouches⟩
  · rw [hnone, hnone']
    cases s.previous input <;> exact .backtrack hmiss
  · rw [htoken, htoken']
    cases s.previous input with
    | none => exact .backtrack hmiss
    | some p =>
      simp only [htouches]
      split
      · exact wrapped_parallel _ (hab.parallel s s' hs)
      · exact .backtrack hmiss

/-- What skipping leaves in two parses: states that are alike, or of which one is past the index after the attempt that
it stopped for. -/
inductive Skim (i : Nat) (v : String) (a b : Attempt Forest) : Answer Unit × State → Answer Unit × State → Prop
  | matched {t t' : State} (h : t.Abreast i v t') : Skim i v a b (.matched (), t) (.matched (), t')
  | backtrack {why why' : Backtrack} {t t' : State} (h : t.Abreast i v t') :
      Skim i v a b (.backtrack why, t) (.backtrack why', t')
  | past {r r' : Answer Unit × State} (h : Skipped (i + 1) a r ∨ Skipped (i + 1) b r') : Skim i v a b r r'

theorem skipTo_skim {a b : Attempt Forest} (hab : Amends i v a b) : ∀ (left : Nat) {s s'}, s.Abreast i v s' →
    Skim i v a b (skipTo a left s) (skipTo b left s')
  | left, s, s', hs => by
    have h := hab.parallel s s' hs
    generalize hr : a s = r at h
    generalize hr' : b s' = r' at h
    cases h with
    | @matched x x' t t' ht =>
      rw [skipTo, skipTo, trial_eq ⟨x, hr⟩, trial_eq ⟨x', hr'⟩]
      exact .matched (hs.back ht)
    | backtrack ht =>
      rw [skipTo, skipTo, trial_backtrack hr, trial_backtrack hr']
      cases left with
      | zero => exact .backtrack (hs.back ht)
      | succ left =>
        rcases Nat.lt_or_eq_of_le hs.index_le with hlt | heq
        · exact skipTo_skim hab left ((hs.back ht).next hlt)
        · refine .past (.inl (skipTo_arrived hab.first left (hab.first.arrives _ (.inl ?_))))
          exact Nat.le_of_eq (congrArg (· + 1) heq.symm)
    | past h =>
      refine .past (h.imp (fun h => skipTo_arrived hab.first left (hr ▸ h)) (fun h => ?_))
      exact skipTo_arrived hab.second left (hr' ▸ h)

theorem till_parallel (hsize : input'.size = input.size) {a b : Attempt Forest} (hab : Amends i v a b)
    (hs : s.Abreast i v s') : Parallel i v (till input a s) (till input' b s') := by
  have h := skipTo_skim hab (input.size - s.index) hs
  have hleft : input'.size - s'.index = input.size - s.index := by rw [hsize, hs.index_eq]
  generalize hr : skipTo a (input.size - s.index) s = r at h
  generalize hr' : skipTo b (input.size - s.index) s' = r' at h
  cases h with
  | matched ht =>
    refine wrapped_parallel _ (atomic_parallel hs ?_)
    rw [chain_cons_eq, chain_cons_eq, skippedWords, skippedWords, hleft, hr, hr']
    exact (chain_parallel (.cons hab .nil) ht).map
  | backtrack ht =>
    refine wrapped_parallel _ (atomic_parallel hs ?_)
    rw [chain_cons_eq, chain_cons_eq, skippedWords, skippedWords, hleft, hr, hr']
    exact .backtrack ht
  | past h =>
    refine .past (h.imp (fun h => till_arrived (hr ▸ h)) (fun h => till_arrived ?_))
    rw [hleft, hr']
    exact h

theorem spliced_parallel {a b : Attempt Node} (h : Parallel i v (a s) (b s')) :
    Parallel i v (spliced a s) (spliced b s') :=
  h.map

theorem around_parallel (rule : Rule) {a b : Attempt Forest}
    (h : Parallel i v (a (s.enter rule.name)) (b (s'.enter rule.name))) :
    Parallel i v (rule.around a s) (rule.around b s') := by
  generalize hr : a (s.enter rule.name) = r at h
  generalize hr' : b (s'.enter rule.name) = r' at h
  cases h with
  | matched ht =>
    rw [Rule.around, Rule.around, hr, hr']
    exact .matched (ht.leave _ _ _ _)
  | backtrack ht =>
    rw [Rule.around, Rule.around, hr, hr']
    exact .backtrack (ht.leave _ _ _ _)
  | past h =>
    exact .past (h.imp (fun h => around_arrived rule (hr ▸ h)) (fun h => around_arrived rule (hr' ▸ h)))

end Attempt

/-! ## Matchers and rules -/

namespace Grammar

open Attempt (Amends Parallel)

variable {g : Grammar} {key : RuleKey}

theorem amends_of_parallel (hg : g.Offers) {room : Nat} {m : Matcher} (hm : m.Offers)
    (h : ∀ s s', s.Abreast i v s' →
      Parallel i v (m.attempt input (g.enter input room) s) (m.attempt input' (g.enter input' room) s')) :
    Amends i v (m.attempt input (g.enter input room)) (m.attempt input' (g.enter input' room)) :=
  ⟨attempt_explains hg input _ room hm, attempt_explains hg input' _ room hm, h⟩

theorem forall₂_attempts {ms : List Matcher} {call call' : RuleKey → Attempt Node}
    (h : ∀ m ∈ ms, Amends i v (m.attempt input call) (m.attempt input' call')) :
    List.Forall₂ (Amends i v) (Matcher.attempts input call ms) (Matcher.attempts input' call' ms) := by
  rw [Matcher.attempts_eq_map, Matcher.attempts_eq_map, List.forall₂_map_left_iff, List.forall₂_map_right_iff]
  exact List.forall₂_same.2 h

/-- **Whatever a matcher of the grammar attempts in two parses goes alike until one gets past the index.** -/
theorem attempt_amends (hg : g.Offers) (hf : g.Frank v) (hin : Input.Amended i v input input') : ∀ (room : Nat)
    {m : Matcher}, m.Offers → m.Frank v →
      Amends i v (m.attempt input (g.enter input room)) (m.attempt input' (g.enter input' room))
  | room, m, hm, hmf => by
    induction m using Form.items_induction with
    | made m ih =>
    have hitems : ∀ c ∈ m.items,
        Amends i v (Matcher.attempt input (g.enter input room) c) (Matcher.attempt input' (g.enter input' room) c) :=
      fun c hc => ih c hc (Form.forall_mem_item hm hc) (Form.forall_mem_item hmf hc)
    have hself : m.isMisleading v = false := hmf m (Form.mem_subforms_self m)
    refine amends_of_parallel hg hm fun s s' hs => ?_
    cases m with
    | sequence items => exact Attempt.atomic_parallel hs (Attempt.chain_parallel (forall₂_attempts hitems) hs)
    | firstOf alternatives => exact Attempt.firstOf_parallel (forall₂_attempts hitems) hs
    | longestOne alternatives => exact Attempt.longestOne_parallel (forall₂_attempts hitems) hs
    | strictOr alternatives => exact Attempt.strictOr_parallel _ _ (forall₂_attempts hitems) hs
    | optional item => exact Attempt.optional_parallel ((hitems item List.mem_cons_self).parallel s s' hs)
    | zeroOrMore item =>
      exact Attempt.atomic_parallel hs (Attempt.repeatedFrom_parallel hin.size_eq (hitems item List.mem_cons_self) hs)
    | oneOrMore item => exact Attempt.oneOrMore_parallel hin.size_eq (hitems item List.mem_cons_self) hs
    | next item => cases hself
    | not item => cases hself
    | adjacent item => exact Attempt.adjacent_parallel hin item (hitems item List.mem_cons_self) hs
    | till terminator => exact Attempt.till_parallel hin.size_eq (hitems terminator List.mem_cons_self) hs
    | literal value =>
      refine Attempt.leaf_parallel hin (fun token hv htext => ?_) hs
      have hvalue : value = v := quote_injective htext
      exact beq_iff_eq.2 (hv.trans hvalue.symm)
    | regex pattern =>
      have hrender : Matcher.render (.regex pattern) ≠ quote v := ne_quote (by simp [Matcher.render, Form.renderWith]) v
      exact Attempt.leaf_parallel hin (fun _ _ htext => absurd htext hrender) hs
    | tokenType name =>
      have hname : name ≠ quote v := ne_of_beq_false hself
      exact Attempt.leaf_parallel hin (fun _ _ htext => absurd htext hname) hs
    | anyToken => exact Attempt.leaf_parallel hin (fun _ _ _ => rfl) hs
    | endOfInput => exact Attempt.endOfInput_parallel hin hs
    | rule key =>
      refine Attempt.spliced_parallel ?_
      cases hr : g.rule? key with
      | none =>
        rw [enter_foreign hr, enter_foreign hr]
        exact .past (.inl trivial)
      | some rule =>
        cases room with
        | zero =>
          rw [enter_zero hr, enter_zero hr]
          exact .past (.inl trivial)
        | succ room =>
          rw [enter_succ hr, enter_succ hr]
          exact Attempt.around_parallel rule
            ((attempt_amends hg hf hin room (hg.rule hr) (hf.rule hr)).parallel _ _ (hs.enter _ _))

/-- The tokens with another value for the one at an index. -/
def amended (tokens : List Token) (i : Nat) (v : String) : List Token :=
  tokens.modify i fun token => { token with value := v }

theorem amended_input {tokens : List Token} {token : Token} (htoken : tokens[i]? = some token) (v : String)
    (config : ParserConfig) :
    Input.Amended i v { tokens := tokens.toArray, config } { tokens := (amended tokens i v).toArray, config } where
  size_eq := List.length_modify ..
  before k hk := by
    show (amended tokens i v).toArray[k]? = tokens.toArray[k]?
    rw [List.getElem?_toArray, List.getElem?_toArray, amended, List.getElem?_modify]
    simp only [if_neg (Nat.ne_of_gt hk)]
    exact Option.map_id'
  here := by
    refine ⟨token, (List.getElem?_toArray ..).trans htoken, (List.getElem?_toArray ..).trans ?_⟩
    rw [amended, List.getElem?_modify_eq, htoken]
    rfl

/-- What is expected in vain at the furthest failure has been logged there. -/
theorem expected_mem_log {s : State} {text found : String} {line column offset : Nat} {expected : List String}
    (h : s.failure input = .unexpectedToken i found line column offset expected) (htext : text ∈ expected) :
    (i, text) ∈ s.log := by
  have hindex := s.failure_index input
  have hexpected := s.failure_expected? input
  rw [h] at hindex hexpected
  obtain rfl : i = s.furthest.index := Option.some.inj hindex
  have htells : s.furthest.Tells s.log := s.journal.furthest_tells
  rwa [show expected = s.furthest.expected from Option.some.inj hexpected, htells.expected_eq, mem_expectedAt] at htext

/-- A literal that a failed parse expected has been expected by its rule already. -/
theorem parseRule_logged {config : ParserConfig} {tokens : List Token} {found : String} {line column offset : Nat}
    {expected : List String}
    (h : g.parseRule key config tokens = .error (.unexpectedToken i found line column offset expected))
    (hv : quote v ∈ expected) :
    (i, quote v) ∈ (g.attemptAt { tokens := tokens.toArray, config } (.rule key) {}).2.log := by
  rcases parseRule_error_cases h with ⟨ns, t, hmatch, he⟩ | ⟨why, t, hmatch, he⟩ | ⟨t, hmatch⟩
  · have hlog := expected_mem_log he.symm hv
    rw [State.log_miss, List.mem_append, List.mem_singleton] at hlog
    rw [hmatch]
    exact hlog.resolve_right fun heq => ne_quote (by decide) v (Prod.mk.inj heq).2.symm
  · rw [hmatch]
    exact expected_mem_log he.symm hv
  · obtain ⟨m, u, -, hraises⟩ := exists_raises (Attempt.fails_iff.2 ⟨t, hmatch, rfl⟩)
    exact absurd rfl hraises.ne_unexpected

/-- **What a parse expected gets the parse past the token it failed at.**  In a grammar without lookaheads, in which
every alternation has an alternative and no type of tokens is written like the literal, if a parse fails at a token and
expected the literal there, then the parse of the tokens with the literal's value in that place, if it fails, does so
further on or for good. -/
theorem parseRule_amended (hg : g.Offers) (hf : g.Frank v) {config : ParserConfig} {tokens : List Token}
    {found : String} {line column offset : Nat} {expected : List String}
    (h : g.parseRule key config tokens = .error (.unexpectedToken i found line column offset expected))
    (hv : quote v ∈ expected) {e : ParseError} (h' : g.parseRule key config (amended tokens i v) = .error e) :
    e.expected? = none ∨ ∃ index, e.index? = some index ∧ i < index := by
  obtain ⟨token, htoken, -⟩ := parseRule_unexpected h
  have hin := amended_input htoken v config
  have hlogged := parseRule_logged h hv
  have hpast : ¬Arrived (i + 1) (g.attemptAt { tokens := tokens.toArray, config } (.rule key) {}) := by
    intro harrived
    rcases parseRule_arrived h harrived with hnone | ⟨s, hs, hfailure⟩
    · cases hnone
    · have hindex := s.failure_index { tokens := tokens.toArray, config }
      rw [← hfailure] at hindex
      have heq : i = s.furthest.index := Option.some.inj hindex
      exact Nat.not_le_of_lt (Nat.lt_succ_self i) (heq ▸ (State.explained_iff.1 hs).1)
  have hparallel : Parallel i v (g.attemptAt { tokens := tokens.toArray, config } (.rule key) {})
      (g.attemptAt { tokens := (amended tokens i v).toArray, config } (.rule key) {}) := by
    have hrule : (Form.rule key : Matcher).Frank v := List.forall_mem_singleton.2 rfl
    rw [attemptAt_eq, attemptAt_eq]
    exact (attempt_amends hg hf hin _ (offers_rule key) hrule).parallel {} {} ⟨rfl, Nat.zero_le i, List.not_mem_nil⟩
  have harrived : Arrived (i + 1) (g.attemptAt { tokens := (amended tokens i v).toArray, config } (.rule key) {}) := by
    generalize g.attemptAt { tokens := tokens.toArray, config } (.rule key) {} = r at hparallel hlogged hpast
    generalize g.attemptAt { tokens := (amended tokens i v).toArray, config } (.rule key) {} = r' at hparallel ⊢
    cases hparallel with
    | matched ht => exact absurd hlogged ht.unmissed
    | backtrack ht => exact absurd hlogged ht.unmissed
    | past h => exact h.resolve_left hpast
  rcases parseRule_arrived h' harrived with hnone | ⟨s, hs, rfl⟩
  · exact .inl hnone
  · exact .inr ⟨_, s.failure_index _, (State.explained_iff.1 hs).1⟩

/-- A pair that fails at its second token gets past it with either letter that was expected there. -/
theorem parseRule_amended_pair : ∃ (g : Grammar) (tokens : List Token) (error error' : ParseError) (index : Nat),
    g.Offers ∧ g.Frank "x" ∧ g.parseRule 0 {} tokens = .error error ∧ error.index? = some 1 ∧
      error.expected? = some [quote "x", quote "y"] ∧ g.parseRule 0 {} (amended tokens 1 "x") = .error error' ∧
      error'.expected? = some ["end of input"] ∧ error'.index? = some index ∧ 1 < index := by
  let letter : String → Token := fun value => ⟨value, TokenType.identifier, 1, 0, ⟨0, 1⟩⟩
  let tokens := [letter "b", letter "z", letter "q"]
  let pair : Matcher := .sequence [.literal "b", .longestOne [.literal "x", .literal "y"]]
  let g : Grammar := ⟨#[⟨"pair", .firstOf [.literal "a", pair], .never⟩], 0⟩
  have hg : g.Offers := by decide
  have hf : g.Frank "x" := by decide +kernel
  have h : g.parseRule 0 {} tokens = .error (.unexpectedToken 1 "z" 1 0 0 [quote "x", quote "y"]) := rfl
  have h' : g.parseRule 0 {} (amended tokens 1 "x") = .error (.unexpectedToken 2 "q" 1 0 0 ["end of input"]) := rfl
  obtain hnone | ⟨index, hindex, hlt⟩ := parseRule_amended hg hf h List.mem_cons_self h'
  · cases hnone
  · exact ⟨g, tokens, _, _, index, hg, hf, h, rfl, rfl, h', rfl, hindex, hlt⟩

end Grammar
end LayeredParse
