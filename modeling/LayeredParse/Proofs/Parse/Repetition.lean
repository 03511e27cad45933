import LayeredParse.Proofs.Peg.Outcomes
/-!
# Repetition — a repetition takes the maximal run and stops

From any index there is just one run of matches that take tokens, up to an index from which there is no such match
(`Grammar.Runs`, `exists_runs`).  A repetition follows it and stops with the attempt at its end, whatever comes of that
(`Runs.repeated`).  How often it makes its attempt, and where, is seen by running it with an attempt that does the same
and notes in the journal nothing but where it is made (`Attempt.noted`, `Attempt.madeAt`).
-/
namespace LayeredParse

/-- The indices of the rule entries in a journal, in order. -/
def Journal.entrances (j : Journal) : List Nat :=
  j.entries.reverse.filterMap fun
    | .entered _ index => some index
    | .missed .. | .left .. => none

theorem Journal.entrances_record (j : Journal) (name : String) (index : Nat) :
    (j.record (.entered name index)).entrances = j.entrances ++ [index] := by
  simp [entrances, record]

theorem Answer.map_id {α : Type} (answer : Answer α) : answer.map (fun value => value) = answer := by
  cases answer <;> rfl

theorem Answer.map_map {α β γ : Type} (f : α → β) (h : β → γ) (answer : Answer α) :
    (answer.map f).map h = answer.map fun value => h (f value) := by
  cases answer <;> rfl

namespace Attempt

variable {α : Type} {input : Input} {a : Attempt α} {b c : Attempt Forest} {s t u : State} {ns : Forest}

/-- The attempt, but the journal tells nothing of what happens during it except where it is made. -/
def noted (a : Attempt α) : Attempt α := fun s =>
  match a s with
  | (answer, t) => (answer, { t with journal := s.journal.record (.entered "" s.index) })

/-- **Where an attempt is made when something is made of it**, from a state on: what the attempt has noted in the end, in
order. -/
def madeAt (combinator : Attempt Forest → Attempt Forest) (b : Attempt Forest) (s : State) : List Nat :=
  (combinator (noted b) { s with journal := {} }).2.journal.entrances

theorem entrances_noted (a : Attempt α) (s : State) :
    (noted a s).2.journal.entrances = s.journal.entrances ++ [s.index] :=
  Journal.entrances_record s.journal "" s.index

theorem atomic_fst (a : Attempt α) (s : State) : (atomic a s).1 = (a s).1 := by
  unfold atomic
  generalize a s = r
  rcases r with ⟨_ | _ | _, t⟩ <;> rfl

theorem atomic_journal (a : Attempt α) (s : State) : (atomic a s).2.journal = (a s).2.journal := by
  unfold atomic
  generalize a s = r
  rcases r with ⟨_ | _ | _, t⟩ <;> rfl

/-- The index is back where it was exactly if there is no match. -/
theorem atomic_index (a : Attempt α) (s : State) :
    (atomic a s).2.index = if (a s).1.isMatch then (a s).2.index else s.index := by
  unfold atomic
  generalize a s = r
  rcases r with ⟨_ | _ | _, t⟩ <;> rfl

theorem optional_state (a : Attempt Forest) (s : State) : (optional a s).2 = (a s).2 := by
  unfold optional
  generalize a s = r
  rcases r with ⟨_ | _ | _, t⟩ <;> rfl

theorem optional_congr {v : State} (h : (b t).1 = (c v).1) : (optional b t).1 = (optional c v).1 := by
  unfold optional
  generalize b t = r at h ⊢
  generalize c v = r' at h ⊢
  obtain ⟨answer, t⟩ := r
  obtain ⟨_, v⟩ := r'
  subst h
  cases answer <;> rfl

/-- What the first attempt matches comes before what the second does, which is made where the first ends. -/
theorem chain_pair (hb : b s = (.matched ns, t)) :
    (chain [b, c] s).1 = (c t).1.map (ns ++ ·) ∧ (chain [b, c] s).2 = (c t).2 := by
  simp only [chain, hb]
  generalize c t = r
  rcases r with ⟨others | _ | _, u⟩
  · exact ⟨congrArg (fun rest => Answer.matched (ns ++ rest)) (List.append_nil others), rfl⟩
  · exact ⟨rfl, rfl⟩
  · exact ⟨rfl, rfl⟩

/-- An attempt that takes no token is the last. -/
theorem repeated_idle (limit : Nat) (hidle : (b s).2.index = s.index) : repeated b (limit + 1) s = optional b s := by
  simp only [repeated, optional]
  generalize b s = r at hidle
  rcases r with ⟨_ | _ | _, u⟩
  · exact if_pos hidle
  · rfl
  · rfl

theorem repeated_again (limit : Nat) (hb : b s = (.matched ns, t)) (hmoved : t.index ≠ s.index) :
    (repeated b (limit + 1) s).1 = (repeated b limit t).1.map (ns ++ ·) ∧
      (repeated b (limit + 1) s).2 = (repeated b limit t).2 := by
  simp only [repeated, hb, hmoved]
  generalize repeated b limit t = r
  rcases r with ⟨_ | _ | _, u⟩ <;> exact ⟨rfl, rfl⟩

end Attempt

namespace Grammar

variable {g : Grammar} {input : Input} {m : Matcher} {b : Attempt Forest} {s t : State} {i last : Nat} {is : List Nat}

/-- What the matcher adds to the tree from an index: nothing, unless it matches there. -/
def yield (g : Grammar) (input : Input) (m : Matcher) (s : State) (i : Nat) : Forest :=
  match g.attemptAt input m (s.goTo i) with
  | (.matched ns, _) => ns
  | (.backtrack _, _) | (.fatal _, _) => []

/-- **The run of a matcher from an index**: the indices from which it matches and takes tokens, each where the match before
ends, and the last index, from which it backtracks, fails for good or matches without taking a token. -/
inductive Runs (g : Grammar) (input : Input) (m : Matcher) (s : State) : Nat → List Nat → Nat → Prop
  | stop {i : Nat} (h : ∀ ns t, g.attemptAt input m (s.goTo i) = (.matched ns, t) → t.index = i) : Runs g input m s i [] i
  | go {i last : Nat} {is : List Nat} {ns : Forest} {t : State}
      (h : g.attemptAt input m (s.goTo i) = (.matched ns, t)) (hlt : i < t.index) (hs : Runs g input m s t.index is last) :
      Runs g input m s i (i :: is) last

/-- **How a repetition ends after a run**, with what it has matched before: with the error of the last attempt, and the
index back, or else with all that was matched, at the last index. -/
structure Concludes (g : Grammar) (input : Input) (m : Matcher) (s : State) (before : Forest) (is : List Nat) (last : Nat)
    (r : Answer Forest × State) : Prop where
  fatal : ∀ e t, g.attemptAt input m (s.goTo last) = (.fatal e, t) → r.1 = .fatal e ∧ r.2.index = s.index
  matched : (∀ e t, g.attemptAt input m (s.goTo last) ≠ (.fatal e, t)) →
    r.1 = .matched (before ++ (is.flatMap (g.yield input m s) ++ g.yield input m s last)) ∧ r.2.index = last

/-- Whether the attempt does what the matcher does, wherever as many rules are open as in the state. -/
def Mimics (g : Grammar) (input : Input) (m : Matcher) (s : State) (b : Attempt Forest) : Prop :=
  ∀ t, t.depth = s.depth → (b t).1 = (g.attemptAt input m (s.goTo t.index)).1 ∧
    (b t).2.index = (g.attemptAt input m (s.goTo t.index)).2.index ∧ (b t).2.depth = s.depth

theorem mimics_self (g : Grammar) (input : Input) (m : Matcher) (s : State) :
    g.Mimics input m s (g.attemptAt input m) := by
  intro t ht
  obtain ⟨hanswer, hindex⟩ := @attemptAt_repeats g input m t (s.goTo t.index) rfl ht
  exact ⟨hanswer, hindex, (g.attemptAt_balanced input m t).depth_eq.trans ht⟩

/-- Noting where an attempt is made does not change what it does. -/
theorem Mimics.noted (h : g.Mimics input m s b) : g.Mimics input m s (Attempt.noted b) :=
  h

/-! ## The run -/

/-- A match does not end before it starts, and where it takes tokens fewer are left. -/
theorem attemptAt_progress {ns : Forest} (h : g.attemptAt input m (s.goTo i) = (.matched ns, t)) :
    i ≤ t.index ∧ (i < t.index → input.size - t.index < input.size - i) := by
  rw [attemptAt_eq] at h
  obtain ⟨hle, hmax⟩ := attempt_inside g input _ m _ t ns h
  have hmax : t.index ≤ max i input.size := hmax
  exact ⟨hle, fun hlt => by omega⟩

/-- **From every index there is a run**, since only so many tokens are left to be taken. -/
theorem exists_runs (g : Grammar) (input : Input) (m : Matcher) (s : State) (i : Nat) :
    ∃ is last, g.Runs input m s i is last := by
  by_cases hstop : ∀ ns t, g.attemptAt input m (s.goTo i) = (.matched ns, t) → t.index = i
  · exact ⟨[], i, .stop hstop⟩
  · simp only [not_forall] at hstop
    obtain ⟨ns, t, h, hmoved⟩ := hstop
    obtain ⟨hle, hless⟩ := attemptAt_progress h
    have hlt : i < t.index := Nat.lt_of_le_of_ne hle (Ne.symm hmoved)
    have hleft := hless hlt
    obtain ⟨is, last, hs⟩ := exists_runs g input m s t.index
    exact ⟨i :: is, last, .go h hlt hs⟩
termination_by input.size - i

theorem Runs.unique {is' : List Nat} {last' : Nat} (h : g.Runs input m s i is last) (h' : g.Runs input m s i is' last') :
    is = is' ∧ last = last' := by
  induction h generalizing is' last' with
  | stop hstop =>
    cases h' with
    | stop => exact ⟨rfl, rfl⟩
    | go ht hlt => exact absurd (hstop _ _ ht) (Nat.ne_of_gt hlt)
  | go ht hlt _ ih =>
    cases h' with
    | stop hstop => exact absurd (hstop _ _ ht) (Nat.ne_of_gt hlt)
    | go ht' _ hs' =>
      cases ht.symm.trans ht'
      obtain ⟨rfl, rfl⟩ := ih hs'
      exact ⟨rfl, rfl⟩

/-- Each match of a run takes one token at least. -/
theorem Runs.length_le (h : g.Runs input m s i is last) : is.length ≤ input.size - i := by
  induction h with
  | stop => exact Nat.zero_le _
  | @go i _ is _ t ht hlt _ ih =>
    have hleft := (attemptAt_progress ht).2 hlt
    rw [List.length_cons]
    omega

/-! ## What a repetition does -/

theorem yield_eq {ns : Forest} (h : g.attemptAt input m (s.goTo i) = (.matched ns, t)) : g.yield input m s i = ns := by
  rw [yield, h]

theorem Mimics.again {ns : Forest} {u : State} (hb : g.Mimics input m s b)
    (h : g.attemptAt input m (s.goTo i) = (.matched ns, u)) (ht : State.Unmoved (s.goTo i) t) :
    ∃ v, b t = (.matched ns, v) ∧ State.Unmoved (s.goTo u.index) v := by
  obtain ⟨hdepth, hat⟩ := ht
  obtain ⟨hanswer, hindex, hdepth'⟩ := hb t hdepth
  rw [show t.index = i from hat, h] at hanswer hindex
  exact ⟨_, congrArg (·, _) hanswer, hdepth', hindex⟩

theorem Mimics.onward {ns : Forest} {u : State} (hb : g.Mimics input m s b)
    (h : g.attemptAt input m (s.goTo i) = (.matched ns, u)) (hlt : i < u.index) (ht : State.Unmoved (s.goTo i) t) :
    ∃ v, b t = (.matched ns, v) ∧ v.index ≠ t.index ∧ State.Unmoved (s.goTo u.index) v := by
  obtain ⟨v, hv, hmoved⟩ := hb.again h ht
  have hfrom : t.index = i := ht.2
  have hto : v.index = u.index := hmoved.2
  exact ⟨v, hv, by omega, hmoved⟩

theorem Mimics.idle (hb : g.Mimics input m s b) (ht : State.Unmoved (s.goTo i) t)
    (h : ∀ ns u, g.attemptAt input m (s.goTo i) = (.matched ns, u) → u.index = i) : (b t).2.index = t.index := by
  obtain ⟨hdepth, hat⟩ := ht
  obtain ⟨-, hindex, -⟩ := hb t hdepth
  have hbalanced := g.attemptAt_balanced input m (s.goTo i)
  rw [hindex, show t.index = i from hat]
  rcases hr : g.attemptAt input m (s.goTo i) with ⟨ns | _ | _, u⟩
  · exact h ns u hr
  · rw [hr] at hbalanced
    exact hbalanced.2
  · rw [hr] at hbalanced
    exact hbalanced.2

/-- **A repetition goes through the run and stops**, with any limit above the number of tokens left. -/
theorem Runs.repeated (hb : g.Mimics input m s b) (h : g.Runs input m s i is last) : ∀ {limit : Nat} {t : State},
    State.Unmoved (s.goTo i) t → input.size - i < limit →
      (Attempt.repeated b limit t).1 =
        (Attempt.optional (g.attemptAt input m) (s.goTo last)).1.map (is.flatMap (g.yield input m s) ++ ·) ∧
      (Attempt.repeated b limit t).2.index = last := by
  -- each match of the run takes one off the limit and a token at least, so the limit stays above the tokens left
  induction h with
  | @stop i hstop =>
    rintro (_ | limit) t ht hlimit
    · exact absurd hlimit (Nat.not_lt_zero _)
    · have hlast : (b t).1 = (g.attemptAt input m (s.goTo i)).1 := by
        rw [(hb t ht.1).1, show t.index = i from ht.2]
      rw [Attempt.repeated_idle limit (hb.idle ht hstop), Attempt.optional_state, Attempt.optional_congr hlast]
      exact ⟨(Answer.map_id _).symm, (hb.idle ht hstop).trans ht.2⟩
  | @go i last is ns u hu hlt hs ih =>
    rintro (_ | limit) t ht hlimit
    · exact absurd hlimit (Nat.not_lt_zero _)
    · obtain ⟨v, hv, hne, hmoved⟩ := hb.onward hu hlt ht
      have hleft := Nat.lt_of_lt_of_le ((attemptAt_progress hu).2 hlt) (Nat.le_of_lt_succ hlimit)
      obtain ⟨hanswer, hindex⟩ := ih hmoved hleft
      obtain ⟨hfirst, hrest⟩ := Attempt.repeated_again limit hv hne
      rw [hfirst, hrest, hanswer, Answer.map_map, List.flatMap_cons, yield_eq hu]
      exact ⟨congrArg (Answer.map · _) (funext fun rest => (List.append_assoc _ _ _).symm), hindex⟩

/-- **The attempts of a repetition are made along the run and at its end**, and no others are. -/
theorem Runs.entrances (hb : g.Mimics input m s b) (h : g.Runs input m s i is last) : ∀ {limit : Nat} {t : State},
    State.Unmoved (s.goTo i) t → input.size - i < limit →
      (Attempt.repeated (Attempt.noted b) limit t).2.journal.entrances = t.journal.entrances ++ (is ++ [last]) := by
  induction h with
  | @stop i hstop =>
    rintro (_ | limit) t ht hlimit
    · exact absurd hlimit (Nat.not_lt_zero _)
    · rw [Attempt.repeated_idle limit (hb.noted.idle ht hstop), Attempt.optional_state, Attempt.entrances_noted,
        show t.index = i from ht.2]
      rfl
  | @go i last is ns u hu hlt hs ih =>
    rintro (_ | limit) t ht hlimit
    · exact absurd hlimit (Nat.not_lt_zero _)
    · obtain ⟨v, hv, hne, hmoved⟩ := hb.noted.onward hu hlt ht
      have hleft := Nat.lt_of_lt_of_le ((attemptAt_progress hu).2 hlt) (Nat.le_of_lt_succ hlimit)
      have hnoted := Attempt.entrances_noted b t
      rw [hv, show t.index = i from ht.2] at hnoted
      rw [(Attempt.repeated_again limit hv hne).2, ih hmoved hleft, hnoted,
        List.append_assoc]
      rfl

/-- A repetition is made whole: without a match the index is back. -/
theorem concludes_atomic {a : Attempt Forest} {before : Forest}
    (hanswer : (a s).1 = (Attempt.optional (g.attemptAt input m) (s.goTo last)).1.map
      fun ns => before ++ (is.flatMap (g.yield input m s) ++ ns))
    (hindex : (a s).2.index = last) : g.Concludes input m s before is last (Attempt.atomic a s) where
  fatal e t h := by
    have hfatal : (a s).1 = .fatal e := by
      rw [hanswer, Attempt.optional, h]
      rfl
    rw [Attempt.atomic_fst, Attempt.atomic_index, hfatal]
    exact ⟨rfl, rfl⟩
  matched h := by
    have hmatched : (a s).1 = .matched (before ++ (is.flatMap (g.yield input m s) ++ g.yield input m s last)) := by
      rw [hanswer, Attempt.optional, yield]
      rcases hr : g.attemptAt input m (s.goTo last) with ⟨_ | _ | e, t⟩
      · rfl
      · rfl
      · exact absurd hr (h e t)
    rw [Attempt.atomic_fst, Attempt.atomic_index, hmatched]
    exact ⟨rfl, hindex⟩

theorem Concludes.ne_backtrack {before : Forest} {r : Answer Forest × State} (h : g.Concludes input m s before is last r)
    (why : Backtrack) : r.1 ≠ .backtrack why := by
  by_cases hfatal : ∃ e t, g.attemptAt input m (s.goTo last) = (.fatal e, t)
  · obtain ⟨e, t, he⟩ := hfatal
    rw [(h.fatal e t he).1]
    exact nofun
  · simp only [not_exists] at hfatal
    rw [(h.matched hfatal).1]
    exact nofun

/-- The limit of a repetition is above the number of tokens left. -/
theorem left_lt_limit (ht : State.Unmoved (s.goTo i) t) : input.size - i < input.size - t.index + 1 := by
  rw [show t.index = i from ht.2]
  exact Nat.lt_succ_self _

theorem Runs.zeroOrMore (h : g.Runs input m s s.index is last) :
    Attempt.madeAt (.zeroOrMore input) (g.attemptAt input m) s = is ++ [last] ∧
      g.Concludes input m s [] is last (g.attemptAt input (.zeroOrMore m) s) := by
  have hmimics := g.mimics_self input m s
  refine ⟨?_, ?_⟩
  · show (Attempt.atomic _ _).2.journal.entrances = _
    rw [Attempt.atomic_journal]
    exact h.entrances hmimics ⟨rfl, rfl⟩ (left_lt_limit ⟨rfl, rfl⟩)
  · obtain ⟨hanswer, hindex⟩ := h.repeated hmimics (t := s) ⟨rfl, rfl⟩ (left_lt_limit ⟨rfl, rfl⟩)
    exact concludes_atomic hanswer hindex

theorem Runs.oneOrMore {ns : Forest} (hfirst : g.attemptAt input m s = (.matched ns, t))
    (h : g.Runs input m s t.index is last) :
    Attempt.madeAt (.oneOrMore input) (g.attemptAt input m) s = s.index :: is ++ [last] ∧
      g.Concludes input m s ns is last (g.attemptAt input (.oneOrMore m) s) := by
  have hmimics := g.mimics_self input m s
  refine ⟨?_, ?_⟩
  · obtain ⟨v, hv, hmoved⟩ := hmimics.noted.again (i := s.index) hfirst (t := { s with journal := {} }) ⟨rfl, rfl⟩
    have hnoted := Attempt.entrances_noted (g.attemptAt input m) { s with journal := {} }
    rw [hv] at hnoted
    -- the repetition goes on with the journal in which the first attempt is noted
    show (Attempt.atomic _ _).2.journal.entrances = _
    rw [Attempt.atomic_journal, (Attempt.chain_pair hv).2]
    refine (h.entrances hmimics hmoved (left_lt_limit hmoved)).trans ?_
    rw [hnoted]
    rfl
  · have hmoved : State.Unmoved (s.goTo t.index) t := by
      have hdepth := (g.attemptAt_balanced input m s).depth_eq
      rw [hfirst] at hdepth
      exact ⟨hdepth, rfl⟩
    obtain ⟨hanswer, hindex⟩ := h.repeated hmimics hmoved (left_lt_limit hmoved)
    obtain ⟨hchain, hstate⟩ := Attempt.chain_pair (c := .repeatedFrom input (g.attemptAt input m)) hfirst
    refine concludes_atomic (hchain.trans ?_) ((congrArg State.index hstate).trans hindex)
    rw [Attempt.repeatedFrom, hanswer, Answer.map_map]

theorem oneOrMore_unmatched {answer : Answer Forest} (h : g.attemptAt input m s = (answer, t))
    (hanswer : answer.isMatch = false) : ∃ u, g.attemptAt input (.oneOrMore m) s = (answer, u) ∧ u.index = s.index := by
  show ∃ u, Attempt.atomic (.chain [g.attemptAt input m, _]) s = _ ∧ _
  rw [Attempt.atomic, Attempt.chain, h]
  cases answer with
  | matched => cases hanswer
  | backtrack => exact ⟨_, rfl, rfl⟩
  | fatal => exact ⟨_, rfl, rfl⟩

/-- **A repetition takes the maximal run and stops.**  From every index there is just one run.  `zeroOrMore` makes one
attempt for each index of the run and one at its end, and so at most one more than there are tokens left.  Where the last
one fails for good the whole does, with the index back.  Otherwise all that was matched on the way is matched, from the
index of the state up to the last one, followed by what the last attempt matched without taking a token.  `oneOrMore`
backtracks or fails where its first attempt does, and otherwise does the same from where the first match ends. -/
theorem attemptAt_repetition (g : Grammar) (input : Input) (m : Matcher) (s : State) :
    (∀ i, ∃! run : List Nat × Nat, g.Runs input m s i run.1 run.2) ∧
    (∀ is last, g.Runs input m s s.index is last →
      Attempt.madeAt (.zeroOrMore input) (g.attemptAt input m) s = is ++ [last] ∧
      is.length + 1 ≤ input.size - s.index + 1 ∧
      g.Concludes input m s [] is last (g.attemptAt input (.zeroOrMore m) s)) ∧
    ((∃ why t, g.attemptAt input (.oneOrMore m) s = (.backtrack why, t)) ↔
      ∃ why t, g.attemptAt input m s = (.backtrack why, t)) ∧
    (∀ e t, g.attemptAt input m s = (.fatal e, t) →
      ∃ u, g.attemptAt input (.oneOrMore m) s = (.fatal e, u) ∧ u.index = s.index) ∧
    ∀ ns t is last, g.attemptAt input m s = (.matched ns, t) → g.Runs input m s t.index is last →
      Attempt.madeAt (.oneOrMore input) (g.attemptAt input m) s = s.index :: is ++ [last] ∧
      g.Concludes input m s ns is last (g.attemptAt input (.oneOrMore m) s) := by
  refine ⟨fun i => ?_, fun is last h => ?_, ⟨?_, ?_⟩, fun e t h => oneOrMore_unmatched h rfl,
    fun ns t is last hfirst h => h.oneOrMore hfirst⟩
  · obtain ⟨is, last, h⟩ := g.exists_runs input m s i
    refine ⟨(is, last), h, fun run h' => ?_⟩
    obtain ⟨his, hlast⟩ := h'.unique h
    exact Prod.ext his hlast
  · obtain ⟨hmade, hconcludes⟩ := h.zeroOrMore
    exact ⟨hmade, Nat.succ_le_succ h.length_le, hconcludes⟩
  · rintro ⟨why, u, hu⟩
    rcases hfirst : g.attemptAt input m s with ⟨ns | why' | e, t⟩
    · obtain ⟨is, last, h⟩ := g.exists_runs input m s t.index
      exact absurd (congrArg Prod.fst hu) ((h.oneOrMore hfirst).2.ne_backtrack why)
    · exact ⟨why', t, rfl⟩
    · obtain ⟨v, hv, -⟩ := oneOrMore_unmatched hfirst rfl
      cases hu.symm.trans hv
  · rintro ⟨why, t, h⟩
    obtain ⟨u, hu, -⟩ := oneOrMore_unmatched h rfl
    exact ⟨why, u, hu⟩

/-- An item is a letter or nothing, so that the last of the items is an empty one: with two letters left there are three
attempts, and three items.  `oneOrMore` has the same. -/
theorem attemptAt_repetition_items : ∃ (g : Grammar) (input : Input) (m : Matcher) (s t : State) (first : Node),
    s.index = 1 ∧ g.Runs input m s s.index [1, 2] 3 ∧ g.attemptAt input m s = (.matched [first], t) ∧
      g.Runs input m s t.index [2] 3 ∧
      Attempt.madeAt (.zeroOrMore input) (g.attemptAt input m) s = [1, 2, 3] ∧
      (∃ items u, g.attemptAt input (.zeroOrMore m) s = (.matched items, u) ∧ u.index = 3 ∧
        items.map (fun n => (n.name, n.start, n.stop)) = [("item", 1, 2), ("item", 2, 3), ("item", 3, 3)]) ∧
      Attempt.madeAt (.oneOrMore input) (g.attemptAt input m) s = [1, 2, 3] ∧
      g.Concludes input m s [first] [2] 3 (g.attemptAt input (.oneOrMore m) s) := by
  let letter : String → Token := fun value => ⟨value, TokenType.identifier, 1, 0, ⟨0, 1⟩⟩
  let g : Grammar := ⟨#[⟨"item", .optional (.literal "a"), .never⟩], 0⟩
  let input : Input := { tokens := #[letter "b", letter "a", letter "a", letter "c"] }
  let s : State := { index := 1 }
  have hfirst : g.attemptAt input (.rule 0) (s.goTo 1) = (.matched [_], _) := rfl
  have hsecond : g.attemptAt input (.rule 0) (s.goTo 2) = (.matched [_], _) := rfl
  have hlast : g.attemptAt input (.rule 0) (s.goTo 3) = (.matched [_], _) := rfl
  have hstop : g.Runs input (.rule 0) s 3 [] 3 := by
    refine .stop fun ns t h => ?_
    cases hlast.symm.trans h
    rfl
  have hrest : g.Runs input (.rule 0) s 2 [2] 3 := .go hsecond (by decide) hstop
  have hrun : g.Runs input (.rule 0) s 1 [1, 2] 3 := .go hfirst (by decide) hrest
  obtain ⟨-, hzero, -, -, hone⟩ := attemptAt_repetition g input (.rule 0) s
  obtain ⟨hmade, -, hconcludes⟩ := hzero [1, 2] 3 hrun
  obtain ⟨hmade', hconcludes'⟩ := hone _ _ [2] 3 hfirst hrest
  have hmatched := hconcludes.matched fun e t h => by cases hlast.symm.trans h
  exact ⟨g, input, .rule 0, s, _, _, rfl, hrun, hfirst, hrest, hmade, ⟨_, _, Prod.ext hmatched.1 rfl, hmatched.2, rfl⟩,
    hmade', hconcludes'⟩

end Grammar
end LayeredParse
