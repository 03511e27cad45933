import LayeredParse.Proofs.Parse.Nested
/-!
# Longest — a longest alternation takes the first of the longest

All alternatives are tried, and the best so far gives way only to one that reaches further (`Best.step`).  So what is left
is the first of those that reach furthest (`FirstOfLongest`, `longest_best`).  What the trials leave is a state at the same
place with as many rules open, from which the winner does what it does by itself (`attemptAt_repeats`).
-/
namespace LayeredParse

/-! ## The first of the longest -/

section Longest

variable {β : Type} {reach : β → Option Nat} {bs : List β} {b w : β} {j : Nat}

/-- **The first of those that reach furthest**: what is before it reaches less, if anything, and what is after it no
more. -/
def FirstOfLongest (reach : β → Option Nat) (bs : List β) (w : β) (j : Nat) : Prop :=
  ∃ before after, bs = before ++ w :: after ∧ reach w = some j ∧ (∀ b ∈ before, ∀ k, reach b = some k → k < j) ∧
    ∀ b ∈ after, ∀ k, reach b = some k → k ≤ j

/-- The members of a list that reach furthest, in order. -/
def longestOf (reach : β → Option Nat) (bs : List β) : List β :=
  bs.filter fun b => (reach b).isSome && reach b == (bs.filterMap reach).max?

namespace FirstOfLongest

theorem mem (h : FirstOfLongest reach bs w j) : w ∈ bs := by
  obtain ⟨before, after, rfl, -⟩ := h
  exact List.mem_append_right before List.mem_cons_self

theorem reach_eq (h : FirstOfLongest reach bs w j) : reach w = some j := by
  obtain ⟨-, -, -, hw, -⟩ := h
  exact hw

theorem le (h : FirstOfLongest reach bs w j) (hb : b ∈ bs) {k : Nat} (hk : reach b = some k) : k ≤ j := by
  obtain ⟨before, after, rfl, hw, hbefore, hafter⟩ := h
  rcases List.mem_append.1 hb with hb | hb
  · exact Nat.le_of_lt (hbefore b hb k hk)
  · rcases List.mem_cons.1 hb with rfl | hb
    · exact Nat.le_of_eq (Option.some.inj (hk.symm.trans hw))
    · exact hafter b hb k hk

theorem snoc (h : FirstOfLongest reach bs w j) (hb : ∀ k, reach b = some k → k ≤ j) :
    FirstOfLongest reach (bs ++ [b]) w j := by
  obtain ⟨before, after, rfl, hw, hbefore, hafter⟩ := h
  refine ⟨before, after ++ [b], by rw [List.append_assoc, List.cons_append], hw, hbefore, ?_⟩
  exact List.forall_mem_append.2 ⟨hafter, List.forall_mem_singleton.2 hb⟩

theorem of_snoc (h : ∀ c ∈ bs, ∀ k, reach c = some k → k < j) (hb : reach b = some j) :
    FirstOfLongest reach (bs ++ [b]) b j :=
  ⟨bs, [], rfl, hb, h, fun _ hc => nomatch hc⟩

theorem max?_eq (h : FirstOfLongest reach bs w j) : (bs.filterMap reach).max? = some j := by
  refine List.max?_eq_some_iff.2 ⟨List.mem_filterMap.2 ⟨w, h.mem, h.reach_eq⟩, fun k hk => ?_⟩
  obtain ⟨b, hb, hk⟩ := List.mem_filterMap.1 hk
  exact h.le hb hk

/-- It is the first in the order of those that reach as far. -/
theorem head?_eq (h : FirstOfLongest reach bs w j) : (longestOf reach bs).head? = some w := by
  have hmax := h.max?_eq
  obtain ⟨before, after, rfl, hw, hbefore, -⟩ := h
  have hnone : before.filter (fun b => (reach b).isSome && reach b == some j) = [] := by
    refine List.filter_eq_nil_iff.2 (fun b hb h => ?_)
    rw [Bool.and_eq_true, beq_iff_eq] at h
    exact absurd (hbefore b hb j h.2) (Nat.lt_irrefl j)
  rw [longestOf, hmax, List.filter_append, hnone, List.nil_append, List.filter_cons_of_pos (by simp [hw]), List.head?_cons]

end FirstOfLongest

end Longest

namespace Attempt

variable {α β : Type} {f : β → Attempt α} {reach : β → Option Nat} {seen : List β} {best : Option (Attempt α × Nat)}

/-- Whether the best so far is the first of the longest of what has been tried, or nothing of that reached anything. -/
def Best (f : β → Attempt α) (reach : β → Option Nat) (seen : List β) (best : Option (Attempt α × Nat)) : Prop :=
  best = none ∧ (∀ b ∈ seen, reach b = none) ∨ ∃ w j, best = some (f w, j) ∧ FirstOfLongest reach seen w j

/-- **One more trial keeps the best so far the first of the longest.** -/
theorem Best.step (h : Best f reach seen best) (b : β) : Best f reach (seen ++ [b]) (better best (f b) (reach b)) := by
  rcases h with ⟨rfl, hnone⟩ | ⟨w, j, rfl, hw⟩
  · cases hb : reach b with
    | none => exact .inl ⟨rfl, List.forall_mem_append.2 ⟨hnone, List.forall_mem_singleton.2 hb⟩⟩
    | some j =>
      refine .inr ⟨b, j, rfl, .of_snoc (fun c hc k hk => ?_) hb⟩
      cases (hnone c hc).symm.trans hk
  · right
    cases hb : reach b with
    | none => exact ⟨w, j, rfl, hw.snoc (fun k hk => nomatch hb.symm.trans hk)⟩
    | some far =>
      rw [better]
      by_cases hlt : j < far
      · rw [if_pos hlt]
        exact ⟨b, far, rfl, .of_snoc (fun c hc k hk => Nat.lt_of_le_of_lt (hw.le hc hk) hlt) hb⟩
      · rw [if_neg hlt]
        refine ⟨w, j, rfl, hw.snoc (fun k hk => ?_)⟩
        cases hb.symm.trans hk
        exact Nat.le_of_not_lt hlt

/-- **Trials of a list leave the first of its longest**, if each finds the same wherever `At` holds, and keeps to it. -/
theorem longest_best {At : State → Prop} : ∀ {bs seen : List β} {best : Option (Attempt α × Nat)} {s : State},
    (∀ b ∈ bs, ∀ s, At s → (trial (f b) s).1 = .ok (reach b) ∧ At (trial (f b) s).2) → Best f reach seen best → At s →
      ∃ last u, longest (bs.map f) best s = (.ok (last.map Prod.fst), u) ∧ Best f reach (seen ++ bs) last ∧ At u
  | [], seen, best, s, _, hbest, hs => ⟨best, s, rfl, (List.append_nil seen).symm ▸ hbest, hs⟩
  | b :: bs, seen, best, s, h, hbest, hs => by
    obtain ⟨hfound, hkept⟩ := h b List.mem_cons_self s hs
    obtain ⟨last, u, hlast, hbest', hu⟩ := longest_best (fun c hc => h c (List.mem_cons_of_mem b hc)) (hbest.step b) hkept
    refine ⟨last, u, ?_, by rwa [List.append_assoc] at hbest', hu⟩
    rw [List.map_cons, longest, ← hlast]
    generalize trial (f b) s = r at hfound ⊢
    obtain ⟨found, t⟩ := r
    obtain rfl : found = .ok (reach b) := hfound
    rfl

end Attempt

namespace Grammar

variable {g : Grammar} {input : Input} {m w : Matcher} {ms : List Matcher} {s t : State}

/-- The index that a matcher reaches from a state, if it matches there. -/
def reach? (g : Grammar) (input : Input) (s : State) (m : Matcher) : Option Nat :=
  match g.attemptAt input m s with
  | (.matched _, t) => some t.index
  | (.backtrack _, _) | (.fatal _, _) => none

/-- Whether the matcher does not fail for good from the state. -/
def Settles (g : Grammar) (input : Input) (s : State) (m : Matcher) : Prop :=
  ∀ e t, g.attemptAt input m s ≠ (.fatal e, t)

theorem reach?_eq_some {j : Nat} : g.reach? input s m = some j ↔
    ∃ ns t, g.attemptAt input m s = (.matched ns, t) ∧ t.index = j := by
  unfold reach?
  generalize g.attemptAt input m s = r
  rcases r with ⟨ns | why | e, t⟩ <;> simp

theorem reach?_eq_none (h : g.Settles input s m) : g.reach? input s m = none ↔
    ∃ why t, g.attemptAt input m s = (.backtrack why, t) := by
  unfold Settles at h
  unfold reach?
  generalize g.attemptAt input m s = r at h ⊢
  rcases r with ⟨ns | why | e, t⟩
  · simp
  · simp
  · exact absurd rfl (h e t)

/-- **A trial from the same place finds what the matcher reaches from there**, and leaves it. -/
theorem trial_finds (h : g.Settles input s m) (ht : State.Unmoved s t) :
    (Attempt.trial (g.attemptAt input m) t).1 = .ok (g.reach? input s m) ∧
      State.Unmoved s (Attempt.trial (g.attemptAt input m) t).2 := by
  refine ⟨?_, ht.trans (Attempt.trial_unmoved (g.attemptAt_balanced input m).advances t)⟩
  obtain ⟨hanswer, hindex⟩ := g.attemptAt_repeats input m ht.2.symm ht.1.symm
  unfold Settles at h
  unfold Attempt.trial reach?
  generalize g.attemptAt input m s = r at h hanswer hindex ⊢
  generalize g.attemptAt input m t = r' at hanswer hindex ⊢
  obtain ⟨answer, u⟩ := r
  obtain ⟨answer', u'⟩ := r'
  obtain rfl : answer = answer' := hanswer
  cases answer with
  | matched ns => exact congrArg (fun i => Except.ok (some i)) hindex.symm
  | backtrack why => rfl
  | fatal e => exact absurd rfl (h e u)

/-- **How a longest alternation comes to its winner**, which stands between `before` and `after`: with what it matches and
the state that it ends in. -/
structure Picks (g : Grammar) (input : Input) (s : State) (before : List Matcher) (w : Matcher) (after : List Matcher)
    (ns : Forest) (v : State) : Prop where
  answer_eq : g.attemptAt input (.longestOne (before ++ w :: after)) s = (.matched ns, v)
  /-- By itself the winner matches the same and ends there too. -/
  alone : ∃ t, g.attemptAt input w s = (.matched ns, t) ∧ t.index = v.index
  before_lt : ∀ m ∈ before, ∀ k, g.reach? input s m = some k → k < v.index
  after_le : ∀ m ∈ after, ∀ k, g.reach? input s m = some k → k ≤ v.index
  /-- Its trial, which comes after those of the alternatives before it, ends there. -/
  tried : ∃ best u, Attempt.longest (before.map (g.attemptAt input)) none s = (.ok best, u) ∧
    (Attempt.trial (g.attemptAt input w) u).1 = .ok (some v.index)
  /-- After all trials it is attempted for good, and matches. -/
  made : ∃ u, Attempt.longest ((before ++ w :: after).map (g.attemptAt input)) none s = (.ok (some (g.attemptAt input w)), u) ∧
    g.attemptAt input w u = (.matched ns, v)

theorem attemptAt_longestOne_eq (g : Grammar) (input : Input) (ms : List Matcher) (s : State) :
    g.attemptAt input (.longestOne ms) s = Attempt.make (Attempt.longest (ms.map (g.attemptAt input)) none s) := by
  rw [attemptAt, Matcher.attempt, attemptAt_map]
  rfl

/-- What the trials of alternatives leave. -/
theorem longest_tried (h : ∀ m ∈ ms, g.Settles input s m) : ∃ last u,
    Attempt.longest (ms.map (g.attemptAt input)) none s = (.ok (last.map Prod.fst), u) ∧
      Attempt.Best (g.attemptAt input) (g.reach? input s) ms last ∧ State.Unmoved s u := by
  have hfresh : Attempt.Best (g.attemptAt input) (g.reach? input s) [] none := .inl ⟨rfl, List.forall_mem_nil _⟩
  exact Attempt.longest_best (fun m hm _ => trial_finds (h m hm)) hfresh ⟨rfl, rfl⟩

/-- **A longest alternation backtracks if no alternative matches, and else comes to a winner.** -/
theorem longestOne_picks (h : ∀ m ∈ ms, g.Settles input s m) :
    ((∀ m ∈ ms, g.reach? input s m = none) ∧
      ∃ u, g.attemptAt input (.longestOne ms) s = (.backtrack .mismatch, u) ∧ u.index = s.index) ∨
    ∃ before w after ns v, ms = before ++ w :: after ∧ g.Picks input s before w after ns v := by
  obtain ⟨last, u, hlast, ⟨rfl, hnone⟩ | ⟨w, j, rfl, before, after, rfl, hw, hbefore, hafter⟩, hu⟩ := longest_tried h
  · refine .inl ⟨hnone, u, ?_, hu.2⟩
    rw [attemptAt_longestOne_eq, hlast]
    rfl
  · right
    obtain ⟨ns, t, ht, rfl⟩ := reach?_eq_some.1 hw
    obtain ⟨hanswer, hindex⟩ := g.attemptAt_repeats input w hu.2 hu.1
    obtain ⟨best, x, hbest, -, hx⟩ := longest_tried (fun m hm => h m (List.mem_append_left _ hm))
    have hfinds := (trial_finds (h w (List.mem_append_right _ List.mem_cons_self)) hx).1
    rw [hw] at hfinds
    rw [ht] at hanswer hindex
    rcases hv : g.attemptAt input w u with ⟨answer, v⟩
    rw [hv] at hanswer hindex
    obtain rfl : answer = .matched ns := hanswer
    have hindex : v.index = t.index := hindex
    rw [← hindex] at hbefore hafter hfinds
    refine ⟨before, w, after, ns, v, rfl, ?_, ⟨t, ht, hindex.symm⟩, hbefore, hafter, ⟨_, x, hbest, hfinds⟩,
      ⟨u, hlast, hv⟩⟩
    rw [attemptAt_longestOne_eq, hlast]
    exact hv

theorem Picks.firstOfLongest {before after : List Matcher} {ns : Forest} {v : State}
    (h : g.Picks input s before w after ns v) : FirstOfLongest (g.reach? input s) (before ++ w :: after) w v.index := by
  obtain ⟨t, ht, hindex⟩ := h.alone
  exact ⟨before, after, rfl, reach?_eq_some.2 ⟨ns, t, ht, hindex⟩, h.before_lt, h.after_le⟩

/-- **The order of the alternatives makes no difference but among those that reach furthest.** -/
theorem longestOne_perm {ms' : List Matcher} (h : ∀ m ∈ ms, g.Settles input s m) (hperm : ms'.Perm ms)
    (hsame : longestOf (g.reach? input s) ms' = longestOf (g.reach? input s) ms) :
    (g.attemptAt input (.longestOne ms') s).1 = (g.attemptAt input (.longestOne ms) s).1 ∧
      (g.attemptAt input (.longestOne ms') s).2.index = (g.attemptAt input (.longestOne ms) s).2.index := by
  have h' : ∀ m ∈ ms', g.Settles input s m := fun m hm => h m (hperm.mem_iff.1 hm)
  rcases longestOne_picks h with ⟨hall, u, hu, hi⟩ | ⟨before, w, after, ns, v, rfl, hpicks⟩
  · rcases longestOne_picks h' with ⟨-, u', hu', hi'⟩ | ⟨before', w', after', ns', v', rfl, hpicks'⟩
    · rw [hu, hu']
      exact ⟨rfl, hi'.trans hi.symm⟩
    · have hw' := hpicks'.firstOfLongest
      cases (hall w' (hperm.mem_iff.1 hw'.mem)).symm.trans hw'.reach_eq
  · have hw := hpicks.firstOfLongest
    rcases longestOne_picks h' with ⟨hall, -⟩ | ⟨before', w', after', ns', v', rfl, hpicks'⟩
    · cases (hall w (hperm.mem_iff.2 hw.mem)).symm.trans hw.reach_eq
    · have hhead := hpicks'.firstOfLongest.head?_eq
      rw [hsame, hw.head?_eq] at hhead
      obtain rfl : w = w' := Option.some.inj hhead
      obtain ⟨t, ht, hi⟩ := hpicks.alone
      obtain ⟨t', ht', hi'⟩ := hpicks'.alone
      obtain ⟨hns, rfl⟩ := Prod.mk.inj (ht.symm.trans ht')
      rw [hpicks.answer_eq, hpicks'.answer_eq, hns]
      exact ⟨rfl, hi'.symm.trans hi⟩

/-- **A longest alternation takes the first of the longest.**  From a state from which no alternative fails for good, it
backtracks, and stays where it is, exactly if all alternatives do.  Otherwise it matches what the first of those that
reach furthest matches by itself, and ends where that ends; this one is attempted for good after all the trials, and then
matches just as it did in its own.  The order of the alternatives makes no difference but among those that reach
furthest. -/
theorem attemptAt_longestOne {g : Grammar} {input : Input} {ms : List Matcher} {s : State}
    (h : ∀ m ∈ ms, ∀ e t, g.attemptAt input m s ≠ (.fatal e, t)) :
    ((∃ why t, g.attemptAt input (.longestOne ms) s = (.backtrack why, t)) ↔
      ∀ m ∈ ms, ∃ why t, g.attemptAt input m s = (.backtrack why, t)) ∧
    (∀ why t, g.attemptAt input (.longestOne ms) s = (.backtrack why, t) → t.index = s.index) ∧
    ((¬∀ m ∈ ms, ∃ why t, g.attemptAt input m s = (.backtrack why, t)) →
      ∃ before w after ns v, ms = before ++ w :: after ∧ g.Picks input s before w after ns v) ∧
    ∀ ms' : List Matcher, ms'.Perm ms → longestOf (g.reach? input s) ms' = longestOf (g.reach? input s) ms →
      (g.attemptAt input (.longestOne ms') s).1 = (g.attemptAt input (.longestOne ms) s).1 ∧
        (g.attemptAt input (.longestOne ms') s).2.index = (g.attemptAt input (.longestOne ms) s).2.index := by
  have hnone : (∀ m ∈ ms, g.reach? input s m = none) ↔ ∀ m ∈ ms, ∃ why t, g.attemptAt input m s = (.backtrack why, t) :=
    forall₂_congr (fun m hm => reach?_eq_none (h m hm))
  rw [← hnone]
  refine ⟨⟨?_, fun hall => ?_⟩, fun why t hback => ?_, fun hsome => ?_, fun ms' => longestOne_perm h⟩
  · rintro ⟨why, t, hback⟩
    rcases longestOne_picks h with ⟨hall, -⟩ | ⟨before, w, after, ns, v, rfl, hpicks⟩
    · exact hall
    · cases hback.symm.trans hpicks.answer_eq
  · rcases longestOne_picks h with ⟨-, u, hu, -⟩ | ⟨before, w, after, ns, v, rfl, hpicks⟩
    · exact ⟨_, u, hu⟩
    · cases (hall w hpicks.firstOfLongest.mem).symm.trans hpicks.firstOfLongest.reach_eq
  · have hsteady := attemptAt_balanced g input (.longestOne ms) s
    rw [hback] at hsteady
    exact hsteady.2
  · exact (longestOne_picks h).resolve_left (fun hall => hsome hall.1)

/-- Of a letter, a pair of letters, a letter with any token after it, and another letter, the pair is taken: it reaches
further than what is before it, and as far as what comes after it.  It still is if others change places. -/
theorem attemptAt_longestOne_pair : ∃ (g : Grammar) (input : Input) (ms ms' : List Matcher) (s : State),
    s.index = 1 ∧ (∀ m ∈ ms, g.Settles input s m) ∧
      (∃ before after ns v, ms = before ++ .rule 0 :: after ∧ g.Picks input s before (.rule 0) after ns v) ∧
      ms'.Perm ms ∧ (g.attemptAt input (.longestOne ms') s).1 = (g.attemptAt input (.longestOne ms) s).1 ∧
      (g.attemptAt input (.longestOne ms') s).2.index = 3 := by
  let letter : String → Token := fun value => ⟨value, TokenType.identifier, 1, 0, ⟨0, 1⟩⟩
  let g : Grammar := ⟨#[⟨"pair", .sequence [.literal "a", .literal "b"], .never⟩], 0⟩
  let input : Input := { tokens := #[letter ";", letter "a", letter "b", letter "c"] }
  let s : State := { index := 1 }
  let other : Matcher := .sequence [.literal "a", .anyToken]
  let ms : List Matcher := [.literal "a", .rule 0, other, .literal "c"]
  let ms' : List Matcher := [.rule 0, .literal "a", other, .literal "c"]
  have settles : ∀ m ∈ ms, ∀ e t, g.attemptAt input m s ≠ (.fatal e, t) := by
    have settled : ∀ m, (g.attemptAt input m s).1.isMatch = true ∨ (g.attemptAt input m s).1 = .backtrack .mismatch →
        ∀ e t, g.attemptAt input m s ≠ (.fatal e, t) := by
      rintro m (h | h) e t hfatal <;> rw [hfatal] at h <;> cases h
    refine List.forall_mem_cons.2 ⟨settled _ (.inl rfl), List.forall_mem_cons.2 ⟨settled _ (.inl rfl), ?_⟩⟩
    exact List.forall_mem_cons.2 ⟨settled _ (.inl rfl), List.forall_mem_singleton.2 (settled _ (.inr rfl))⟩
  have hperm : ms'.Perm ms := .swap _ _ _
  have reaches : ¬∀ m ∈ ms, ∃ why t, g.attemptAt input m s = (.backtrack why, t) := by
    intro h
    obtain ⟨why, t, hback⟩ := h (.literal "a") List.mem_cons_self
    cases (congrArg (fun r => r.1.isMatch) hback : true = false)
  obtain ⟨-, -, picks, reorder⟩ := @attemptAt_longestOne g input ms s settles
  obtain ⟨before, w, after, ns, v, hms, hpicks⟩ := picks reaches
  have hhead : some (.rule 0) = some w := by
    rw [← hpicks.firstOfLongest.head?_eq, ← hms]
    rfl
  obtain rfl := Option.some.inj hhead
  obtain ⟨hanswer, hindex⟩ := reorder ms' hperm rfl
  exact ⟨g, input, ms, ms', s, rfl, settles, ⟨before, after, ns, v, hms, hpicks⟩, hperm, hanswer, hindex⟩

end Grammar
end LayeredParse
