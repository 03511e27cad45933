import LayeredParse.Proofs.Parse.Longest
/-!
# Strict — a strict alternation is a checked one

All alternatives are tried up to the second that matches, and how many match decides (`Attempt.sole`): that the ones after
a second match are not tried any more makes no difference (`Attempt.only_sole`).  So the verdict does not depend on the
order of the alternatives.  If only one of them matches, an ordered alternation comes to it as well, since those before it
backtrack (`firstOf_matching`), and so does a longest one (`longestOne_matching`).
-/
namespace LayeredParse

namespace Attempt

variable {α β : Type} {f : β → Attempt α} {reach : β → Option Nat} {tie : Nat → ParseError} {i : Nat}

/-- **What a strict alternation makes of the attempts that match**: it chooses the only one, if any, and more than one are
an error. -/
def sole (ambiguous : ParseError) : List (Attempt α) → Except ParseError (Option (Attempt α))
  | [] => .ok none
  | [a] => .ok (some a)
  | _ :: _ :: _ => .error ambiguous

/-- **The trials of a list tell what there is to say of all that match**, if each finds the same wherever `At` holds, and
keeps to it. -/
theorem only_sole {At : State → Prop} (hi : ∀ s, At s → s.index = i) : ∀ {bs : List β} {found : Option (Attempt α)}
    {s : State}, (∀ b ∈ bs, ∀ s, At s → (trial (f b) s).1 = .ok (reach b) ∧ At (trial (f b) s).2) → At s →
      ∃ u, At u ∧ only tie (bs.map f) found s =
        (sole (tie i) (found.toList ++ (bs.filter fun b => (reach b).isSome).map f), u)
  | [], none, s, _, hs => ⟨s, hs, rfl⟩
  | [], some a, s, _, hs => ⟨s, hs, rfl⟩
  | b :: bs, found, s, h, hs => by
    obtain ⟨hfound, hkept⟩ := h b List.mem_cons_self s hs
    have rest := fun found' => @only_sole At hi bs found' _ (fun c hc => h c (List.mem_cons_of_mem b hc)) hkept
    rw [List.map_cons, only]
    generalize trial (f b) s = r at hfound hkept rest ⊢
    obtain ⟨result, t⟩ := r
    obtain rfl : result = .ok (reach b) := hfound
    cases hb : reach b with
    | none =>
      rw [List.filter_cons_of_neg (by simp [hb])]
      exact rest found
    | some j =>
      rw [List.filter_cons_of_pos (by simp [hb])]
      cases found with
      | none => exact rest (some (f b))
      | some a =>
        -- whatever is behind the second match, there are too many
        exact ⟨t, hkept, congrArg (fun k => (Except.error (tie k), t)) (hi t hkept)⟩

end Attempt

namespace Grammar

variable {g : Grammar} {input : Input} {m w : Matcher} {ms ms' : List Matcher} {s t u : State} {ns : Forest}

/-- The alternatives that match from a state, in order. -/
def matching (g : Grammar) (input : Input) (s : State) (ms : List Matcher) : List Matcher :=
  ms.filter fun m => (g.attemptAt input m s).1.isMatch

theorem mem_matching : m ∈ g.matching input s ms ↔ m ∈ ms ∧ ∃ ns t, g.attemptAt input m s = (.matched ns, t) := by
  rw [matching, List.mem_filter]
  generalize g.attemptAt input m s = r
  rcases r with ⟨_ | _ | _, t⟩ <;> simp [Answer.isMatch]

theorem matching_eq_reaching (g : Grammar) (input : Input) (s : State) (ms : List Matcher) :
    g.matching input s ms = ms.filter fun m => (g.reach? input s m).isSome := by
  refine List.filter_congr (fun m _ => ?_)
  unfold reach?
  generalize g.attemptAt input m s = r
  rcases r with ⟨_ | _ | _, t⟩ <;> rfl

theorem matching_perm (h : ms'.Perm ms) : (g.matching input s ms').Perm (g.matching input s ms) :=
  h.filter _

/-- **A strict alternation does what there is to do with the alternatives that match.** -/
theorem attemptAt_strictOr_eq (h : ∀ m ∈ ms, g.Settles input s m) : ∃ u, State.Unmoved s u ∧
    g.attemptAt input (.strictOr ms) s =
      Attempt.make (Attempt.sole (tie ms s.index) ((g.matching input s ms).map (g.attemptAt input)), u) := by
  obtain ⟨u, hu, heq⟩ := @Attempt.only_sole _ _ (g.attemptAt input) (g.reach? input s) (tie ms) s.index
    (State.Unmoved s) (fun _ ht => ht.2) ms none s (fun m hm _ => trial_finds (h m hm)) ⟨rfl, rfl⟩
  refine ⟨u, hu, ?_⟩
  rw [matching_eq_reaching, attemptAt, Matcher.attempt, attemptAt_map]
  exact congrArg Attempt.make heq

/-- **The verdict on the alternatives**: none matches, or one does and is taken, or there are several. -/
theorem strictOr_verdict (h : ∀ m ∈ ms, g.Settles input s m) :
    (g.matching input s ms = [] ∧ ∃ u, g.attemptAt input (.strictOr ms) s = (.backtrack .mismatch, u)) ∨
    (∃ w ns t v, g.matching input s ms = [w] ∧ g.attemptAt input w s = (.matched ns, t) ∧
      g.attemptAt input (.strictOr ms) s = (.matched ns, v) ∧ v.index = t.index) ∨
    (2 ≤ (g.matching input s ms).length ∧ ∃ u, g.attemptAt input (.strictOr ms) s = (.fatal (tie ms s.index), u)) := by
  obtain ⟨u, hu, heq⟩ := attemptAt_strictOr_eq h
  rw [heq]
  rcases hmatching : g.matching input s ms with _ | ⟨w, _ | ⟨w', others⟩⟩
  · exact .inl ⟨rfl, u, rfl⟩
  · have hw : w ∈ g.matching input s ms := hmatching ▸ List.mem_cons_self
    obtain ⟨-, ns, t, ht⟩ := mem_matching.1 hw
    obtain ⟨v, hv, hindex⟩ := attemptAt_unmoved ht hu
    exact .inr (.inl ⟨w, ns, t, v, rfl, ht, hv, hindex⟩)
  · exact .inr (.inr ⟨Nat.le_add_left 2 others.length, u, rfl⟩)

theorem strictOr_takes_iff (h : ∀ m ∈ ms, g.Settles input s m) {k : Nat} :
    (∃ v, g.attemptAt input (.strictOr ms) s = (.matched ns, v) ∧ v.index = k) ↔
      ∃ w t, g.matching input s ms = [w] ∧ g.attemptAt input w s = (.matched ns, t) ∧ t.index = k := by
  rcases strictOr_verdict h with ⟨hnone, u, hu⟩ | ⟨w, ns', t, v, hw, ht, hv, hindex⟩ | ⟨hseveral, u, hu⟩
  · simp [hnone, hu]
  · simp only [hw, hv]
    constructor
    · rintro ⟨_, heq, rfl⟩
      cases heq
      exact ⟨w, t, rfl, ht, hindex.symm⟩
    · rintro ⟨_, t', heq, ht', rfl⟩
      cases heq
      cases ht.symm.trans ht'
      exact ⟨v, rfl, hindex⟩
  · rw [hu]
    constructor
    · rintro ⟨_, heq, -⟩
      cases heq
    · rintro ⟨w, -, hw, -⟩
      simp [hw] at hseveral

theorem strictOr_matched_iff (h : ∀ m ∈ ms, g.Settles input s m) :
    (∃ ns t, g.attemptAt input (.strictOr ms) s = (.matched ns, t)) ↔ (g.matching input s ms).length = 1 := by
  rcases strictOr_verdict h with ⟨hnone, u, hu⟩ | ⟨w, ns, t, v, hw, -, hv, -⟩ | ⟨hseveral, u, hu⟩
  · simp [hnone, hu]
  · simp [hw, hv]
  · simp [hu, Nat.ne_of_gt hseveral]

theorem strictOr_backtrack_iff (h : ∀ m ∈ ms, g.Settles input s m) :
    (∃ why t, g.attemptAt input (.strictOr ms) s = (.backtrack why, t)) ↔ (g.matching input s ms).length = 0 := by
  rcases strictOr_verdict h with ⟨hnone, u, hu⟩ | ⟨w, ns, t, v, hw, -, hv, -⟩ | ⟨hseveral, u, hu⟩
  · simp [hnone, hu]
  · simp [hw, hv]
  · simp [hu, List.ne_nil_of_length_pos (Nat.lt_of_lt_of_le Nat.two_pos hseveral)]

theorem strictOr_ambiguous_iff (h : ∀ m ∈ ms, g.Settles input s m) :
    (∃ t, g.attemptAt input (.strictOr ms) s = (.fatal (tie ms s.index), t)) ↔ 2 ≤ (g.matching input s ms).length := by
  rcases strictOr_verdict h with ⟨hnone, u, hu⟩ | ⟨w, ns, t, v, hw, -, hv, -⟩ | ⟨hseveral, u, hu⟩
  · simp [hnone, hu]
  · simp [hw, hv]
  · simp [hu, hseveral]

/-- **An ordered alternation takes the first alternative that matches.** -/
theorem firstOf_matching : ∀ {ms : List Matcher} {u : State}, (∀ m ∈ ms, g.Settles input s m) → State.Unmoved s u →
    (g.matching input s ms).head? = some w → g.attemptAt input w s = (.matched ns, t) →
      ∃ v, Attempt.firstOf (ms.map (g.attemptAt input)) u = (.matched ns, v) ∧ v.index = t.index
  | [], _, _, _, hw, _ => nomatch hw
  | m :: ms, u, h, hu, hw, ht => by
    rw [List.map_cons, Attempt.firstOf]
    rcases hs : g.attemptAt input m s with ⟨first | why | e, t'⟩
    · have hhead : g.matching input s (m :: ms) = m :: g.matching input s ms :=
        List.filter_cons_of_pos (by rw [hs]; rfl)
      rw [hhead] at hw
      obtain rfl : m = w := Option.some.inj hw
      obtain ⟨v, hv, hindex⟩ := attemptAt_unmoved ht hu
      exact ⟨v, by rw [hv], hindex⟩
    · have hskip : g.matching input s (m :: ms) = g.matching input s ms :=
        List.filter_cons_of_neg (by rw [hs]; exact Bool.false_ne_true)
      obtain ⟨v, hv, -⟩ := attemptAt_unmoved hs hu
      have hsteady := g.attemptAt_balanced input m u
      rw [hskip] at hw
      rw [hv] at hsteady ⊢
      exact firstOf_matching (fun n hn => h n (List.mem_cons_of_mem m hn)) (hu.trans hsteady) hw ht
    · exact absurd hs (h m List.mem_cons_self e t')

/-- **A longest alternation takes the only alternative that matches.** -/
theorem longestOne_matching (h : ∀ m ∈ ms, g.Settles input s m) (hw : g.matching input s ms = [w])
    (ht : g.attemptAt input w s = (.matched ns, t)) :
    ∃ v, g.attemptAt input (.longestOne ms) s = (.matched ns, v) ∧ v.index = t.index := by
  have hmem : w ∈ g.matching input s ms := hw ▸ List.mem_cons_self
  rcases longestOne_picks h with ⟨hnone, -⟩ | ⟨before, w', after, ns', v, rfl, hpicks⟩
  · cases (hnone w (mem_matching.1 hmem).1).symm.trans (reach?_eq_some.2 ⟨ns, t, ht, rfl⟩)
  · obtain ⟨t', ht', hindex⟩ := hpicks.alone
    have hmem' : w' ∈ g.matching input s (before ++ w' :: after) :=
      mem_matching.2 ⟨List.mem_append_right before List.mem_cons_self, ns', t', ht'⟩
    obtain rfl : w' = w := List.mem_singleton.1 (hw ▸ hmem')
    obtain ⟨hns, rfl⟩ := Prod.mk.inj (ht.symm.trans ht')
    obtain rfl := Answer.matched.inj hns
    exact ⟨v, hpicks.answer_eq, hindex.symm⟩

/-- **A strict alternation is a checked one.**  From a state from which no alternative fails for good, it matches exactly
if one alternative does, backtracks exactly if none does, and is ambiguous, at the index of the state, exactly if two or
more do.  If it matches, the ordered and the longest alternation of the same alternatives match the same and end there
too, and so does the strict alternation of the alternatives in any order.  In whatever order they are, the outcome is of
the same kind. -/
theorem attemptAt_strictOr {g : Grammar} {input : Input} {ms : List Matcher} {s : State}
    (h : ∀ m ∈ ms, ∀ e t, g.attemptAt input m s ≠ (.fatal e, t)) :
    ((∃ ns t, g.attemptAt input (.strictOr ms) s = (.matched ns, t)) ↔ (g.matching input s ms).length = 1) ∧
    ((∃ why t, g.attemptAt input (.strictOr ms) s = (.backtrack why, t)) ↔ (g.matching input s ms).length = 0) ∧
    ((∃ t, g.attemptAt input (.strictOr ms) s = (.fatal (tie ms s.index), t)) ↔ 2 ≤ (g.matching input s ms).length) ∧
    (∀ ns t, g.attemptAt input (.strictOr ms) s = (.matched ns, t) →
      (∃ u, g.attemptAt input (.firstOf ms) s = (.matched ns, u) ∧ u.index = t.index) ∧
      (∃ u, g.attemptAt input (.longestOne ms) s = (.matched ns, u) ∧ u.index = t.index) ∧
      ∀ ms', ms'.Perm ms → ∃ u, g.attemptAt input (.strictOr ms') s = (.matched ns, u) ∧ u.index = t.index) ∧
    ∀ ms', ms'.Perm ms →
      ((∃ ns t, g.attemptAt input (.strictOr ms') s = (.matched ns, t)) ↔
        ∃ ns t, g.attemptAt input (.strictOr ms) s = (.matched ns, t)) ∧
      ((∃ why t, g.attemptAt input (.strictOr ms') s = (.backtrack why, t)) ↔
        ∃ why t, g.attemptAt input (.strictOr ms) s = (.backtrack why, t)) ∧
      ((∃ t, g.attemptAt input (.strictOr ms') s = (.fatal (tie ms' s.index), t)) ↔
        ∃ t, g.attemptAt input (.strictOr ms) s = (.fatal (tie ms s.index), t)) := by
  refine ⟨strictOr_matched_iff h, strictOr_backtrack_iff h, strictOr_ambiguous_iff h, fun ns t hmatched => ?_,
    fun ms' hperm => ?_⟩
  · obtain ⟨w, t', hw, ht', hindex⟩ := (strictOr_takes_iff h).1 ⟨t, hmatched, rfl⟩
    rw [← hindex]
    refine ⟨?_, longestOne_matching h hw ht', fun ms' hperm => ?_⟩
    · rw [attemptAt, Matcher.attempt, attemptAt_map]
      exact firstOf_matching h ⟨rfl, rfl⟩ (congrArg List.head? hw) ht'
    · have hw' : g.matching input s ms' = [w] := List.perm_singleton.1 (hw ▸ matching_perm hperm)
      exact (strictOr_takes_iff (fun m hm => h m (hperm.mem_iff.1 hm))).2 ⟨w, t', hw', ht', rfl⟩
  · have h' : ∀ m ∈ ms', g.Settles input s m := fun m hm => h m (hperm.mem_iff.1 hm)
    rw [strictOr_matched_iff h', strictOr_backtrack_iff h', strictOr_ambiguous_iff h', strictOr_matched_iff h,
      strictOr_backtrack_iff h, strictOr_ambiguous_iff h, (matching_perm hperm).length_eq]
    exact ⟨Iff.rfl, Iff.rfl, Iff.rfl⟩

/-- Of a semicolon, a pair of letters and two equal letters only the pair matches, in whatever order they are tried. -/
theorem attemptAt_strictOr_pair : ∃ (g : Grammar) (input : Input) (ms ms' : List Matcher) (s : State),
    s.index = 1 ∧ (∀ m ∈ ms, g.Settles input s m) ∧ ms'.Perm ms ∧ ms'.head? = ms.getLast? ∧
      (g.matching input s ms).length = 1 ∧ ∃ ns t, g.attemptAt input (.strictOr ms) s = (.matched ns, t) ∧ t.index = 3 ∧
        (∃ u, g.attemptAt input (.firstOf ms) s = (.matched ns, u) ∧ u.index = t.index) ∧
        (∃ u, g.attemptAt input (.longestOne ms) s = (.matched ns, u) ∧ u.index = t.index) ∧
        ∃ u, g.attemptAt input (.strictOr ms') s = (.matched ns, u) ∧ u.index = t.index := by
  let letter : String → Token := fun value => ⟨value, TokenType.identifier, 1, 0, ⟨0, 1⟩⟩
  let g : Grammar := ⟨#[⟨"pair", .sequence [.literal "a", .literal "b"], .never⟩], 0⟩
  let input : Input := { tokens := #[letter ";", letter "a", letter "b"] }
  let s : State := { index := 1 }
  let ms : List Matcher := [.literal ";", .rule 0, .sequence [.literal "a", .literal "a"]]
  have settled : ∀ m, (g.attemptAt input m s).1.isMatch = true ∨ (g.attemptAt input m s).1 = .backtrack .mismatch →
      ∀ e t, g.attemptAt input m s ≠ (.fatal e, t) := by
    rintro m (h | h) e t hfatal <;> rw [hfatal] at h <;> cases h
  have settles : ∀ m ∈ ms, ∀ e t, g.attemptAt input m s ≠ (.fatal e, t) :=
    List.forall_mem_cons.2 ⟨settled _ (.inr rfl), List.forall_mem_cons.2 ⟨settled _ (.inl rfl),
      List.forall_mem_singleton.2 (settled _ (.inr rfl))⟩⟩
  obtain ⟨one, -, -, alike, -⟩ := attemptAt_strictOr settles
  have hmatched : g.attemptAt input (.strictOr ms) s = (.matched _, _) := rfl
  obtain ⟨first, longest, reorder⟩ := alike _ _ hmatched
  have hperm : ms.reverse.Perm ms := List.reverse_perm ms
  exact ⟨g, input, ms, ms.reverse, s, rfl, settles, hperm, rfl, one.1 ⟨_, _, hmatched⟩, _, _, hmatched, rfl, first,
    longest, reorder ms.reverse hperm⟩

end Grammar
end LayeredParse
