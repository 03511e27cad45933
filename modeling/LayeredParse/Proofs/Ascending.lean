import LayeredParse.Ascending
/-!
# Ascending — the search finds the last entry at most a number

Going down the powers of two, the search stays at entries that are at most `x` (`descend_le`) and passes over no such
entry (`lt_descend`).  In an ascending array that leaves the last one (`rank_eq`), which is right before where a number
goes that is no entry (`rank_insertion`).
-/
namespace LayeredParse
namespace Ascending

variable {a : Array Nat} {x : Nat}

theorem entry_le (hs : a.toList.Pairwise (· ≤ ·)) {i j : Nat} (hij : i ≤ j) {e e' : Nat} (hi : a[i]? = some e)
    (hj : a[j]? = some e') : e ≤ e' := by
  obtain ⟨hlt, rfl⟩ := Array.getElem?_eq_some_iff.1 hi
  obtain ⟨hlt', rfl⟩ := Array.getElem?_eq_some_iff.1 hj
  rcases Nat.lt_or_eq_of_le hij with h | rfl
  · exact List.pairwise_iff_getElem.1 hs i j hlt hlt' h
  · exact Nat.le_refl _

/-- The search stays at entries that are at most `x`. -/
theorem descend_le : ∀ (bits base : Nat), (∃ e, a[base]? = some e ∧ e ≤ x) →
    ∃ e, a[descend a x bits base]? = some e ∧ e ≤ x
  | 0, _, h => h
  | bits + 1, base, h => by
    unfold descend
    simp only
    split
    · rename_i entry hentry
      split
      · rename_i hle
        exact descend_le bits _ ⟨entry, hentry, hle⟩
      · exact descend_le bits base h
    · exact descend_le bits base h

/-- The search never passes over an entry that is at most `x`: those from `base + 1 <<< bits` on are not. -/
theorem lt_descend (hs : a.toList.Pairwise (· ≤ ·)) : ∀ (bits base : Nat),
    (∀ j e, base + (1 <<< bits) ≤ j → a[j]? = some e → x < e) → ∀ j e, descend a x bits base < j → a[j]? = some e → x < e
  | 0, _, h => h
  | bits + 1, base, h => by
    have hpow : base + (1 <<< bits) + (1 <<< bits) = base + (1 <<< (bits + 1)) := by
      rw [Nat.shiftLeft_succ]
      omega
    unfold descend
    simp only
    split
    · rename_i entry hentry
      split
      · exact lt_descend hs bits _ (hpow ▸ h)
      · rename_i hgt
        refine lt_descend hs bits base (fun j e hj he => ?_)
        exact Nat.lt_of_lt_of_le (Nat.not_le.1 hgt) (entry_le hs hj hentry he)
    · rename_i hnone
      refine lt_descend hs bits base (fun j e hj he => ?_)
      have hout : a.size ≤ base + (1 <<< bits) := Array.getElem?_eq_none_iff.1 hnone
      have hin : j < a.size := (Array.getElem?_eq_some_iff.1 he).1
      omega

/-- **The last entry at most `x` is found.** -/
theorem rank_eq (hs : a.toList.Pairwise (· ≤ ·)) {r e : Nat} (hr : a[r]? = some e) (hle : e ≤ x)
    (hnext : ∀ e', a[r + 1]? = some e' → x < e') : rank a x = r := by
  have hsize : r < a.size := (Array.getElem?_eq_some_iff.1 hr).1
  obtain ⟨e₀, h₀⟩ : ∃ e₀, a[0]? = some e₀ := ⟨_, Array.getElem?_eq_getElem (Nat.zero_lt_of_lt hsize)⟩
  have hfirst : e₀ ≤ x := Nat.le_trans (entry_le hs (Nat.zero_le r) h₀ hr) hle
  obtain ⟨found, hfound, hfle⟩ := descend_le (Nat.log2 a.size + 1) 0 ⟨e₀, h₀, hfirst⟩
  have hbeyond : ∀ j e, 0 + (1 <<< (Nat.log2 a.size + 1)) ≤ j → a[j]? = some e → x < e := by
    intro j e hj he
    have hin : j < a.size := (Array.getElem?_eq_some_iff.1 he).1
    have hlog : a.size < 1 <<< (Nat.log2 a.size + 1) := by
      rw [Nat.one_shiftLeft]
      exact Nat.lt_log2_self
    omega
  have hlast := lt_descend hs (Nat.log2 a.size + 1) 0 hbeyond
  unfold rank
  rcases Nat.lt_trichotomy (descend a x (Nat.log2 a.size + 1) 0) r with hlt | heq | hgt
  · exact absurd (hlast r e hlt hr) (Nat.not_lt.2 hle)
  · exact heq
  · have hfsize := (Array.getElem?_eq_some_iff.1 hfound).1
    obtain ⟨e', he'⟩ : ∃ e', a[r + 1]? = some e' := ⟨_, Array.getElem?_eq_getElem (Nat.lt_of_le_of_lt hgt hfsize)⟩
    exact absurd (hnext e' he') (Nat.not_lt.2 (Nat.le_trans (entry_le hs hgt he' hfound) hfle))

/-- Where a number goes that is no entry: behind all entries below it. -/
def insertion (a : Array Nat) (x : Nat) : Nat :=
  a.toList.countP (· < x)

/-- In an ascending list the entries below a number come first. -/
theorem lt_iff_lt_countP : ∀ {l : List Nat}, l.Pairwise (· ≤ ·) → ∀ {j e : Nat}, l[j]? = some e →
    (e < x ↔ j < l.countP (· < x))
  | [], _, _, _, h => nomatch h
  | b :: l, hs, j, e, h => by
    obtain ⟨hb, hl⟩ := List.pairwise_cons.1 hs
    have hnone : ¬b < x → l.countP (· < x) = 0 := fun hge =>
      List.countP_eq_zero.2 (fun e' he' => by
        have := hb e' he'
        simp only [decide_eq_true_eq]
        omega)
    cases j with
    | zero =>
      obtain rfl : b = e := Option.some.inj h
      by_cases hlt : b < x
      · simp [hlt]
      · simp [hlt, hnone hlt]
    | succ j =>
      have hentry : l[j]? = some e := h
      by_cases hlt : b < x
      · simp only [List.countP_cons, hlt, decide_true, if_true]
        rw [lt_iff_lt_countP hl hentry]
        omega
      · have hle := hb e (List.mem_of_getElem? hentry)
        simp only [List.countP_cons, hnone hlt, hlt, decide_false]
        simp only [Bool.false_eq_true, if_false]
        omega

/-- **A number that is no entry goes right behind the last entry at most it**, and so not in front of all entries. -/
theorem rank_insertion (hs : a.toList.Pairwise (· < ·)) {first : Nat} (hfirst : a[0]? = some first) (hle : first ≤ x)
    (hx : x ∉ a.toList) : 1 ≤ insertion a x ∧ rank a x = insertion a x - 1 := by
  have hsorted : a.toList.Pairwise (· ≤ ·) := hs.imp Nat.le_of_lt
  have below : ∀ {j e : Nat}, a[j]? = some e → (e < x ↔ j < insertion a x) := by
    intro j e he
    rw [← Array.getElem?_toList] at he
    exact lt_iff_lt_countP hsorted he
  have hne : ∀ {j e : Nat}, a[j]? = some e → e ≠ x := by
    rintro j e he rfl
    rw [← Array.getElem?_toList] at he
    exact hx (List.mem_of_getElem? he)
  have hpos : 0 < insertion a x := (below hfirst).1 (Nat.lt_of_le_of_ne hle (hne hfirst))
  have hsize : insertion a x - 1 < a.size := by
    have hcount : insertion a x ≤ a.toList.length := List.countP_le_length
    rw [Array.length_toList] at hcount
    omega
  obtain ⟨e, he⟩ : ∃ e, a[insertion a x - 1]? = some e := ⟨_, Array.getElem?_eq_getElem hsize⟩
  have hlt : e < x := (below he).2 (Nat.sub_lt hpos Nat.one_pos)
  refine ⟨hpos, rank_eq hsorted he (Nat.le_of_lt hlt) (fun next hnext => ?_)⟩
  rw [Nat.sub_add_cancel hpos] at hnext
  have hge : ¬next < x := fun h => Nat.lt_irrefl _ ((below hnext).1 h)
  exact Nat.lt_of_le_of_ne (Nat.not_lt.1 hge) (hne hnext).symm

end Ascending
end LayeredParse
