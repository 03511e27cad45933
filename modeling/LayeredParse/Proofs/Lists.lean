import Mathlib.Data.List.Forall2
import Mathlib.Data.List.Nodup
import Mathlib.Data.List.TakeWhile
/-!
# Lists — facts about lists of anything

A list in two parts is taken apart at an item, and ends of lists are compared.  What a test takes off the
front of a list passes the test.  Lists related item by item are related at every index.
-/
namespace LayeredParse

variable {α β : Type}

/-! ## Parts of lists -/

/-- A list in two parts, in one of which an item is. -/
theorem List.append_eq_append_cons {xs ys before rest : List α} {x : α} (h : xs ++ ys = before ++ x :: rest) :
    (∃ more, xs = before ++ x :: more ∧ rest = more ++ ys) ∨ ∃ more, ys = more ++ x :: rest ∧ before = xs ++ more := by
  rcases List.append_eq_append_iff.1 h with ⟨more, hbefore, hys⟩ | ⟨more, hxs, hrest⟩
  · exact .inr ⟨more, hys, hbefore⟩
  · rcases List.cons_eq_append_iff.1 hrest with ⟨rfl, hys⟩ | ⟨more, rfl, hmore⟩
    · exact .inr ⟨[], hys, by rw [hxs, List.append_nil, List.append_nil]⟩
    · exact .inl ⟨more, hxs, hmore⟩

theorem List.suffix_of_cons_suffix_cons {x y : α} (hne : x ≠ y) {xs ys : List α} (h : x :: xs <:+ y :: ys) : xs <:+ ys := by
  rcases List.suffix_cons_iff.1 h with e | h
  · exact absurd (List.cons.inj e).1 hne
  · exact (List.suffix_cons x xs).trans h

theorem List.not_append_cons_suffix {xs ys : List α} {x : α} : ¬xs ++ x :: ys <:+ ys := by
  intro h
  have hle := h.length_le
  simp only [List.length_append, List.length_cons] at hle
  omega

theorem List.length_lt_of_suffix_tail {xs ys zs : List α} (h : xs <:+ ys.tail) (hne : ys ≠ []) (hsuffix : ys <:+ zs) :
    xs.length < zs.length := by
  have htail : ys.tail.length < ys.length := by
    rw [List.length_tail]
    exact Nat.sub_lt (List.length_pos_iff.2 hne) Nat.one_pos
  exact Nat.lt_of_le_of_lt h.length_le (Nat.lt_of_lt_of_le htail hsuffix.length_le)

/-! ## What a test takes -/

theorem List.take_takeWhile_length (p : α → Bool) (xs : List α) : xs.take (xs.takeWhile p).length = xs.takeWhile p :=
  (List.prefix_iff_eq_take.1 (List.takeWhile_prefix p)).symm

theorem List.mem_take_takeWhile {p : α → Bool} {xs : List α} {x : α} (h : x ∈ xs.take (xs.takeWhile p).length) :
    p x = true := by
  rw [List.take_takeWhile_length] at h
  exact List.mem_takeWhile_imp h

theorem List.takeWhile_append_cons {p : α → Bool} {xs : List α} (h : ∀ x ∈ xs, p x = true) {y : α} (hy : p y = false)
    (ys : List α) : (xs ++ y :: ys).takeWhile p = xs := by
  rw [List.takeWhile_append_of_pos h, List.takeWhile_cons_of_neg (by simp [hy]), List.append_nil]

theorem List.length_le_takeWhile_append {p : α → Bool} {xs : List α} (h : ∀ x ∈ xs, p x = true) (ys : List α) :
    xs.length ≤ ((xs ++ ys).takeWhile p).length := by
  rw [List.takeWhile_append_of_pos h, List.length_append]
  exact Nat.le_add_right _ _

/-! ## Items at indices -/

theorem List.findIdx?_beq_eq_some_iff {names : List String} (h : names.Nodup) {name : String} {i : Nat} :
    names.findIdx? (· == name) = some i ↔ names[i]? = some name := by
  rw [List.findIdx?_eq_some_iff_getElem, List.getElem?_eq_some_iff]
  constructor
  · rintro ⟨hlt, hname, -⟩
    exact ⟨hlt, eq_of_beq hname⟩
  · rintro ⟨hlt, rfl⟩
    refine ⟨hlt, beq_self_eq_true _, fun j hj => ?_⟩
    simpa [h.getElem_inj_iff] using Nat.ne_of_lt hj

variable {R : α → β → Prop}

theorem List.forall₂_left_mem {P : α → Prop} : ∀ {xs : List α} {ys : List β},
    List.Forall₂ (fun x _ => P x) xs ys → ∀ x ∈ xs, P x
  | _, _, .nil, _, h => nomatch h
  | _, _, .cons hx hxs, x, h => (List.mem_cons.1 h).elim (fun e => e ▸ hx) (forall₂_left_mem hxs x)

theorem List.Forall₂.getElem?_rel : ∀ {xs : List α} {ys : List β}, List.Forall₂ R xs ys →
    ∀ i : Nat, Option.Rel R xs[i]? ys[i]?
  | _, _, .nil, _ => .none
  | _, _, .cons h _, 0 => .some h
  | _, _, .cons _ hs, i + 1 => getElem?_rel hs i

theorem List.Forall₂.exists_getElem? {xs : List α} {ys : List β} (h : List.Forall₂ R xs ys) {i : Nat} {x : α}
    (hx : xs[i]? = some x) : ∃ y, ys[i]? = some y ∧ R x y := by
  have hrel := List.Forall₂.getElem?_rel h i
  rw [hx] at hrel
  generalize ys[i]? = y at hrel
  obtain ⟨hxy⟩ := hrel
  exact ⟨_, rfl, hxy⟩

end LayeredParse
