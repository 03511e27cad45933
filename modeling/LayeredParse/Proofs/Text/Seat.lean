import LayeredParse.Proofs.Text.Content
import LayeredParse.Text.Cursor
/-!
# Seat — the piece that holds an index

Among pieces of given lengths an index is held by the piece whose characters contain it, or by the last piece
(`holding`).  Walking forward and then backward from any seat whose count is right ends there (`moved_eq_holding`), so
that where a walk ends does not depend on where it began.
-/
namespace LayeredParse
namespace Seat

open Text (total total_cons total_append)

/-- Whether the count of a seat is the length of all pieces before it.  Without any pieces the seat is at their start. -/
def Standing (lengths : List Nat) (seat : Seat) : Prop :=
  seat.skipped = total (lengths.take seat.piece) ∧ (seat.piece = 0 ∨ seat.piece < lengths.length)

/-- Whether no later piece than the one at the seat holds the index. -/
def Reaches (lengths : List Nat) (index : Nat) (seat : Seat) : Prop :=
  index < total (lengths.take (seat.piece + 1)) ∨ lengths.length ≤ seat.piece + 1

/-- The seat at the piece whose characters contain the index, or at the last piece. -/
def holding : (lengths : List Nat) → (index : Nat) → Seat
  | [], _ => ⟨0, 0⟩
  | length :: rest, index =>
    if index < length ∨ rest = [] then ⟨0, 0⟩
    else
      let seat := holding rest (index - length)
      ⟨seat.piece + 1, length + seat.skipped⟩

theorem total_take_succ (l : List Nat) (k : Nat) : total (l.take (k + 1)) = total (l.take k) + l.getD k 0 := by
  rw [List.take_add_one, total_append, List.getD_eq_getElem?_getD]
  cases l[k]? <;> rfl

theorem total_take_le (l : List Nat) {j k : Nat} (h : j ≤ k) : total (l.take j) ≤ total (l.take k) := by
  obtain ⟨n, rfl⟩ := Nat.exists_eq_add_of_le h
  rw [List.take_add, total_append]
  exact Nat.le_add_right _ _

theorem standing_zero (lengths : List Nat) : Standing lengths ⟨0, 0⟩ :=
  ⟨rfl, .inl rfl⟩

/-- **Only one seat holds an index.** -/
theorem unique {lengths : List Nat} {index : Nat} {a b : Seat} (ha : a.Standing lengths) (hb : b.Standing lengths)
    (hra : a.Reaches lengths index) (hrb : b.Reaches lengths index) (hla : a.skipped ≤ index)
    (hlb : b.skipped ≤ index) : a = b := by
  have not_lt : ∀ {a b : Seat}, b.Standing lengths → a.Reaches lengths index → b.skipped ≤ index →
      ¬ a.piece < b.piece := by
    intro a b hb hra hlb hab
    rcases hra with h | h
    · have hs := total_take_le lengths (show a.piece + 1 ≤ b.piece from hab)
      rw [← hb.1] at hs
      omega
    · have := hb.2
      omega
  have hp : a.piece = b.piece := Nat.le_antisymm (Nat.not_lt.1 (not_lt ha hrb hla)) (Nat.not_lt.1 (not_lt hb hra hlb))
  have hs : a.skipped = b.skipped := by rw [ha.1, hb.1, hp]
  cases a
  cases b
  simp only at hp hs
  rw [hp, hs]

/-- Walking forward from a seat whose count is right stops at such a seat, past which the index does not lie. -/
theorem forward_standing (index : Nat) (lengths : List Nat) : ∀ (ahead : List Nat) (seat : Seat),
    lengths.drop seat.piece = ahead → seat.Standing lengths →
      (forward index ahead seat).Standing lengths ∧ (forward index ahead seat).Reaches lengths index
  | [], seat, hd, hs => by
    have := List.drop_eq_nil_iff.1 hd
    exact ⟨hs, .inr (by show lengths.length ≤ seat.piece + 1; omega)⟩
  | length :: rest, seat, hd, hs => by
    have hget : lengths.getD seat.piece 0 = length := by
      rw [List.getD_eq_getElem?_getD, ← List.head?_drop, hd]
      rfl
    have hrest : lengths.drop (seat.piece + 1) = rest := by
      rw [← List.tail_drop, hd]
      rfl
    have hsum : total (lengths.take (seat.piece + 1)) = seat.skipped + length := by
      rw [total_take_succ, hget, ← hs.1]
    unfold forward
    split
    · rename_i hgo
      have hlt : seat.piece + 1 < lengths.length := by
        have : rest.length ≠ 0 := fun h => hgo.1 (List.length_eq_zero_iff.1 h)
        rw [← hrest, List.length_drop] at this
        omega
      exact forward_standing index lengths rest ⟨seat.piece + 1, seat.skipped + length⟩ hrest ⟨hsum.symm, .inr hlt⟩
    · rename_i hstop
      refine ⟨hs, ?_⟩
      by_cases hr : rest = []
      · right
        have := List.drop_eq_nil_iff.1 (hrest.trans hr)
        exact this
      · left
        rw [hsum]
        exact Nat.lt_of_not_le (fun hle => hstop ⟨hr, hle⟩)

/-- Walking backward from there stops at the seat that holds the index. -/
theorem backward_holds (index : Nat) (lengths : List Nat) : ∀ (piece skipped : Nat),
    Standing lengths ⟨piece, skipped⟩ → Reaches lengths index ⟨piece, skipped⟩ →
      let seat := backward index lengths piece skipped
      seat.Standing lengths ∧ seat.Reaches lengths index ∧ seat.skipped ≤ index
  | 0, skipped, hs, hr => ⟨hs, hr, by
      have h0 : skipped = 0 := hs.1
      show skipped ≤ index
      omega⟩
  | piece + 1, skipped, hs, hr => by
    unfold backward
    split
    · rename_i hlt
      have hsum : skipped = total (lengths.take (piece + 1)) := hs.1
      have hpiece : piece < lengths.length := by
        have : piece + 1 = 0 ∨ piece + 1 < lengths.length := hs.2
        omega
      refine backward_holds index lengths piece (skipped - lengths.getD piece 0) ⟨?_, .inr hpiece⟩ (.inl ?_)
      · show skipped - lengths.getD piece 0 = total (lengths.take piece)
        rw [hsum, total_take_succ]
        omega
      · show index < total (lengths.take (piece + 1))
        omega
    · rename_i hle
      exact ⟨hs, hr, Nat.not_lt.1 hle⟩

theorem holding_holds : ∀ (lengths : List Nat) (index : Nat),
    let seat := holding lengths index
    seat.Standing lengths ∧ seat.Reaches lengths index ∧ seat.skipped ≤ index
  | [], _ => ⟨⟨rfl, .inl rfl⟩, .inr (Nat.zero_le _), Nat.zero_le _⟩
  | length :: rest, index => by
    unfold holding
    split
    · rename_i h
      refine ⟨⟨rfl, .inl rfl⟩, ?_, Nat.zero_le _⟩
      rcases h with h | rfl
      · exact .inl (Nat.lt_add_right 0 h)
      · exact .inr (Nat.le_refl _)
    · rename_i h
      obtain ⟨⟨hs, hp⟩, hr, hle⟩ := holding_holds rest (index - length)
      rw [not_or] at h
      have hne : rest.length ≠ 0 := fun h0 => h.2 (List.length_eq_zero_iff.1 h0)
      simp only
      refine ⟨⟨?_, .inr ?_⟩, ?_, ?_⟩
      · simp only [List.take_succ_cons, total_cons, hs]
      · simp only [List.length_cons]
        omega
      · refine hr.imp (fun hi => ?_) (fun hi => ?_)
        · simp only [List.take_succ_cons, total_cons] at hi ⊢
          omega
        · simp only [List.length_cons]
          omega
      · show length + (holding rest (index - length)).skipped ≤ index
        omega

theorem standing_holding (lengths : List Nat) (index : Nat) : (holding lengths index).Standing lengths :=
  (holding_holds lengths index).1

/-- **Where a walk ends does not depend on where it began.** -/
theorem moved_eq_holding {lengths : List Nat} {seat : Seat} (h : seat.Standing lengths) (index : Nat) :
    seat.moved lengths index = holding lengths index := by
  obtain ⟨hs, hr⟩ := forward_standing index lengths (lengths.drop seat.piece) seat rfl h
  obtain ⟨hs', hr', hl'⟩ := backward_holds index lengths _ _ hs hr
  obtain ⟨hs'', hr'', hl''⟩ := holding_holds lengths index
  exact unique hs' hs'' hr' hr'' hl' hl''

end Seat
end LayeredParse
