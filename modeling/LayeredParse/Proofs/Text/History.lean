import LayeredParse.Proofs.Text.Content
import LayeredParse.Proofs.Text.Seat
/-!
# History — what a cursor has read before does not show

`resolve` is the location of an index by recursion on the layers, without a cursor.  A cursor may have read anything: as
long as what it remembers fits its text (`Fits`), looking an index up gives the character of the content or the location
by `resolve`, and leaves the cursor at the seats of that index, in every layer, whatever they were before (`Lands`).
-/
namespace LayeredParse

/-- The seats in all layers, outermost first. -/
def CursorState.seats : CursorState → List Seat
  | plain => []
  | composite seat none => [seat]
  | composite seat (some inner) => seat :: seats inner
  | sub base => seats base
  | transformed output _ => seats output

namespace Text

mutual

/-- The location of an index, layer by layer.  Plain text knows its places; a window looks through to its base; the output
of a transformation has the start of the source below it. -/
def resolve : Text → Nat → Option Location
  | plain p, index => (p.place? index).map .source
  | composite pieces, index => if index ≤ total (lengths pieces) then resolveIn pieces index else none
  | sub base start stop, index => if index ≤ stop - start then resolve base (start + index) else none
  | transformed output source, index =>
    (resolve output index).map fun location =>
      match resolve source 0 with
      | some parent => location.withParent parent
      | none => location

/-- The location of an index in the piece whose characters contain it, or in the last piece. -/
def resolveIn : List Text → Nat → Option Location
  | [], _ => none
  | t :: ts, index => if index < length t ∨ ts.isEmpty then resolve t index else resolveIn ts (index - length t)

end

mutual

/-- The seats that an index has in all layers, outermost first. -/
def seats : Text → Nat → List Seat
  | plain _, _ => []
  | composite pieces, index =>
    let seat := Seat.holding (lengths pieces) index
    seat :: seatsIn pieces seat.piece (index - seat.skipped)
  | sub base start _, index => seats base (start + index)
  | transformed output _, index => seats output index

/-- The seats that an index has in the layers of one of the pieces. -/
def seatsIn : List Text → Nat → Nat → List Seat
  | [], _, _ => []
  | t :: _, 0, index => seats t index
  | _ :: ts, piece + 1, index => seatsIn ts piece index

end

mutual

/-- Whether a cursor on the text may remember the state: every count is the length of the pieces before, what is remembered
in a piece fits the piece at the seat, and the location remembered of a source is the one it has. -/
def Fits : Text → CursorState → Prop
  | plain _, .plain => True
  | composite pieces, .composite seat inner =>
    seat.Standing (lengths pieces) ∧ ∀ state ∈ inner, FitsIn pieces seat.piece state
  | sub base _ _, .sub inner => Fits base inner
  | transformed output source, .transformed inner known => Fits output inner ∧ ∀ l ∈ known, resolve source 0 = some l
  | _, _ => False

/-- Whether a cursor on one of the pieces may remember the state. -/
def FitsIn : List Text → Nat → CursorState → Prop
  | [], _, _ => False
  | t :: _, 0, state => Fits t state
  | _ :: ts, piece + 1, state => FitsIn ts piece state

end

/-! ## One of the pieces -/

theorem fitsIn_iff : ∀ (pieces : List Text) (piece : Nat) (state : CursorState),
    FitsIn pieces piece state ↔ ∃ t, pieces[piece]? = some t ∧ t.Fits state
  | [], _, _ => by simp [FitsIn]
  | t :: ts, 0, state => by simp [FitsIn]
  | t :: ts, piece + 1, state => by simp [FitsIn, fitsIn_iff ts piece state]

theorem seatsIn_eq : ∀ {pieces : List Text} {piece : Nat} {t : Text}, pieces[piece]? = some t →
    ∀ index, seatsIn pieces piece index = t.seats index
  | [], _, _, h, _ => by simp at h
  | u :: ts, 0, t, h, index => by
    obtain rfl : u = t := by simpa using h
    rfl
  | u :: ts, piece + 1, t, h, index => by
    have ht : ts[piece]? = some t := by simpa using h
    exact seatsIn_eq ht index

theorem charInPiece_eq : ∀ {pieces : List Text} {piece : Nat} {t : Text}, pieces[piece]? = some t →
    ∀ (inner : Option CursorState) (index : Nat), charInPiece pieces piece inner index =
      ((t.charStep (inner.getD t.opened) index).1, some (t.charStep (inner.getD t.opened) index).2)
  | [], _, _, h, _, _ => by simp at h
  | u :: ts, 0, t, h, inner, index => by
    obtain rfl : u = t := by simpa using h
    rfl
  | u :: ts, piece + 1, t, h, inner, index => by
    have ht : ts[piece]? = some t := by simpa using h
    exact charInPiece_eq ht inner index

theorem locationInPiece_eq : ∀ {pieces : List Text} {piece : Nat} {t : Text}, pieces[piece]? = some t →
    ∀ (inner : Option CursorState) (index : Nat), locationInPiece pieces piece inner index =
      ((t.locationStep (inner.getD t.opened) index).1, some (t.locationStep (inner.getD t.opened) index).2)
  | [], _, _, h, _, _ => by simp at h
  | u :: ts, 0, t, h, inner, index => by
    obtain rfl : u = t := by simpa using h
    rfl
  | u :: ts, piece + 1, t, h, inner, index => by
    have ht : ts[piece]? = some t := by simpa using h
    exact locationInPiece_eq ht inner index

/-- **The piece that holds an index**: the index lies in it once the pieces before are taken off, and both its character
and its location are those of the piece there. -/
theorem exists_holding : ∀ (pieces : List Text) (index : Nat), AllInRange pieces → pieces ≠ [] →
    index ≤ total (lengths pieces) →
      let seat := Seat.holding (lengths pieces) index
      ∃ t ∈ pieces, pieces[seat.piece]? = some t ∧ index - seat.skipped ≤ t.length ∧
        resolveIn pieces index = t.resolve (index - seat.skipped) ∧
        (index < total (lengths pieces) → index - seat.skipped < t.length ∧
          (contents pieces)[index]? = t.content[index - seat.skipped]?)
  | [], _, _, hne, _ => absurd rfl hne
  | t :: ts, index, hr, _, hle => by
    have hlen := length_eq_length_content t hr.1
    have hmap : lengths ts = [] ↔ ts = [] := by rw [lengths_eq_map, List.map_eq_nil_iff]
    simp only [lengths, total_cons] at hle ⊢
    simp only [Seat.holding, resolveIn, contents, List.isEmpty_iff, hmap]
    by_cases hin : index < length t ∨ ts = []
    · simp only [if_pos hin, Nat.sub_zero]
      refine ⟨t, List.mem_cons_self, rfl, ?_, rfl, fun hlt => ?_⟩
      · rcases hin with h | rfl
        · omega
        · simpa [lengths, total_nil] using hle
      · have hlt' : index < t.length := by
          rcases hin with h | rfl
          · exact h
          · simpa [lengths, total_nil] using hlt
        exact ⟨hlt', List.getElem?_append_left (hlen ▸ hlt')⟩
    · simp only [if_neg hin]
      rw [not_or] at hin
      obtain ⟨u, hu, hget, hle', hres, hchar⟩ := exists_holding ts (index - t.length) hr.2 hin.2 (by omega)
      rw [Nat.sub_add_eq]
      refine ⟨u, List.mem_cons_of_mem _ hu, by simpa using hget, hle', hres, fun hlt => ?_⟩
      obtain ⟨h1, h2⟩ := hchar (by omega)
      refine ⟨h1, ?_⟩
      rw [List.getElem?_append_right (by omega), ← hlen]
      exact h2

/-! ## One lookup -/

theorem fits_opened (t : Text) : t.Fits t.opened := by
  induction t with
  | plain p => trivial
  | composite pieces _ => exact ⟨Seat.standing_zero _, fun _ h => nomatch h⟩
  | sub base start stop ih => exact ih
  | transformed output source ih _ => exact ⟨ih, fun _ h => nomatch h⟩

/-- What looking an index up has to give: the answer, and a state that fits and has the seats of the index. -/
def Lands {α : Type} (t : Text) (index : Nat) (answer : Option α) (found : Option α × CursorState) : Prop :=
  found.1 = answer ∧ t.Fits found.2 ∧ found.2.seats = t.seats index

/-- What a cursor that moves to a piece has remembered there fits the piece. -/
theorem fits_retargeted {pieces : List Text} {seat next : Seat} {inner : Option CursorState} {t : Text}
    (hf : (composite pieces).Fits (.composite seat inner)) (ht : pieces[next.piece]? = some t) :
    t.Fits ((if next = seat then inner else none).getD t.opened) := by
  by_cases hn : next = seat
  · subst hn
    rw [if_pos rfl]
    cases inner with
    | none => exact fits_opened t
    | some state =>
      obtain ⟨u, hu, hfu⟩ := (fitsIn_iff pieces _ state).1 (hf.2 state rfl)
      obtain rfl : t = u := Option.some.inj (ht.symm.trans hu)
      exact hfu
  · rw [if_neg hn]
    exact fits_opened t

theorem lands_composite {α : Type} {pieces : List Text} {index : Nat} {t : Text} {answer : Option α}
    {found : Option α × CursorState} (ht : pieces[(Seat.holding (lengths pieces) index).piece]? = some t)
    (h : t.Lands (index - (Seat.holding (lengths pieces) index).skipped) answer found) :
    (composite pieces).Lands index answer
      (found.1, .composite (Seat.holding (lengths pieces) index) (some found.2)) := by
  obtain ⟨h1, h2, h3⟩ := h
  refine ⟨h1, ⟨Seat.standing_holding _ _, fun state hs => ?_⟩, ?_⟩
  · obtain rfl : found.2 = state := Option.some.inj hs
    exact (fitsIn_iff _ _ _).2 ⟨t, ht, h2⟩
  · simp only [CursorState.seats, seats]
    rw [seatsIn_eq ht, h3]

/-- **A character in range is that of the content**, whatever the cursor remembers. -/
theorem charStep_lands (t : Text) (hr : t.InRange) : ∀ (state : CursorState) (index : Nat), t.Fits state →
    index < t.length → t.Lands index t.content[index]? (t.charStep state index) := by
  induction t with
  | plain p =>
    intro state index hf _
    cases state <;> try exact hf.elim
    exact ⟨by simp [charStep, content], trivial, rfl⟩
  | composite pieces ih =>
    intro state index hf hlt
    cases state <;> try exact hf.elim
    rename_i seat inner
    have hlt' : index < total (lengths pieces) := hlt
    have hne : pieces ≠ [] := fun h => by rw [h] at hlt'; exact absurd hlt' (Nat.not_lt_zero _)
    obtain ⟨t, htm, hget, -, -, hchar⟩ := exists_holding pieces index hr hne (Nat.le_of_lt hlt')
    obtain ⟨hi, hc⟩ := hchar hlt'
    simp only [charStep]
    rw [if_neg (Nat.not_le.2 hlt'), Seat.moved_eq_holding hf.1, charInPiece_eq hget]
    refine lands_composite hget ?_
    rw [content, hc]
    exact ih t htm ((allInRange_iff pieces).1 hr t htm) _ _ (fits_retargeted hf hget) hi
  | sub base start stop ih =>
    intro state index hf hlt
    cases state <;> try exact hf.elim
    rename_i inner
    obtain ⟨h1, h2, hb⟩ := hr
    have hlt' : index < stop - start := hlt
    obtain ⟨hc, hf', hs⟩ := ih hb inner (start + index) hf (by omega)
    simp only [charStep]
    rw [if_neg (Nat.not_le.2 hlt')]
    refine ⟨?_, hf', hs⟩
    rw [content, List.getElem?_take_of_lt hlt', List.getElem?_drop]
    exact hc
  | transformed output source ih _ =>
    intro state index hf hlt
    cases state <;> try exact hf.elim
    rename_i inner known
    obtain ⟨hc, hf', hs⟩ := ih hr.1 inner index hf.1 hlt
    exact ⟨hc, ⟨hf', hf.2⟩, hs⟩

/-- **A location in range is the one that the layers give**, whatever the cursor remembers. -/
theorem locationStep_lands (t : Text) (hr : t.InRange) : ∀ (state : CursorState) (index : Nat), t.Fits state →
    index ≤ t.length → t.Lands index (t.resolve index) (t.locationStep state index) := by
  induction t with
  | plain p =>
    intro state index hf _
    cases state <;> try exact hf.elim
    exact ⟨by simp [locationStep, resolve], trivial, rfl⟩
  | composite pieces ih =>
    intro state index hf hle
    cases state <;> try exact hf.elim
    rename_i seat inner
    have hle' : index ≤ total (lengths pieces) := hle
    simp only [locationStep, resolve]
    rw [if_neg (Nat.not_lt.2 hle'), if_pos hle', Seat.moved_eq_holding hf.1]
    by_cases hne : pieces = []
    · subst hne
      have hs : seat = ⟨0, 0⟩ := by
        obtain ⟨h1, h2 | h2⟩ := hf.1
        · cases seat
          simp only [lengths, List.take_nil, total_nil] at h1 h2
          rw [h1, h2]
        · exact absurd h2 (Nat.not_lt_zero _)
      subst hs
      have hi : inner = none := by
        cases inner with
        | none => rfl
        | some state => exact (hf.2 state rfl).elim
      subst hi
      exact ⟨rfl, hf, rfl⟩
    · obtain ⟨t, htm, hget, hi, hres, -⟩ := exists_holding pieces index hr hne hle'
      rw [locationInPiece_eq hget, hres]
      exact lands_composite hget
        (ih t htm ((allInRange_iff pieces).1 hr t htm) _ _ (fits_retargeted hf hget) hi)
  | sub base start stop ih =>
    intro state index hf hle
    cases state <;> try exact hf.elim
    rename_i inner
    obtain ⟨h1, h2, hb⟩ := hr
    have hle' : index ≤ stop - start := hle
    obtain ⟨hl, hf', hs⟩ := ih hb inner (start + index) hf (by omega)
    simp only [locationStep, resolve]
    rw [if_neg (Nat.not_lt.2 hle'), if_pos hle']
    exact ⟨hl, hf', hs⟩
  | transformed output source iho ihs =>
    intro state index hf hle
    cases state <;> try exact hf.elim
    rename_i inner known
    obtain ⟨hl, hf', hs⟩ := iho hr.1 inner index hf.1 hle
    have hsource : (source.locationStep source.opened 0).1 = source.resolve 0 :=
      (ihs hr.2 _ 0 (fits_opened source) (Nat.zero_le _)).1
    have hknown : (known <|> source.resolve 0) = source.resolve 0 := by
      cases known with
      | none => rfl
      | some l => exact (hf.2 l rfl).symm
    simp only [locationStep, resolve]
    rw [hl, hsource, hknown]
    cases output.resolve index with
    | none => exact ⟨rfl, ⟨hf', hf.2⟩, hs⟩
    | some location => exact ⟨rfl, ⟨hf', fun l h => h⟩, hs⟩

/-- **A character out of range is none and moves nothing.** -/
theorem charStep_out (t : Text) : ∀ (state : CursorState) (index : Nat), t.Fits state → t.length ≤ index →
    t.charStep state index = (none, state) := by
  induction t with
  | plain p =>
    intro state index hf hle
    cases state <;> try exact hf.elim
    have : p.chars[index]? = none := Array.getElem?_eq_none hle
    simp only [charStep, this]
  | composite pieces _ =>
    intro state index hf hle
    cases state <;> try exact hf.elim
    simp only [charStep]
    exact if_pos hle
  | sub base start stop _ =>
    intro state index hf hle
    cases state <;> try exact hf.elim
    simp only [charStep]
    exact if_pos hle
  | transformed output source ih _ =>
    intro state index hf hle
    cases state <;> try exact hf.elim
    simp only [charStep, ih _ index hf.1 hle]

/-- **A location out of range is none and moves nothing.** -/
theorem locationStep_out (t : Text) : ∀ (state : CursorState) (index : Nat), t.Fits state → t.length < index →
    t.locationStep state index = (none, state) ∧ t.resolve index = none := by
  induction t with
  | plain p =>
    intro state index hf hlt
    cases state <;> try exact hf.elim
    have : p.place? index = none := if_neg (Nat.not_le.2 hlt)
    simp [locationStep, resolve, this]
  | composite pieces _ =>
    intro state index hf hlt
    cases state <;> try exact hf.elim
    simp only [locationStep, resolve]
    exact ⟨if_pos hlt, if_neg (Nat.not_le.2 hlt)⟩
  | sub base start stop _ =>
    intro state index hf hlt
    cases state <;> try exact hf.elim
    simp only [locationStep, resolve]
    exact ⟨if_pos hlt, if_neg (Nat.not_le.2 hlt)⟩
  | transformed output source ih _ =>
    intro state index hf hlt
    cases state <;> try exact hf.elim
    obtain ⟨h1, h2⟩ := ih _ index hf.1 hlt
    simp [locationStep, resolve, h1, h2]

end Text
end LayeredParse
