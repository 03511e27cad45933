import LayeredParse.Proofs.Text.History
/-!
# Lookups — runs of lookups on one cursor

Characters and locations are looked up on one cursor in any order and at any index.  Each answer is the one that the text
gives without a cursor, and the seats that the cursor is left at are those of the last index in range
(`Text.Built.looks_cursor`).  In particular a text is spelled as its content is.
-/
namespace LayeredParse

/-- A lookup on a cursor. -/
inductive Lookup where
  | charAt (index : Nat)
  | location (index : Nat)

/-- What a lookup answers. -/
inductive Found where
  | char (c : Option Char)
  | location (l : Option Location)

/-- The index that a lookup on a text of the given length reaches, if it is in range. -/
def Lookup.landing? (length : Nat) : Lookup → Option Nat
  | charAt index => if index < length then some index else none
  | location index => if index ≤ length then some index else none

namespace Cursor

/-- Makes a lookup. -/
def look (c : Cursor) : Lookup → Found × Cursor
  | .charAt index => (.char (c.charAt index).1, (c.charAt index).2)
  | .location index => (.location (c.location index).1, (c.location index).2)

/-- Makes lookups one after the other. -/
def looks (c : Cursor) : List Lookup → List Found × Cursor
  | [] => ([], c)
  | l :: ls => ((c.look l).1 :: (looks (c.look l).2 ls).1, (looks (c.look l).2 ls).2)

end Cursor

namespace Text

/-- What the text answers to a lookup without a cursor. -/
def found (t : Text) : Lookup → Found
  | .charAt index => .char t.content[index]?
  | .location index => .location (t.resolve index)

/-- The last index in range that is looked up. -/
def lastLanding? (t : Text) (lookups : List Lookup) : Option Nat :=
  (lookups.filterMap (Lookup.landing? t.length)).getLast?

/-- What a cursor remembers that was last at the given index, if it has been at any: a state that fits the text and has
the seats of that index. -/
def Remembers (t : Text) (last : Option Nat) (state : CursorState) : Prop :=
  t.Fits state ∧
    match last with
    | none => state = t.opened
    | some index => state.seats = t.seats index

theorem Lands.remembers {α : Type} {t : Text} {index : Nat} {answer : Option α} {found : Option α × CursorState}
    (h : t.Lands index answer found) : t.Remembers (some index) found.2 :=
  h.2

/-- **One lookup**: the answer of the text, and the index reached is remembered in place of the one before. -/
theorem look_remembers {t : Text} (hr : t.InRange) {last : Option Nat} {state : CursorState}
    (h : t.Remembers last state) (l : Lookup) :
    ((Cursor.mk t state).look l).1 = t.found l ∧ ((Cursor.mk t state).look l).2.text = t ∧
      t.Remembers ((l.landing? t.length).or last) ((Cursor.mk t state).look l).2.state := by
  cases l with
  | charAt index =>
    simp only [Cursor.look, Cursor.charAt, found, Lookup.landing?]
    by_cases hlt : index < t.length
    · have hl := charStep_lands t hr state index h.1 hlt
      rw [if_pos hlt]
      exact ⟨congrArg Found.char hl.1, trivial, hl.remembers⟩
    · have hn : t.content[index]? = none :=
        List.getElem?_eq_none (length_eq_length_content t hr ▸ Nat.not_lt.1 hlt)
      rw [if_neg hlt, charStep_out t state index h.1 (Nat.not_lt.1 hlt), hn]
      exact ⟨rfl, trivial, h⟩
  | location index =>
    simp only [Cursor.look, Cursor.location, found, Lookup.landing?]
    by_cases hle : index ≤ t.length
    · have hl := locationStep_lands t hr state index h.1 hle
      rw [if_pos hle]
      exact ⟨congrArg Found.location hl.1, trivial, hl.remembers⟩
    · obtain ⟨hs, hn⟩ := locationStep_out t state index h.1 (Nat.not_le.1 hle)
      rw [if_neg hle, hs, hn]
      exact ⟨rfl, trivial, h⟩

/-- **A run of lookups**: the answers of the text, and the last index reached is remembered. -/
theorem looks_remembers {t : Text} (hr : t.InRange) : ∀ (lookups : List Lookup) (last : Option Nat)
    (state : CursorState), t.Remembers last state →
      ((Cursor.mk t state).looks lookups).1 = lookups.map t.found ∧
        t.Remembers ((t.lastLanding? lookups).or last) ((Cursor.mk t state).looks lookups).2.state
  | [], _, _, h => ⟨rfl, h⟩
  | l :: ls, last, state, h => by
    obtain ⟨ha, ht, hs⟩ := look_remembers hr h l
    generalize hc : (Cursor.mk t state).look l = c at ha ht hs
    obtain ⟨answer, ⟨u, next⟩⟩ := c
    obtain rfl : u = t := ht
    obtain ⟨hrest, hlast⟩ := looks_remembers hr ls _ next hs
    have hor : (u.lastLanding? ls).or ((l.landing? u.length).or last) = (u.lastLanding? (l :: ls)).or last := by
      unfold lastLanding?
      rw [List.filterMap_cons]
      cases l.landing? u.length with
      | none => rfl
      | some index =>
        simp only [List.getLast?_cons]
        cases (ls.filterMap (Lookup.landing? u.length)).getLast? <;> rfl
    rw [hor] at hlast
    simp only [Cursor.looks, hc, List.map_cons]
    exact ⟨by rw [hrest, ← ha], hlast⟩

/-! ## Reading a text off -/

theorem read_eq {t : Text} (hr : t.InRange) : ∀ (count index : Nat) (state : CursorState), t.Fits state →
    index + count ≤ t.length → (Cursor.mk t state).read index count = (t.content.drop index).take count
  | 0, _, _, _, _ => rfl
  | count + 1, index, state, hf, hle => by
    obtain ⟨hc, hf', -⟩ := charStep_lands t hr state index hf (by omega)
    have hlt : index < t.content.length := by
      rw [← length_eq_length_content t hr]
      omega
    have ih := read_eq hr count (index + 1) (t.charStep state index).2 hf' (by omega)
    simp only [Cursor.read, Cursor.charAt]
    rw [ih, hc, List.getElem?_eq_getElem hlt, List.drop_eq_getElem_cons hlt]
    rfl

theorem spellAll_eq_flatMap : ∀ (pieces : List Text), spellAll pieces = pieces.flatMap spell
  | [] => rfl
  | t :: ts => by rw [spellAll, spellAll_eq_flatMap ts, List.flatMap_cons]

/-- **A text is spelled as its content is.** -/
theorem spell_eq_content (t : Text) (hr : t.InRange) : t.spell = t.content := by
  induction t with
  | plain p => simp [spell, content]
  | composite pieces ih =>
    have hp := (allInRange_iff pieces).1 hr
    simp only [spell, content]
    rw [spellAll_eq_flatMap, contents_eq_flatMap, List.flatMap_def, List.flatMap_def,
      List.map_congr_left (fun t ht => ih t ht (hp t ht))]
  | sub base start stop _ =>
    obtain ⟨h1, h2, hb⟩ := hr
    simp only [spell, content]
    exact read_eq hb (stop - start) start base.opened (fits_opened base) (by omega)
  | transformed output source ih _ => simpa only [spell, content] using ih hr.1

theorem remembers_opened (t : Text) : t.Remembers none t.opened :=
  ⟨fits_opened t, rfl⟩

/-- What a cursor answers is what the text does. -/
theorem looks_eq_map {t : Text} (hr : t.InRange) (lookups : List Lookup) :
    (t.cursor.looks lookups).1 = lookups.map t.found :=
  (looks_remembers hr lookups none t.opened (remembers_opened t)).1

theorem charAt_eq {t : Text} (hr : t.InRange) (index : Nat) : t.charAt index = t.content[index]? :=
  Found.char.inj (look_remembers hr (remembers_opened t) (.charAt index)).1

theorem location_eq {t : Text} (hr : t.InRange) (index : Nat) : t.location index = t.resolve index :=
  Found.location.inj (look_remembers hr (remembers_opened t) (.location index)).1

theorem location_out {t : Text} {index : Nat} (h : t.length < index) : t.location index = none :=
  congrArg Prod.fst (locationStep_out t t.opened index (fits_opened t) h).1

/-- **A cursor's history does not show.**  A built text has as many characters as its content and is spelled like it.
Whatever is looked up on one cursor, in whatever order, every answer is the character of the content or the location by
recursion on the layers, which is what a fresh cursor answers.  What the cursor remembers fits the text throughout: in
every layer the characters before the active piece are counted right.  The seats, in every layer, are those of the last
index in range, and nothing has moved while there was none. -/
theorem Built.looks_cursor {t : Text} (built : t.Built) :
    t.length = t.content.length ∧ t.toString = String.ofList t.content ∧
      (∀ index, t.charAt index = t.content[index]? ∧ (t.charAt index = none ↔ t.length ≤ index)) ∧
      (∀ index, t.location index = t.resolve index) ∧
      ∀ lookups : List Lookup, (t.cursor.looks lookups).1 = lookups.map t.found ∧
        t.Remembers (t.lastLanding? lookups) (t.cursor.looks lookups).2.state := by
  have hr := built.inRange
  have hlen := length_eq_length_content t hr
  refine ⟨hlen, congrArg String.ofList (spell_eq_content t hr), fun index => ?_, location_eq hr, fun lookups => ?_⟩
  · rw [charAt_eq hr, List.getElem?_eq_none_iff, hlen]
    exact ⟨rfl, Iff.rfl⟩
  · obtain ⟨ha, hm⟩ := looks_remembers hr lookups none t.opened (remembers_opened t)
    rw [Option.or_none] at hm
    exact ⟨ha, hm⟩

/-- A window onto an empty piece and an expansion between two letters, read back and forth and out of range. -/
theorem looks_cursor_window : ∃ t : Text, t.Built ∧ t.kind = .sub ∧
    (t.cursor.looks [.charAt 3, .charAt 0, .location 4, .charAt 4, .location 1]).1 =
      [.char (some 'd'), .char (some 'b'), .location (some (.source ⟨none, 1, 2⟩)), .char none,
        .location (some (.produced ⟨none, 1, 1⟩ (.source ⟨some "m", 1, 1⟩)))] := by
  have built : Built (.composite [.ofString "ab", .ofString "", .transformed (.ofString "c\n") (.locatedAt "m" "xy" 1 1),
      .ofString "d"]) := by
    refine .composite _ (fun t ht => ?_)
    simp only [List.mem_cons, List.not_mem_nil, or_false] at ht
    rcases ht with rfl | rfl | rfl | rfl
    · exact .ofString _
    · exact .ofString _
    · exact .transformed (.ofString _) (.locatedAt ..)
    · exact .ofString _
  have window := @Built.subText _ _ 1 5 built rfl
  exact ⟨_, window, rfl, (window.looks_cursor.2.2.2.2 _).1.trans rfl⟩

end Text
end LayeredParse
