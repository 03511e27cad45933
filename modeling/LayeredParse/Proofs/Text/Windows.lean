import LayeredParse.Proofs.Text.Lookups
/-!
# Windows — windows onto texts show what is behind them

Every text looks through to its ground from some index on: a window to its base from where it starts, and any other text to
itself.  A window in range is the text itself or a window onto the same ground (`subText_eq`), so that what a window shows
and what windows onto it are is told in terms of the ground alone (`Built.subText_window`).
-/
namespace LayeredParse

/-- The lookup so many indices further on. -/
def Lookup.onward (start : Nat) : Lookup → Lookup
  | charAt index => charAt (start + index)
  | location index => location (start + index)

namespace Text

variable {t u : Text} {start stop index : Nat}

/-- The text that a text looks through to. -/
def ground : Text → Text
  | sub base _ _ => base
  | t => t

/-- Where a text begins in its ground. -/
def groundStart : Text → Nat
  | sub _ start _ => start
  | _ => 0

theorem subText_eq (t : Text) (start stop : Nat) : t.subText start stop =
    if start ≤ stop ∧ stop ≤ t.length then
      .ok (if start = 0 ∧ stop = t.length then t
        else sub t.ground (t.groundStart + start) (t.groundStart + stop))
    else .error ⟨start, stop, t.length⟩ := by
  unfold subText
  by_cases hin : start ≤ stop ∧ stop ≤ t.length
  · rw [if_pos hin, if_pos hin]
    by_cases hfull : start = 0 ∧ stop = t.length
    · rw [if_pos hfull, if_pos hfull]
    · rw [if_neg hfull, if_neg hfull]
      cases t with
      | sub base first last => rfl
      | plain | composite | transformed => simp only [ground, groundStart, Nat.zero_add]
  · rw [if_neg hin, if_neg hin]

theorem depth_ground (t : Text) : t.ground.depth = t.depth := by
  cases t <;> rfl

theorem resolve_ground (hle : index ≤ t.length) : t.ground.resolve (t.groundStart + index) = t.resolve index := by
  cases t with
  | sub base first last => exact (if_pos hle).symm
  | plain | composite | transformed => exact congrArg _ (Nat.zero_add index)

/-- A text is as many characters of its ground as it has. -/
theorem content_ground (hr : t.InRange) : (t.ground.content.drop t.groundStart).take t.length = t.content := by
  cases t with
  | sub base first last => rfl
  | plain | composite | transformed => rw [length_eq_length_content _ hr]; exact List.take_length

/-! ## What a window shows -/

/-- **Whether a text shows the characters of another in a range**: with their places, one by one or through a cursor, and
with the same windows onto them. -/
structure IsWindow (t : Text) (start stop : Nat) (u : Text) : Prop where
  length_eq : u.length = stop - start
  depth_eq : u.depth = t.depth
  charAt_eq : ∀ i < stop - start, u.charAt i = t.charAt (start + i)
  location_eq : ∀ i ≤ stop - start, u.location i = t.location (start + i)
  looks_eq : ∀ lookups : List Lookup, (∀ l ∈ lookups, (l.landing? u.length).isSome) →
    (u.cursor.looks lookups).1 = (t.cursor.looks (lookups.map (Lookup.onward start))).1
  toString_eq : u.toString = String.ofList ((t.toString.toList.drop start).take (stop - start))
  subText_eq : ∀ first last, first ≤ last → last ≤ u.length →
    u.subText first last = t.subText (start + first) (start + last)

/-- What is between two indices of a run of the characters behind it. -/
theorem drop_take_run (s : List Char) {offset count : Nat} (hle : stop ≤ count) :
    (((s.drop offset).take count).drop start).take (stop - start) =
      (s.drop (offset + start)).take (offset + stop - (offset + start)) := by
  rw [List.drop_take, List.take_take, List.drop_drop, Nat.add_sub_add_left]
  congr 1
  omega

/-- A window has the characters and the places that are behind it, and leads to the same ground. -/
theorem subText_shows (hr : t.InRange) (hu : t.subText start stop = .ok u) :
    u.length = stop - start ∧ u.ground = t.ground ∧ u.groundStart = t.groundStart + start ∧
      u.content = (t.content.drop start).take (stop - start) := by
  rw [Text.subText_eq] at hu
  split at hu
  · rename_i hin
    obtain rfl := Except.ok.inj hu
    split
    · rename_i hfull
      obtain ⟨rfl, rfl⟩ := hfull
      refine ⟨rfl, rfl, rfl, ?_⟩
      rw [List.drop_zero, Nat.sub_zero, length_eq_length_content t hr, List.take_length]
    · refine ⟨Nat.add_sub_add_left _ _ _, rfl, rfl, ?_⟩
      rw [← content_ground hr, drop_take_run _ hin.2]
      rfl
  · cases hu

/-- **A window onto a window is a window onto the text behind it**, the very same. -/
theorem subText_subText (hu : t.subText start stop = .ok u) {first last : Nat} (hfirst : first ≤ last)
    (hlast : last ≤ stop - start) : u.subText first last = t.subText (start + first) (start + last) := by
  rw [Text.subText_eq] at hu
  split at hu
  · rename_i hin
    obtain rfl := Except.ok.inj hu
    have hin' : start + first ≤ start + last ∧ start + last ≤ t.length := by omega
    rw [Text.subText_eq t, if_pos hin']
    split
    · rename_i hfull
      obtain ⟨rfl, rfl⟩ := hfull
      rw [Text.subText_eq, Nat.zero_add, Nat.zero_add, if_pos ⟨hfirst, hlast⟩]
    · rename_i hpart
      -- the window is not the whole text, so no window onto it is
      have hpart' : ¬(start + first = 0 ∧ start + last = t.length) := by omega
      have hlength : length (sub t.ground (t.groundStart + start) (t.groundStart + stop)) = stop - start :=
        Nat.add_sub_add_left _ _ _
      rw [Text.subText_eq, hlength, if_pos ⟨hfirst, hlast⟩, if_neg hpart', ← Nat.add_assoc, ← Nat.add_assoc]
      split
      · rename_i hwhole
        obtain ⟨rfl, rfl⟩ := hwhole
        have hstop : t.groundStart + start + (stop - start) = t.groundStart + stop := by omega
        rw [Nat.add_zero, hstop]
      · rfl
  · cases hu

theorem InRange.isWindow (hr : t.InRange) (hr' : u.InRange) (hu : t.subText start stop = .ok u) :
    t.IsWindow start stop u := by
  obtain ⟨hlength, hground, hstart, hcontent⟩ := subText_shows hr hu
  obtain ⟨hle, hstop, -⟩ := subText_ok hu
  have hresolve : ∀ i ≤ stop - start, u.resolve i = t.resolve (start + i) := by
    intro i hi
    have hi' : start + i ≤ t.length := by omega
    rw [← resolve_ground (hlength ▸ hi), ← resolve_ground hi', hground, hstart, Nat.add_assoc]
  have hchar : ∀ i < stop - start, u.content[i]? = t.content[start + i]? := by
    intro i hi
    rw [hcontent, List.getElem?_take_of_lt hi, List.getElem?_drop]
  refine ⟨hlength, ?_, fun i hi => ?_, fun i hi => ?_, fun lookups hlookups => ?_, ?_, fun first last hfirst hlast => ?_⟩
  · rw [← depth_ground u, hground, depth_ground]
  · rw [charAt_eq hr', charAt_eq hr, hchar i hi]
  · rw [location_eq hr', location_eq hr, hresolve i hi]
  · rw [looks_eq_map hr', looks_eq_map hr, List.map_map]
    refine List.map_congr_left fun l hl => ?_
    have hlanding := hlookups l hl
    rw [hlength] at hlanding
    cases l with
    | charAt i => exact congrArg Found.char (hchar i (by simpa [Lookup.landing?] using hlanding))
    | location i => exact congrArg Found.location (hresolve i (by simpa [Lookup.landing?] using hlanding))
  · rw [toString, toString, spell_eq_content u hr', spell_eq_content t hr, String.toList_ofList, hcontent]
  · exact subText_subText hu hfirst (hlength ▸ hlast)

/-! ## Windows are shallow -/

mutual

/-- Whether no window in the text, in whatever layer, is a window onto a window. -/
def Shallow : Text → Prop
  | plain _ => True
  | composite pieces => AllShallow pieces
  | sub base _ _ => base.kind ≠ .sub ∧ Shallow base
  | transformed output source => Shallow output ∧ Shallow source

/-- Whether no window in the pieces is a window onto a window. -/
def AllShallow : List Text → Prop
  | [] => True
  | t :: ts => Shallow t ∧ AllShallow ts

end

theorem allShallow_iff : ∀ (pieces : List Text), AllShallow pieces ↔ ∀ t ∈ pieces, Shallow t
  | [] => by simp [AllShallow]
  | t :: ts => by simp [AllShallow, allShallow_iff ts]

/-- The ground of a text without windows onto windows is no window. -/
theorem Shallow.ground (h : t.Shallow) : t.ground.kind ≠ .sub ∧ t.ground.Shallow := by
  cases t with
  | sub base first last => exact h
  | plain | composite | transformed => exact ⟨nofun, h⟩

theorem Built.shallow (built : t.Built) : t.Shallow := by
  induction built with
  | ofString s => trivial
  | locatedAt origin s line column => trivial
  | composite pieces _ ih => exact (allShallow_iff pieces).2 ih
  | @subText t u start stop _ hu ih =>
    rw [Text.subText_eq] at hu
    split at hu
    · obtain rfl := Except.ok.inj hu
      split
      · exact ih
      · exact ih.ground
    · cases hu
  | transformed _ _ iho ihs => exact ⟨iho, ihs⟩

/-- **Windows are transparent and compose.**  A window onto a built text is refused exactly if its range is reversed or ends
behind the text.  Otherwise it has the characters of the text in the range, at their places, whichever way they are looked
up, is as deep as the text, and every window onto it is the very window onto the text.  No window in a built text is a
window onto a window. -/
theorem Built.subText_window (built : t.Built) (start stop : Nat) :
    ((∃ e, t.subText start stop = .error e) ↔ stop < start ∨ t.length < stop) ∧
    (∀ e, t.subText start stop = .error e → e = ⟨start, stop, t.length⟩) ∧
    (start ≤ stop → stop ≤ t.length → ∃ u, t.subText start stop = .ok u ∧ u.Built ∧ t.IsWindow start stop u) ∧
    t.Shallow := by
  have hwindow : start ≤ stop → stop ≤ t.length → ∃ u, t.subText start stop = .ok u ∧ u.Built ∧ t.IsWindow start stop u := by
    intro hle hstop
    have hu := Text.subText_eq t start stop
    rw [if_pos ⟨hle, hstop⟩] at hu
    have built' := built.subText hu
    exact ⟨_, hu, built', built.inRange.isWindow built'.inRange hu⟩
  refine ⟨⟨?_, ?_⟩, ?_, hwindow, built.shallow⟩
  · rintro ⟨e, he⟩
    rcases Nat.lt_or_ge stop start with hreversed | hle
    · exact .inl hreversed
    rcases Nat.lt_or_ge t.length stop with hout | hstop
    · exact .inr hout
    obtain ⟨u, hu, -⟩ := hwindow hle hstop
    cases hu.symm.trans he
  · intro hout
    exact ⟨_, (Text.subText_eq t start stop).trans (if_neg (by omega))⟩
  · intro e he
    rw [Text.subText_eq] at he
    split at he
    · cases he
    · exact (Except.error.inj he).symm

/-- A window that begins behind a letter and ends in an expansion, and a window onto it, which is the one onto the text:
its first character comes from the expansion.  A window that ends behind the text is refused. -/
theorem subText_window_expansion : ∃ t u w : Text, t.Built ∧ t.kind = .composite ∧ t.length = 5 ∧
    t.subText 1 4 = .ok u ∧ u.kind = .sub ∧ u.toString = "bc\n" ∧ u.subText 1 3 = .ok w ∧ t.subText 2 4 = .ok w ∧
    w.location 0 = some (.produced ⟨none, 1, 1⟩ (.source ⟨some "m", 1, 1⟩)) ∧ w.charAt 0 = t.charAt 2 ∧
    t.subText 3 6 = .error ⟨3, 6, 5⟩ := by
  let t : Text := .composite [.ofString "ab", .ofString "", .transformed (.ofString "c\n") (.located "m" "xy"), .ofString "d"]
  have built : t.Built := by
    refine .composite _ (fun piece hpiece => ?_)
    simp only [List.mem_cons, List.not_mem_nil, or_false] at hpiece
    rcases hpiece with rfl | rfl | rfl | rfl
    · exact .ofString _
    · exact .ofString _
    · exact .transformed (.ofString _) (.locatedAt ..)
    · exact .ofString _
  obtain ⟨-, -, hwindow, -⟩ := built.subText_window 1 4
  obtain ⟨u, hu, built', hwindow⟩ := hwindow (by decide) (by decide)
  have hle : 3 ≤ u.length := Nat.le_of_eq hwindow.length_eq.symm
  obtain ⟨-, -, hwindow', -⟩ := built'.subText_window 1 3
  obtain ⟨w, hw, -, hwindow'⟩ := hwindow' (by decide) hle
  have hw' : t.subText 2 4 = .ok w := (hwindow.subText_eq 1 3 (by decide) hle).symm.trans hw
  obtain ⟨hrefused, hrange, -, -⟩ := built.subText_window 3 6
  obtain ⟨e, he⟩ := hrefused.2 (.inr (by decide))
  refine ⟨t, u, w, built, rfl, rfl, hu, ?_, ?_, hw, hw', ?_, ?_, he.trans (congrArg _ (hrange e he))⟩
  · obtain rfl := Except.ok.inj (hu.symm.trans rfl)
    rfl
  · rw [hwindow.toString_eq]
    decide +kernel
  · rw [hwindow'.location_eq 0 (by decide), hwindow.location_eq 1 (by decide)]
    decide +kernel
  · rw [hwindow'.charAt_eq 0 (by decide), hwindow.charAt_eq 1 (by decide)]

end Text
end LayeredParse
