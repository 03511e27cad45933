import LayeredParse.Proofs.Text.Lines
import LayeredParse.Proofs.Text.Lookups
/-!
# Scan — plain text knows the places that a scan passes

`Place.scan` steps over the characters of a text one by one, and looks at each of them and the one after it.  The line
table of plain text finds the same places wherever they fit into 32 bits (`Plain.place?_eq_scan`): an index at the start
of a line is found in the table, and every other goes into it behind an entry, since the first line starts at zero
(`Plain.place?_ofChars`).
-/
namespace LayeredParse
namespace Plain

/-- **The locations of plain text are those of a scan over its characters, where these fit into 32 bits.**  Every index up
to the length has a location, and it is the place that a scan from the first line and column comes to over as many
characters just if line and column of that are numbers of 32 bits.  Otherwise what is past the largest number starts again
from zero, as long as the index is such a number itself.  Beyond the length there is no location.

A scan comes no further from the first line, or from the first column or column 1, than it has characters.  So all the
places fit if the length still fits on top of the first line and column.

The line table is strictly ascending from zero.  The line of an index is where the table has it, if it does; and if not, it
is the one before where the index would go, which is not in front of all lines. -/
theorem place?_ofChars (s : List Char) (origin : Option String) (line column : UInt32) :
    let p := Plain.ofChars s origin line column
    let scan := Place.scan ⟨origin, line.toNat, column.toNat⟩ s
    (∀ index ≤ s.length, ∃ q, (Text.plain p).location index = some (.source q) ∧ (q = scan index ↔ (scan index).Fits) ∧
      (index < UInt32.size → q = (scan index).wrapped)) ∧
    (∀ index, s.length < index → (Text.plain p).location index = none) ∧
    (∀ index, (scan index).line ≤ line.toNat + index ∧ (scan index).column ≤ max column.toNat 1 + index) ∧
    p.lines.toList.Pairwise (· < ·) ∧ p.lines[0]? = some 0 ∧
    ∀ index, (∀ k, p.lines[k]? = some index → Ascending.rank p.lines index = k) ∧
      (index ∉ p.lines.toList → 1 ≤ Ascending.insertion p.lines index ∧
        Ascending.rank p.lines index = Ascending.insertion p.lines index - 1) := by
  intro p scan
  have hascending : p.lines.toList.Pairwise (· < ·) := lineStarts_pairwise s
  have hfirst : p.lines[0]? = some 0 := rfl
  refine ⟨fun index hle => ?_, fun index hlt => Text.location_out hlt,
    Place.scan_le ⟨origin, line.toNat, column.toNat⟩ s, hascending, hfirst, fun index => ⟨fun k hk => ?_,
    Ascending.rank_insertion hascending hfirst (Nat.zero_le index)⟩⟩
  · obtain ⟨q, hq, hfits, hshows, hwrapped⟩ := p.place?_eq_scan hle
    refine ⟨q, ?_, ⟨fun h => ?_, hshows.eq⟩, hwrapped⟩
    · rw [Text.location_eq (t := .plain p) trivial, Text.resolve, hq]
      rfl
    · rw [← h]
      exact hfits
  · have hsorted : p.lines.toList.Pairwise (· ≤ ·) := hascending.imp Nat.le_of_lt
    refine Ascending.rank_eq hsorted hk (Nat.le_refl index) (fun next hnext => ?_)
    rw [← Array.getElem?_toList] at hk hnext
    obtain ⟨hlt, rfl⟩ := List.getElem?_eq_some_iff.1 hk
    obtain ⟨hlt', rfl⟩ := List.getElem?_eq_some_iff.1 hnext
    exact List.pairwise_iff_getElem.1 hascending k (k + 1) hlt hlt' (Nat.lt_succ_self k)

/-- A line that ends in a carriage return and a line feed, an empty one that ends in a carriage return alone, and one that
ends at the end.  The line feed is a column of the line it ends; the last line is empty, and the one before is in the
table.  In a text that begins at the largest column, the second character has column zero. -/
theorem place?_ofChars_breaks :
    let s : List Char := ['a', '\r', '\n', '\r', 'b', '\n']
    let p := Plain.ofChars s (some "main.c") 7 5
    p.lines.toList = [0, 3, 4, 6] ∧
    (Text.plain p).location 2 = some (.source ⟨some "main.c", 7, 7⟩) ∧
    (Text.plain p).location 6 = some (.source ⟨some "main.c", 10, 1⟩) ∧ (Text.plain p).location 7 = none ∧
    Ascending.rank p.lines 4 = 2 ∧ 1 ≤ Ascending.insertion p.lines 2 ∧
      Ascending.rank p.lines 2 = Ascending.insertion p.lines 2 - 1 ∧
    (Text.plain (Plain.ofChars ['x', 'y'] (some "a") 1 4294967295)).location 1 = some (.source ⟨some "a", 1, 0⟩) ∧
    Place.scan ⟨some "a", 1, 4294967295⟩ ['x', 'y'] 1 = ⟨some "a", 1, 4294967296⟩ := by
  intro s p
  obtain ⟨locations, beyond, -, -, -, lines⟩ := place?_ofChars s (some "main.c") 7 5
  obtain ⟨locations', -⟩ := place?_ofChars ['x', 'y'] (some "a") 1 4294967295
  have outside : 2 ∉ p.lines.toList := by decide
  have located : ∀ {index : Nat} {q : Place}, index ≤ s.length → Place.scan ⟨some "main.c", 7, 5⟩ s index = q → q.Fits →
      (Text.plain p).location index = some (.source q) := by
    rintro index _ hle rfl hfits
    obtain ⟨q, hq, hscan, -⟩ := locations index hle
    rw [hq]
    exact congrArg (some <| Location.source ·) (hscan.2 hfits)
  obtain ⟨q, hq, -, hwrapped⟩ := locations' 1 (by decide)
  refine ⟨rfl, located (by decide) rfl (by decide), located (by decide) rfl (by decide), beyond 7 (by decide),
    (lines 4).1 2 rfl, ((lines 2).2 outside).1, ((lines 2).2 outside).2, ?_, rfl⟩
  rw [hq, hwrapped (by decide)]
  rfl

end Plain
end LayeredParse
