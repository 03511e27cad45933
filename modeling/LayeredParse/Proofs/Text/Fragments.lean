import LayeredParse.Proofs.Text.Lines
import LayeredParse.Proofs.Text.Lookups
/-!
# Fragments — a text cut up and put together again

`Text.cut` makes a text of every fragment, at the line and column that the whole text reports where the fragment begins.
Put together they answer like the whole text, wherever it is cut, at every index of which line and column fit into 32 bits
(`Text.cut_composite`).  Of two numbers that do not fit, the one that the whole text reports has started again from zero,
and a fragment may begin at neither line zero nor column zero.  What comes after a fragment matters to the places in it
only behind a carriage return that ends it, and there the next fragment answers (`Walks.cons`).
-/
namespace LayeredParse

namespace Place

theorem after_congr {follow follow' : List Char} (h : follow.head? = follow'.head?) : ∀ (u : List Char) (p : Place),
    p.after follow u = p.after follow' u
  | [], _ => rfl
  | c :: u, p => by
    have hends : endsLine c (u ++ follow) = endsLine c (u ++ follow') := by
      unfold endsLine
      rw [List.head?_append, List.head?_append, h]
    rw [after_cons, after_cons, hends]
    exact after_congr h u _

theorem one_le_next {p : Place} (h : 1 ≤ p.line ∧ 1 ≤ p.column) : ∀ (ends : Bool),
    1 ≤ (p.next ends).line ∧ 1 ≤ (p.next ends).column
  | true => ⟨Nat.le_succ_of_le h.1, Nat.le_refl 1⟩
  | false => ⟨h.1, Nat.le_succ_of_le h.2⟩

theorem one_le_after (follow : List Char) : ∀ (u : List Char) (p : Place), 1 ≤ p.line ∧ 1 ≤ p.column →
    1 ≤ (p.after follow u).line ∧ 1 ≤ (p.after follow u).column
  | [], _, h => h
  | _ :: u, _, h => one_le_after follow u _ (one_le_next h _)

end Place

namespace Text

/-- The texts of consecutive fragments, the first of which begins at `start`: each sits at the line and column that the
whole text reports there. -/
def cut (whole : Text) (origin : String) : (start : Nat) → List String → Option (List Text)
  | _, [] => some []
  | start, s :: rest =>
    match whole.location start with
    | none => none
    | some l =>
      (cut whole origin (start + s.length) rest).map (locatedAt origin s l.place.line l.place.column :: ·)

/-- Whether the places are those of a walk over the characters, of which the first sits at `p`, as far as 32 bits can
tell. -/
def Walks (p : Place) (s : List Char) (locate : Nat → Option Location) : Prop :=
  ∀ u follow, s = u ++ follow → ∃ q, locate u.length = some (.source q) ∧ q.Shows (p.after follow u)

variable {origin : String} {p q : Place}

theorem Walks.shows {s : List Char} {locate : Nat → Option Location} (h : Walks q s locate) (hq : q.Shows p) :
    Walks p s locate := by
  intro u follow hu
  obtain ⟨r, hr, hshows⟩ := h u follow hu
  exact ⟨r, hr, hshows.trans (hq.after follow u)⟩

/-- The place at an index, which is that of a scan if it fits. -/
theorem Walks.scan {s : List Char} {locate : Nat → Option Location} (h : Walks p s locate) {index : Nat}
    (hle : index ≤ s.length) : ∃ q, locate index = some (.source q) ∧ ((p.scan s index).Fits → q = p.scan s index) := by
  obtain ⟨q, hq, hshows⟩ := h _ _ (List.take_append_drop index s).symm
  rw [Place.after_eq_scan, List.take_append_drop, List.length_take_of_le hle] at hshows
  rw [List.length_take_of_le hle] at hq
  exact ⟨q, hq, hshows.eq⟩

theorem walks_plain (p : Plain) : Walks p.start p.chars.toList (plain p).resolve := by
  intro u follow h
  obtain ⟨q, hq, -, hshows, -⟩ := p.place?_eq h
  exact ⟨q, congrArg (Option.map Location.source) hq, hshows⟩

theorem walks_locatedAt (origin s : String) (line column : Nat) :
    Walks ⟨some origin, max line 1, max column 1⟩ s.toList (locatedAt origin s line column).resolve :=
  (walks_plain (.ofChars s.toList (some origin) (.ofNatClamp (max line 1)) (.ofNatClamp (max column 1)))).shows
    ⟨rfl, UInt32.toNat_ofNatClamp_of_lt, UInt32.toNat_ofNatClamp_of_lt⟩

/-- A text at what is seen of a line and a column that count from 1 begins there. -/
theorem walks_locatedAt_place (horigin : p.origin = some origin) (hone : 1 ≤ p.line ∧ 1 ≤ p.column) (hq : q.Shows p)
    (s : String) : Walks p s.toList (locatedAt origin s q.line q.column).resolve := by
  refine (walks_locatedAt origin s q.line q.column).shows ⟨horigin.symm, fun hline => ?_, fun hcolumn => ?_⟩
  · show max q.line 1 = p.line
    rw [hq.line_eq hline, Nat.max_eq_left hone.1]
  · show max q.column 1 = p.column
    rw [hq.column_eq hcolumn, Nat.max_eq_left hone.2]

theorem Walks.single {s : List Char} {t : Text} (h : Walks p s t.resolve) : Walks p s (resolveIn [t]) := by
  intro u follow hu
  rw [resolveIn, if_pos (.inr rfl)]
  exact h u follow hu

/-- **A piece and then the others**: an index within the piece is followed by the same character in the piece as in all of
them together, and every other index belongs to the others. -/
theorem Walks.cons {s v : List Char} {t : Text} {ts : List Text} (hlength : t.length = s.length) (hne : ts.isEmpty = false)
    (ht : Walks p s t.resolve) (hts : Walks (p.after v s) v (resolveIn ts)) : Walks p (s ++ v) (resolveIn (t :: ts)) := by
  intro u follow hu
  rw [resolveIn, hlength, hne]
  by_cases hlt : u.length < s.length
  · obtain ⟨c, tail, htail⟩ : ∃ c tail, s = u ++ c :: tail := by
      obtain ⟨tail, rfl⟩ := List.prefix_of_prefix_length_le (List.prefix_append u follow)
        (hu ▸ List.prefix_append s v) (Nat.le_of_lt hlt)
      cases tail with
      | nil => simp at hlt
      | cons c tail => exact ⟨c, tail, rfl⟩
    have hfollow : follow = (c :: tail) ++ v := by
      rw [htail, List.append_assoc] at hu
      exact (List.append_cancel_left hu).symm
    rw [if_pos (.inl hlt), hfollow, ← Place.after_congr (show (c :: tail).head? = (c :: tail ++ v).head? from rfl)]
    exact ht u _ htail
  · obtain ⟨w, rfl⟩ : s <+: u :=
      List.prefix_of_prefix_length_le (List.prefix_append s v) (hu ▸ List.prefix_append u follow) (Nat.le_of_not_lt hlt)
    obtain rfl : v = w ++ follow := by
      rw [List.append_assoc] at hu
      exact List.append_cancel_left hu
    have hw : (s ++ w).length - s.length = w.length := by simp
    rw [if_neg (by simp), hw, Place.after_append]
    exact hts w follow rfl

/-- **What is cut off a text from an index on has the characters and the places of the text from there on.** -/
theorem cut_walks {whole : Text} (horigin : p.origin = some origin) (hone : 1 ≤ p.line ∧ 1 ≤ p.column)
    (hwhole : Walks p whole.content whole.location) : ∀ (first : String) (rest : List String) (behind : List Char),
      whole.content = behind ++ (first :: rest).flatMap String.toList →
        ∃ pieces, whole.cut origin behind.length (first :: rest) = some pieces ∧ (∀ t ∈ pieces, t.Built) ∧
          pieces.isEmpty = false ∧ contents pieces = (first :: rest).flatMap String.toList ∧
          Walks (p.after ((first :: rest).flatMap String.toList) behind) ((first :: rest).flatMap String.toList)
            (resolveIn pieces)
  | first, rest, behind, hcontent => by
    obtain ⟨q, hhere, hshows⟩ := hwhole behind _ hcontent
    have hfirst := walks_locatedAt_place ((Place.after_origin ((first :: rest).flatMap String.toList) behind p).trans horigin)
      (Place.one_le_after ((first :: rest).flatMap String.toList) behind p hone) hshows first
    generalize hr : p.after ((first :: rest).flatMap String.toList) behind = r at hfirst ⊢
    have hchars : (locatedAt origin first q.line q.column).content = first.toList := by
      simp [content, locatedAt, Plain.ofChars]
    cases rest with
    | nil =>
      rw [List.flatMap_singleton]
      refine ⟨[locatedAt origin first q.line q.column], ?_, List.forall_mem_singleton.2 (.locatedAt ..), rfl, ?_,
        hfirst.single⟩
      · rw [cut, hhere]
        rfl
      · rw [contents, contents, List.append_nil, hchars]
    | cons second rest =>
      rw [List.flatMap_cons] at hcontent hr ⊢
      rw [← List.append_assoc] at hcontent
      obtain ⟨pieces, hcut, hbuilt, hne, hcontents, hrest⟩ :=
        cut_walks horigin hone hwhole second rest (behind ++ first.toList) hcontent
      rw [List.length_append, String.length_toList] at hcut
      rw [Place.after_append, hr] at hrest
      refine ⟨locatedAt origin first q.line q.column :: pieces, ?_, List.forall_mem_cons.2 ⟨.locatedAt .., hbuilt⟩, rfl,
        ?_, hfirst.cons ?_ hne hrest⟩
      · rw [cut, hhere]
        simp only [hcut]
        rfl
      · rw [contents, hcontents, hchars]
      · simp [length, locatedAt, Plain.length, Plain.ofChars]

/-- Texts with the same characters cannot be told apart by looking up things that have the same locations in both. -/
theorem looks_congr {t u : Text} (ht : t.Built) (hu : u.Built) (hcontent : t.content = u.content) {lookups : List Lookup}
    (hlocation : ∀ index, .location index ∈ lookups → t.location index = u.location index) :
    (t.cursor.looks lookups).1 = (u.cursor.looks lookups).1 := by
  rw [looks_eq_map ht.inRange, looks_eq_map hu.inRange]
  refine List.map_congr_left (fun l hl => ?_)
  cases l with
  | charAt index => simp only [found, hcontent]
  | location index => simp only [found, ← location_eq ht.inRange, ← location_eq hu.inRange, hlocation index hl]

/-- **Fragments put together again are the text that they were cut from, where lines and columns fit into 32 bits.**
However a text is cut into fragments, empty ones and cuts between a carriage return and a line feed included: it has a
location at every cut, and the fragments at those lines and columns, one after the other, have its characters, and at every
index that a scan comes to with a line and a column of 32 bits its location, which is that of the scan.  So a cursor on the
fragments answers whatever is looked up there like a cursor on the text. -/
theorem cut_composite (origin : String) (line column : Nat) (first : String) (rest : List String) :
    let whole := locatedAt origin (String.join (first :: rest)) line column
    let scan := Place.scan ⟨some origin, max line 1, max column 1⟩ whole.content
    ∃ pieces, whole.cut origin 0 (first :: rest) = some pieces ∧
      (composite pieces).length = whole.length ∧ (composite pieces).toString = String.join (first :: rest) ∧
      (∀ index, (composite pieces).charAt index = whole.charAt index ∧
        ((scan index).Fits → (composite pieces).location index = whole.location index)) ∧
      (∀ index ≤ whole.length, ∃ place place', whole.location index = some (.source place) ∧
        (composite pieces).location index = some (.source place') ∧
          ((scan index).Fits → place = scan index ∧ place' = scan index)) ∧
      ∀ lookups, (∀ index, .location index ∈ lookups → (scan index).Fits) →
        ((composite pieces).cursor.looks lookups).1 = (whole.cursor.looks lookups).1 := by
  intro whole scan
  have hwhole : whole.Built := .locatedAt ..
  have hcontent : whole.content = (first :: rest).flatMap String.toList := by
    simp [whole, content, locatedAt, Plain.ofChars, String.toList_join]
  have hwalks : Walks ⟨some origin, max line 1, max column 1⟩ whole.content whole.location := by
    rw [funext (location_eq hwhole.inRange), hcontent, ← String.toList_join]
    exact walks_locatedAt origin _ line column
  obtain ⟨pieces, hcut, hbuilt, -, hcontents, hrest⟩ :=
    cut_walks rfl ⟨Nat.le_max_right _ _, Nat.le_max_right _ _⟩ hwalks first rest [] hcontent
  have hglued : (composite pieces).Built := .composite pieces hbuilt
  have hsame : (composite pieces).content = whole.content := hcontents.trans hcontent.symm
  have hlength : (composite pieces).length = whole.length := by
    rw [length_eq_length_content _ hglued.inRange, length_eq_length_content _ hwhole.inRange, hsame]
  have hplaces : ∀ index ≤ whole.length, ∃ place place', whole.location index = some (.source place) ∧
      (composite pieces).location index = some (.source place') ∧
        ((scan index).Fits → place = scan index ∧ place' = scan index) := by
    intro index hle
    have hin : index ≤ total (lengths pieces) := Nat.le_trans hle (Nat.le_of_eq hlength.symm)
    rw [length_eq_length_content _ hwhole.inRange] at hle
    rw [← hcontent] at hrest
    obtain ⟨place, hw, hplace⟩ := hwalks.scan hle
    obtain ⟨place', hg, hplace'⟩ := hrest.scan hle
    refine ⟨place, place', hw, ?_, fun hfits => ⟨hplace hfits, hplace' hfits⟩⟩
    rw [location_eq hglued.inRange, resolve, if_pos hin, hg]
  have hlocation : ∀ index, (scan index).Fits → (composite pieces).location index = whole.location index := by
    intro index hfits
    by_cases hle : index ≤ whole.length
    · obtain ⟨place, place', hw, hg, hscan⟩ := hplaces index hle
      rw [hw, hg, (hscan hfits).1, (hscan hfits).2]
    · rw [location_out (Nat.lt_of_not_le hle), location_out (hlength ▸ Nat.lt_of_not_le hle)]
  refine ⟨pieces, hcut, hlength, ?_, fun index => ⟨?_, hlocation index⟩, hplaces, fun lookups hfits =>
    looks_congr hglued hwhole hsame fun index hindex => hlocation index (hfits index hindex)⟩
  · rw [toString, spell_eq_content _ hglued.inRange, hsame, hcontent, ← String.toList_join, String.ofList_toList]
  · rw [charAt_eq hglued.inRange, charAt_eq hwhole.inRange, hsame]

/-- The line feed after a cut ends the line that the carriage return before the cut did not. -/
example : ∃ pieces, (locatedAt "a.c" "x\r\ny" 7 5).cut "a.c" 0 ["x\r", "", "\ny"] = some pieces ∧
    (composite pieces).location 2 = some (.source ⟨some "a.c", 7, 7⟩) ∧
      (composite pieces).location 3 = some (.source ⟨some "a.c", 8, 1⟩) :=
  ⟨_, rfl, by decide +kernel, by decide +kernel⟩

/-- Past the largest column the text has column zero, where no fragment can begin. -/
example : ∃ pieces, (locatedAt "a.c" "xy" 1 4294967295).cut "a.c" 0 ["x", "y"] = some pieces ∧
    (locatedAt "a.c" "xy" 1 4294967295).location 1 = some (.source ⟨some "a.c", 1, 0⟩) ∧
      (composite pieces).location 1 = some (.source ⟨some "a.c", 1, 1⟩) :=
  ⟨_, rfl, by decide +kernel, by decide +kernel⟩

end Text
end LayeredParse
