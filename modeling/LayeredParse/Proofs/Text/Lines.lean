import LayeredParse.Proofs.Ascending
import LayeredParse.Text.Plain
/-!
# Lines — the line table and a walk over the characters

`Place.after` steps over characters one by one, given what follows them, and `Place.scan` over the first characters of a
text.  `Plain.place?` looks the line up in a table by binary search instead.  The table is strictly ascending
(`lineStarts_pairwise`), so the search finds the last line that starts at or before the index, and the two ways find the
same place, as far as lines and columns of 32 bits can tell (`Plain.place?_eq`).
-/
namespace LayeredParse

/-! ## The table of lines -/

theorem lt_of_mem_lineStartsAfter : ∀ (s : List Char) (offset : Nat), ∀ start ∈ lineStartsAfter offset s, offset < start
  | [], _, _, h => nomatch h
  | c :: rest, offset, start, h => by
    unfold lineStartsAfter at h
    split at h
    · rcases List.mem_cons.1 h with rfl | h
      · exact Nat.lt_succ_self offset
      · exact Nat.lt_of_succ_lt (lt_of_mem_lineStartsAfter rest (offset + 1) start h)
    · exact Nat.lt_of_succ_lt (lt_of_mem_lineStartsAfter rest (offset + 1) start h)

theorem lineStartsAfter_pairwise : ∀ (s : List Char) (offset : Nat), (lineStartsAfter offset s).Pairwise (· < ·)
  | [], _ => .nil
  | c :: rest, offset => by
    unfold lineStartsAfter
    split
    · exact .cons (lt_of_mem_lineStartsAfter rest (offset + 1)) (lineStartsAfter_pairwise rest (offset + 1))
    · exact lineStartsAfter_pairwise rest (offset + 1)

theorem lineStarts_pairwise (s : List Char) : (lineStarts s).Pairwise (· < ·) :=
  .cons (lt_of_mem_lineStartsAfter s 0) (lineStartsAfter_pairwise s 0)

/-! ## Walking over the characters -/

/-- Whether characters end between a carriage return and the line feed that follows it. -/
def splitsBreak (s follow : List Char) : Bool :=
  s.getLast? == some '\r' && follow.head? == some '\n'

/-- Whether a line ends after the character at an index: after a line feed, and after a carriage return that has no line
feed after it. -/
def breaksAt (s : List Char) (index : Nat) : Bool :=
  s[index]? = some '\n' ∨ (s[index]? = some '\r' ∧ s[index + 1]? ≠ some '\n')

theorem endsLine_eq_breaksAt {s : List Char} {index : Nat} {c : Char} (h : s[index]? = some c) :
    endsLine c (s.drop (index + 1)) = breaksAt s index := by
  unfold endsLine breaksAt
  rw [List.head?_drop, h, Bool.eq_iff_iff]
  simp

namespace Place

/-- The place of the next character, where a line has ended or not. -/
def next (p : Place) (ends : Bool) : Place :=
  if ends then ⟨p.origin, p.line + 1, 1⟩ else ⟨p.origin, p.line, p.column + 1⟩

@[simp] theorem next_true (p : Place) : p.next true = ⟨p.origin, p.line + 1, 1⟩ := rfl

@[simp] theorem next_false (p : Place) : p.next false = ⟨p.origin, p.line, p.column + 1⟩ := rfl

theorem next_origin (p : Place) (ends : Bool) : (p.next ends).origin = p.origin := by
  cases ends <;> rfl

/-- The place after characters of which the first sits at `p`, when `follow` comes after them. -/
def after (p : Place) (follow : List Char) : List Char → Place
  | [] => p
  | c :: rest => after (p.next (endsLine c (rest ++ follow))) follow rest

/-- The place after stepping over the first characters of a text that begins at `p`. -/
def scan (p : Place) (s : List Char) : (count : Nat) → Place
  | 0 => p
  | count + 1 => (p.scan s count).next (breaksAt s count)

theorem after_cons (p : Place) (follow : List Char) (c : Char) (rest : List Char) :
    p.after follow (c :: rest) = (p.next (endsLine c (rest ++ follow))).after follow rest := rfl

theorem after_origin (follow : List Char) : ∀ (u : List Char) (p : Place), (p.after follow u).origin = p.origin
  | [], _ => rfl
  | _ :: u, p => (after_origin follow u _).trans (p.next_origin _)

theorem after_append (follow v : List Char) : ∀ (u : List Char) (p : Place),
    p.after follow (u ++ v) = (p.after (v ++ follow) u).after follow v
  | [], _ => rfl
  | c :: u, p => by
    rw [List.cons_append, after_cons, after_cons, List.append_assoc]
    exact after_append follow v u _

/-- A walk goes on where a scan has come to. -/
theorem after_scan (p : Place) (follow : List Char) : ∀ (u behind : List Char),
    (p.scan (behind ++ (u ++ follow)) behind.length).after follow u =
      p.scan (behind ++ (u ++ follow)) (behind.length + u.length)
  | [], _ => rfl
  | c :: u, behind => by
    have hread : (behind ++ (c :: u ++ follow))[behind.length]? = some c := by simp
    have hends : endsLine c (u ++ follow) = breaksAt (behind ++ (c :: u ++ follow)) behind.length := by
      rw [← endsLine_eq_breaksAt hread]
      simp
    have hnext := after_scan p follow u (behind ++ [c])
    rw [List.append_assoc, List.length_append, List.length_singleton] at hnext
    rw [after_cons, hends, List.length_cons, Nat.add_comm u.length, ← Nat.add_assoc]
    exact hnext

theorem after_eq_scan (p : Place) (follow u : List Char) : p.after follow u = p.scan (u ++ follow) u.length := by
  have h := after_scan p follow u []
  rw [List.length_nil, Nat.zero_add] at h
  exact h

/-- A scan goes down by a line or right by a column in each step. -/
theorem scan_le (p : Place) (s : List Char) : ∀ (count : Nat),
    (p.scan s count).line ≤ p.line + count ∧ (p.scan s count).column ≤ max p.column 1 + count
  | 0 => ⟨Nat.le_refl _, Nat.le_max_left _ _⟩
  | count + 1 => by
    obtain ⟨hline, hcolumn⟩ := scan_le p s count
    unfold scan next
    split
    · exact ⟨Nat.succ_le_succ hline, Nat.le_trans (Nat.le_max_right p.column 1) (Nat.le_add_right _ _)⟩
    · exact ⟨Nat.le_succ_of_le hline, Nat.succ_le_succ hcolumn⟩

/-- Walking over characters that begin at `offset`, on a line that starts at `base`, passes as many lines as the table
has starts up to where the walk ends. -/
theorem after_eq (follow : List Char) : ∀ (u : List Char) (p : Place) (base offset : Nat), base ≤ offset →
    ∃ r start, (base :: lineStartsAfter offset (u ++ follow))[r]? = some start ∧ start ≤ offset + u.length ∧
      (∀ next, (base :: lineStartsAfter offset (u ++ follow))[r + 1]? = some next → offset + u.length < next) ∧
      p.after follow u =
        ⟨p.origin, p.line + r, if r = 0 then p.column + u.length else offset + u.length - start + 1⟩
  | [], p, base, offset, hle => by
    refine ⟨0, base, rfl, hle, fun next hnext => ?_, rfl⟩
    exact lt_of_mem_lineStartsAfter follow offset next (List.mem_of_getElem? hnext)
  | c :: u, p, base, offset, hle => by
    have hlen : offset + (c :: u).length = offset + 1 + u.length := by
      rw [List.length_cons]
      omega
    rw [List.cons_append, hlen, after_cons]
    unfold lineStartsAfter
    split
    · rename_i hends
      obtain ⟨r, start, hr, hstart, hnext, hafter⟩ := after_eq follow u ⟨p.origin, p.line + 1, 1⟩ (offset + 1)
        (offset + 1) (Nat.le_refl _)
      refine ⟨r + 1, start, hr, hstart, hnext, ?_⟩
      rw [hends, next_true, hafter, if_neg (Nat.succ_ne_zero r)]
      by_cases h0 : r = 0
      · subst h0
        obtain rfl : offset + 1 = start := Option.some.inj hr
        rw [if_pos rfl, Nat.add_sub_cancel_left, Nat.add_comm 1]
      · rw [if_neg h0, Nat.add_assoc, Nat.add_comm 1 r]
    · rename_i hends
      obtain ⟨r, start, hr, hstart, hnext, hafter⟩ := after_eq follow u ⟨p.origin, p.line, p.column + 1⟩ base
        (offset + 1) (Nat.le_succ_of_le hle)
      refine ⟨r, start, hr, hstart, hnext, ?_⟩
      rw [eq_false_of_ne_true hends, next_false, hafter, List.length_cons, Nat.add_assoc p.column,
        Nat.add_comm 1]

end Place

/-! ## Lines and columns of 32 bits -/

/-- A sum with a number that is cut down to 32 bits: exact if it fits, and otherwise what is left of it past the largest
number, unless the number was cut down. -/
theorem toNat_add_ofNatClamp (a : UInt32) (n : Nat) : (a.toNat + n < UInt32.size → (a + .ofNatClamp n).toNat = a.toNat + n) ∧
    (n < UInt32.size → (a + .ofNatClamp n).toNat = (a.toNat + n) % UInt32.size) := by
  have hexact (hn : n < UInt32.size) : (a + .ofNatClamp n).toNat = (a.toNat + n) % UInt32.size := by
    rw [UInt32.toNat_add, UInt32.toNat_ofNatClamp_of_lt hn]
  refine ⟨fun h => ?_, hexact⟩
  rw [hexact (Nat.lt_of_le_of_lt (Nat.le_add_left n _) h), Nat.mod_eq_of_lt h]

namespace Place

/-- Whether line and column are numbers of 32 bits. -/
def Fits (p : Place) : Prop :=
  p.line < UInt32.size ∧ p.column < UInt32.size

instance (p : Place) : Decidable p.Fits :=
  inferInstanceAs (Decidable (_ ∧ _))

/-- The place with a line and a column that start again from zero past the largest number of 32 bits. -/
def wrapped (p : Place) : Place :=
  ⟨p.origin, p.line % UInt32.size, p.column % UInt32.size⟩

theorem wrapped_fits (p : Place) : p.wrapped.Fits :=
  ⟨Nat.mod_lt _ (Nat.zero_lt_succ _), Nat.mod_lt _ (Nat.zero_lt_succ _)⟩

/-- The next place is where one expects it unless its line or column starts again from zero. -/
theorem wrapped_next_eq_iff (p : Place) (ends : Bool) :
    (p.next ends).wrapped = p.wrapped.next ends ↔ (p.wrapped.next ends).Fits := by
  refine ⟨fun h => h ▸ wrapped_fits _, fun h => ?_⟩
  have hsucc {n : Nat} (hn : n % UInt32.size + 1 < UInt32.size) : (n + 1) % UInt32.size = n % UInt32.size + 1 := by
    rw [Nat.add_mod, Nat.mod_eq_of_lt (show 1 < UInt32.size by decide), Nat.mod_eq_of_lt hn]
  cases ends with
  | true => exact congrArg (Place.mk p.origin · 1) (hsucc h.1)
  | false => exact congrArg (Place.mk p.origin (p.line % UInt32.size)) (hsucc h.2)

/-- Whether a place has the line and the column of another, as far as they fit into 32 bits. -/
structure Shows (q p : Place) : Prop where
  origin_eq : q.origin = p.origin
  line_eq : p.line < UInt32.size → q.line = p.line
  column_eq : p.column < UInt32.size → q.column = p.column

variable {p q r : Place}

theorem Shows.trans (h : r.Shows q) (h' : q.Shows p) : r.Shows p where
  origin_eq := h.origin_eq.trans h'.origin_eq
  line_eq hp := by
    have hq := h'.line_eq hp
    exact (h.line_eq (hq ▸ hp)).trans hq
  column_eq hp := by
    have hq := h'.column_eq hp
    exact (h.column_eq (hq ▸ hp)).trans hq

theorem Shows.eq (h : q.Shows p) (hfits : p.Fits) : q = p := by
  obtain ⟨_, _, _⟩ := q
  obtain ⟨_, _, _⟩ := p
  obtain ⟨rfl, hline, hcolumn⟩ := h
  obtain rfl := hline hfits.1
  obtain rfl := hcolumn hfits.2
  rfl

theorem Shows.next (h : q.Shows p) : ∀ (ends : Bool), (q.next ends).Shows (p.next ends)
  | true => ⟨h.origin_eq, fun hp => congrArg (· + 1) (h.line_eq (Nat.lt_of_succ_lt hp)), fun _ => rfl⟩
  | false => ⟨h.origin_eq, h.line_eq, fun hp => congrArg (· + 1) (h.column_eq (Nat.lt_of_succ_lt hp))⟩

/-- A walk does not lose sight of numbers that fit. -/
theorem Shows.after (follow : List Char) : ∀ (u : List Char) {p q : Place}, q.Shows p →
    (q.after follow u).Shows (p.after follow u)
  | [], _, _, h => h
  | _ :: u, _, _, h => Shows.after follow u (h.next _)

end Place

namespace Plain

def start (p : Plain) : Place :=
  ⟨p.origin, p.firstLine.toNat, p.firstColumn.toNat⟩

/-- What the table says of the end of a walk, and what is computed from it. -/
theorem place?_table (p : Plain) {u follow : List Char} (h : p.chars.toList = u ++ follow) :
    ∃ r start, r ≤ u.length ∧
      p.start.after follow u = ⟨p.origin, p.firstLine.toNat + r,
        if r = 0 then p.firstColumn.toNat + u.length else u.length - start + 1⟩ ∧
      p.place? u.length = some ⟨p.origin, (p.firstLine + .ofNatClamp r).toNat,
        if r = 0 then (p.firstColumn + .ofNatClamp u.length).toNat
        else (1 + UInt32.ofNatClamp (u.length - start)).toNat⟩ := by
  obtain ⟨r, start, hr, hstart, hnext, hafter⟩ := Place.after_eq follow u p.start 0 0 (Nat.le_refl 0)
  have hlines : p.lines = (0 :: lineStartsAfter 0 (u ++ follow)).toArray := by rw [p.lines_eq, h, lineStarts]
  have hle : u.length ≤ p.length := by
    unfold Plain.length
    rw [← Array.length_toList, h, List.length_append]
    exact Nat.le_add_right _ _
  rw [Nat.zero_add] at hstart hnext hafter
  have hsorted : p.lines.toList.Pairwise (· ≤ ·) := by
    rw [hlines]
    exact (lineStarts_pairwise (u ++ follow)).imp Nat.le_of_lt
  have hrank : Ascending.rank p.lines u.length = r := by
    refine Ascending.rank_eq hsorted (e := start) ?_ hstart (fun next hn => hnext next ?_)
    · rw [hlines, List.getElem?_toArray]
      exact hr
    · rw [hlines, List.getElem?_toArray] at hn
      exact hn
  have hentry : p.lines.getD r 0 = start := by
    rw [hlines]
    simp [hr]
  refine ⟨r, start, ?_, hafter, ?_⟩
  · -- a walk goes down by no more lines than it has characters
    have hline := (Place.scan_le p.start (u ++ follow) u.length).1
    rw [← Place.after_eq_scan, hafter] at hline
    exact Nat.le_of_add_le_add_left hline
  · unfold place?
    simp only
    rw [if_pos hle, hrank, hentry, UInt32.add_comm _ 1]
    by_cases h0 : r = 0
    · subst h0
      obtain rfl : 0 = start := Option.some.inj hr
      rfl
    · rw [if_neg h0, if_neg h0]

/-- **The table of lines finds the place that a walk over the characters finds**, as far as 32 bits can tell.  Beyond that,
its line and its column start again from zero, for the first 4294967296 indices. -/
theorem place?_eq (p : Plain) {u follow : List Char} (h : p.chars.toList = u ++ follow) :
    ∃ q, p.place? u.length = some q ∧ q.Fits ∧ q.Shows (p.start.after follow u) ∧
      (u.length < UInt32.size → q = (p.start.after follow u).wrapped) := by
  obtain ⟨r, start, hr, hafter, hplace⟩ := p.place?_table h
  obtain ⟨hline, hline'⟩ := toNat_add_ofNatClamp p.firstLine r
  rw [hplace, hafter]
  by_cases h0 : r = 0
  · obtain ⟨hcolumn, hcolumn'⟩ := toNat_add_ofNatClamp p.firstColumn u.length
    simp only [if_pos h0]
    refine ⟨_, rfl, ⟨UInt32.toNat_lt_size _, UInt32.toNat_lt_size _⟩, ⟨rfl, hline, hcolumn⟩, fun hsize => ?_⟩
    rw [hline' (Nat.lt_of_le_of_lt hr hsize), hcolumn' hsize, Place.wrapped]
  · obtain ⟨hcolumn, hcolumn'⟩ := toNat_add_ofNatClamp 1 (u.length - start)
    simp only [if_neg h0, Nat.add_comm _ 1]
    refine ⟨_, rfl, ⟨UInt32.toNat_lt_size _, UInt32.toNat_lt_size _⟩, ⟨rfl, hline, hcolumn⟩, fun hsize => ?_⟩
    rw [hline' (Nat.lt_of_le_of_lt hr hsize), hcolumn' (Nat.lt_of_le_of_lt (Nat.sub_le _ _) hsize), Place.wrapped,
      UInt32.toNat_one]

/-- **The line table finds the place that a scan comes to**, with the same reservation. -/
theorem place?_eq_scan (p : Plain) {index : Nat} (hle : index ≤ p.length) :
    ∃ q, p.place? index = some q ∧ q.Fits ∧ q.Shows (p.start.scan p.chars.toList index) ∧
      (index < UInt32.size → q = (p.start.scan p.chars.toList index).wrapped) := by
  have hlength : (p.chars.toList.take index).length = index := List.length_take_of_le hle
  have hplace := p.place?_eq (List.take_append_drop index p.chars.toList).symm
  rw [Place.after_eq_scan, List.take_append_drop, hlength] at hplace
  exact hplace

end Plain
end LayeredParse
