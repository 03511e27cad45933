import LayeredParse.Proofs.Text.Lines
import LayeredParse.Proofs.Text.Owners
/-!
# Ends — where a text ends

The location of an index is the one that the plain text has that holds it (`Text.holder?`), which need not be the one that
has the character before it.  The end of a text is right behind its last character as long as, in every layer, the piece
that holds the end has that character (`Text.Joins`), and the next line or column is a number of 32 bits.  Behind an empty
last piece, and at the end of a window where a piece of its base ends, it is wherever the piece that holds it says.
-/
namespace LayeredParse

namespace Plain

theorem place?_origin (p : Plain) {index : Nat} {q : Place} (h : p.place? index = some q) : q.origin = p.origin := by
  unfold place? at h
  split at h
  · cases h
    rfl
  · cases h

theorem place?_fits (p : Plain) {index : Nat} {q : Place} (h : p.place? index = some q) : q.Fits := by
  by_cases hle : index ≤ p.length
  · obtain ⟨q', hq', hfits, -⟩ := p.place?_eq_scan hle
    obtain rfl := Option.some.inj (h.symm.trans hq')
    exact hfits
  · rw [place?, if_neg hle] at h
    cases h

/-- **Characters that follow each other are in places that do**, unless the next line or column starts again from zero. -/
theorem place?_succ (p : Plain) {index : Nat} {c : Char} (h : p.chars[index]? = some c) :
    ∃ q q', p.place? index = some q ∧ p.place? (index + 1) = some q' ∧
      let next := q.next (endsLine c (p.chars.toList.drop (index + 1)))
      (p.length < UInt32.size → (q' = next ↔ next.Fits)) := by
  obtain ⟨hlt, -⟩ := Array.getElem?_eq_some_iff.1 h
  obtain ⟨q, hq, -, -, hwrapped⟩ := p.place?_eq_scan (Nat.le_of_lt hlt)
  obtain ⟨q', hq', -, -, hwrapped'⟩ := p.place?_eq_scan hlt
  refine ⟨q, q', hq, hq', fun hsize => ?_⟩
  rw [← Array.getElem?_toList] at h
  rw [hwrapped (Nat.lt_trans hlt hsize), hwrapped' (Nat.lt_of_le_of_lt hlt hsize), endsLine_eq_breaksAt h]
  exact Place.wrapped_next_eq_iff _ _

end Plain

namespace Location

/-- **Whether a location is right behind another**: in the next place of the same layers. -/
structure Follows (l l' : Location) (ends : Bool) : Prop where
  place_eq : l'.place = l.place.next ends
  parent_eq : l'.parent? = l.parent?

theorem eq_of : ∀ {l l' : Location}, l.place = l'.place → l.parent? = l'.parent? → l = l'
  | source _, source _, hplace, _ => congrArg source hplace
  | produced _ _, produced _ _, hplace, hparent => congr (congrArg produced hplace) (Option.some.inj hparent)

theorem Follows.unique {l l' l'' : Location} {ends : Bool} (h : l.Follows l' ends) (h' : l.Follows l'' ends) : l' = l'' :=
  eq_of (h.place_eq.trans h'.place_eq.symm) (h.parent_eq.trans h'.parent_eq.symm)

theorem place_withParent (l parent : Location) : (l.withParent parent).place = l.place := by
  cases l <;> rfl

theorem parent?_withParent (l parent : Location) : (l.withParent parent).parent? =
    some (match l.parent? with
      | none => parent
      | some below => below.withParent parent) := by
  cases l <;> rfl

/-- The location with the start of a source below it. -/
def attach (l : Location) (source : Text) : Location :=
  match source.resolve 0 with
  | some parent => l.withParent parent
  | none => l

theorem place_attach (l : Location) (source : Text) : (l.attach source).place = l.place := by
  unfold attach
  cases source.resolve 0 with
  | none => rfl
  | some parent => exact place_withParent l parent

theorem parent?_attach {l l' : Location} (h : l'.parent? = l.parent?) (source : Text) :
    (l'.attach source).parent? = (l.attach source).parent? := by
  unfold attach
  cases source.resolve 0 with
  | none => exact h
  | some parent => rw [parent?_withParent, parent?_withParent, h]

theorem place_attachAll : ∀ (sources : List Text) (l : Location), (sources.foldl attach l).place = l.place
  | [], _ => rfl
  | t :: ts, l => (place_attachAll ts (l.attach t)).trans (place_attach l t)

theorem parent?_attachAll : ∀ (sources : List Text) {l l' : Location}, l'.parent? = l.parent? →
    (sources.foldl attach l').parent? = (sources.foldl attach l).parent?
  | [], _, _, h => h
  | t :: ts, _, _, h => parent?_attachAll ts (parent?_attach h t)

end Location

namespace Owner

/-- Where the owner has its index: in its plain text, with the starts of the sources below. -/
def location? (o : Owner) : Option Location :=
  (o.leaf.place? o.index).map fun place => o.sources.foldl Location.attach (.source place)

/-- The same plain text, one character further on. -/
def next (o : Owner) : Owner :=
  { o with index := o.index + 1 }

/-- Whether a line ends after the character in the plain text that owns it. -/
def ends (o : Owner) (c : Char) : Bool :=
  endsLine c (o.leaf.chars.toList.drop (o.index + 1))

theorem location?_fits {o : Owner} {l : Location} (h : o.location? = some l) : l.place.Fits := by
  obtain ⟨q, hq, rfl⟩ := Option.map_eq_some_iff.1 h
  rw [Location.place_attachAll]
  exact o.leaf.place?_fits hq

/-- **Right behind a character its owner has a location in the same layers**, which is the one that follows if its line and
column fit into 32 bits. -/
theorem location?_next {o : Owner} {c : Char} {l : Location} (hc : o.leaf.chars[o.index]? = some c)
    (hl : o.location? = some l) : ∃ l', o.next.location? = some l' ∧ l'.place.origin = l.place.origin ∧
      l'.parent? = l.parent? ∧
      (o.leaf.length < UInt32.size → (l.Follows l' (o.ends c) ↔ (l.place.next (o.ends c)).Fits)) := by
  obtain ⟨q, q', hq, hq', hnext⟩ := o.leaf.place?_succ hc
  rw [location?, hq] at hl
  obtain rfl := Option.some.inj hl
  have hparent := Location.parent?_attachAll o.sources (show (Location.source q').parent? = (Location.source q).parent? from rfl)
  refine ⟨_, congrArg (Option.map _) hq', ?_, hparent, fun hsize => ?_⟩
  · rw [Location.place_attachAll, Location.place_attachAll]
    exact (o.leaf.place?_origin hq').trans (o.leaf.place?_origin hq).symm
  · refine Iff.trans ⟨fun h => ?_, fun h => ⟨?_, hparent⟩⟩ ?_ (b := q' = q.next (o.ends c))
    · have hplace := h.place_eq
      rw [Location.place_attachAll, Location.place_attachAll] at hplace
      exact hplace
    · rw [Location.place_attachAll, Location.place_attachAll]
      exact h
    · rw [Location.place_attachAll]
      exact hnext hsize

end Owner

namespace Text

mutual

/-- The plain text that holds an index, which may be the length: of a concatenation, the piece whose characters contain it,
or the last piece. -/
def holder? : Text → Nat → Option Owner
  | plain p, index => if index ≤ p.length then some ⟨p, index, []⟩ else none
  | composite pieces, index => if index ≤ total (lengths pieces) then holderIn pieces index else none
  | sub base start stop, index => if index ≤ stop - start then holder? base (start + index) else none
  | transformed output source, index =>
    (holder? output index).map fun o => { o with sources := o.sources ++ [source] }

/-- The plain text that holds an index of the pieces, one after the other. -/
def holderIn : List Text → Nat → Option Owner
  | [], _ => none
  | t :: ts, index => if index < length t ∨ ts.isEmpty then holder? t index else holderIn ts (index - length t)

end

mutual

/-- **Whether an index is held, in every layer, by the piece that has the character before it.** -/
def Joins : Text → Nat → Prop
  | plain _, index => 0 < index
  | composite pieces, index => JoinsIn pieces index
  | sub base start _, index => 0 < index ∧ Joins base (start + index)
  | transformed output _, index => Joins output index

/-- Whether an index of the pieces is held by the one that has the character before it. -/
def JoinsIn : List Text → Nat → Prop
  | [], _ => False
  | t :: ts, index => if index < length t ∨ ts.isEmpty then Joins t index else JoinsIn ts (index - length t)

end

/-! ## What holds an index -/

theorem resolveIn_eq_holderIn : ∀ {pieces : List Text} {index : Nat},
    (∀ t ∈ pieces, ∀ index, t.resolve index = (t.holder? index).bind Owner.location?) →
      resolveIn pieces index = (holderIn pieces index).bind Owner.location?
  | [], _, _ => rfl
  | t :: ts, index, h => by
    rw [resolveIn, holderIn]
    split
    · exact h t List.mem_cons_self index
    · exact resolveIn_eq_holderIn fun u hu => h u (List.mem_cons_of_mem t hu)

/-- **The location of an index is the one that its holder has.** -/
theorem resolve_eq_holder (t : Text) : ∀ index, t.resolve index = (t.holder? index).bind Owner.location? := by
  induction t with
  | plain p =>
    intro index
    rw [resolve, holder?]
    by_cases hle : index ≤ p.length
    · rw [if_pos hle]
      rfl
    · rw [if_neg hle, Plain.place?, if_neg hle]
      rfl
  | composite pieces ih =>
    intro index
    rw [resolve, holder?]
    split
    · exact resolveIn_eq_holderIn ih
    · rfl
  | sub base start stop ih =>
    intro index
    rw [resolve, holder?]
    split
    · exact ih (start + index)
    · rfl
  | transformed output source ih _ =>
    intro index
    rw [resolve, holder?, ih index]
    cases output.holder? index with
    | none => rfl
    | some o =>
      show (o.location?).map _ = Owner.location? _
      unfold Owner.location?
      rw [Option.map_map]
      simp only [List.foldl_append, List.foldl_cons, List.foldl_nil]
      rfl

theorem lt_length_of_ownerIn : ∀ {pieces : List Text} {index : Nat} {o : Owner}, ownerIn pieces index = some o →
    (∀ t ∈ pieces, ∀ {index : Nat} {o : Owner}, t.owner? index = some o → index < t.length) →
      index < total (lengths pieces)
  | [], _, _, h, _ => by cases h
  | t :: ts, index, o, h, ih => by
    rw [ownerIn] at h
    rw [lengths, total_cons]
    split at h
    · rename_i hlt
      exact Nat.lt_add_right _ hlt
    · have hrest := lt_length_of_ownerIn h fun u hu => ih u (List.mem_cons_of_mem t hu)
      omega

/-- Only characters have owners. -/
theorem lt_length_of_owner (t : Text) : ∀ {index : Nat} {o : Owner}, t.owner? index = some o → index < t.length := by
  induction t with
  | plain p =>
    intro index o h
    rw [owner?] at h
    split at h
    · assumption
    · cases h
  | composite pieces ih =>
    intro index o h
    exact lt_length_of_ownerIn h ih
  | sub base start stop _ =>
    intro index o h
    rw [owner?] at h
    split at h
    · assumption
    · cases h
  | transformed output source ih _ =>
    intro index o h
    obtain ⟨o', ho', -⟩ := Option.map_eq_some_iff.1 h
    exact ih ho'

theorem not_isEmpty_of_ownerIn {pieces : List Text} {index : Nat} {o : Owner} (h : ownerIn pieces index = some o) :
    ¬pieces.isEmpty = true := by
  cases pieces with
  | nil => cases h
  | cons t ts => exact Bool.false_ne_true

/-- Among the pieces it is enough to look at the one that has the character. -/
theorem ownerIn_holds : ∀ {pieces : List Text} {index : Nat} {o : Owner},
    (∀ t ∈ pieces, ∀ {index : Nat} {o : Owner}, t.owner? index = some o → t.holder? index = some o) →
      ownerIn pieces index = some o → holderIn pieces index = some o
  | [], _, _, _, h => by cases h
  | t :: ts, index, o, hold, h => by
    rw [ownerIn] at h
    rw [holderIn]
    by_cases hlt : index < t.length
    · rw [if_pos hlt] at h
      rw [if_pos (.inl hlt)]
      exact hold t List.mem_cons_self h
    · rw [if_neg hlt] at h
      rw [if_neg (not_or.2 ⟨hlt, not_isEmpty_of_ownerIn h⟩)]
      exact ownerIn_holds (fun u hu => hold u (List.mem_cons_of_mem t hu)) h

/-- **A character is held by its owner.** -/
theorem owner_holds (t : Text) : ∀ {index : Nat} {o : Owner}, t.owner? index = some o → t.holder? index = some o := by
  induction t with
  | plain p =>
    intro index o h
    rw [owner?] at h
    split at h
    · rename_i hlt
      rw [holder?, if_pos (Nat.le_of_lt hlt), h]
    · cases h
  | composite pieces ih =>
    intro index o h
    have hlt : index < total (lengths pieces) := lt_length_of_owner _ h
    rw [holder?, if_pos (Nat.le_of_lt hlt)]
    exact ownerIn_holds ih h
  | sub base start stop ih =>
    intro index o h
    rw [owner?] at h
    split at h
    · rename_i hlt
      rw [holder?, if_pos (Nat.le_of_lt hlt)]
      exact ih h
    · cases h
  | transformed output source ih _ =>
    intro index o h
    obtain ⟨o', ho', rfl⟩ := Option.map_eq_some_iff.1 h
    rw [holder?, ih ho']
    rfl

/-! ## Right behind a character -/

theorem not_joinsIn_zero : ∀ {pieces : List Text}, (∀ t ∈ pieces, ¬t.Joins 0) → ¬JoinsIn pieces 0
  | [], _, h => h
  | t :: ts, hnot, h => by
    rw [JoinsIn] at h
    split at h
    · exact hnot t List.mem_cons_self h
    · rw [Nat.zero_sub] at h
      exact not_joinsIn_zero (fun u hu => hnot u (List.mem_cons_of_mem t hu)) h

theorem not_joins_zero (t : Text) : ¬t.Joins 0 := by
  induction t with
  | plain p => exact Nat.lt_irrefl 0
  | composite pieces ih => exact not_joinsIn_zero ih
  | sub base start stop _ => exact fun h => Nat.lt_irrefl 0 h.1
  | transformed output source ih _ => exact ih

theorem holderIn_of_joinsIn : ∀ {pieces : List Text} {index : Nat} {o : Owner},
    (∀ t ∈ pieces, ∀ {index : Nat} {o : Owner}, t.owner? index = some o → t.Joins (index + 1) →
      t.holder? (index + 1) = some o.next) →
    ownerIn pieces index = some o → JoinsIn pieces (index + 1) → holderIn pieces (index + 1) = some o.next
  | [], _, _, _, h, _ => by cases h
  | t :: ts, index, o, hold, h, hjoins => by
    rw [ownerIn] at h
    rw [JoinsIn] at hjoins
    rw [holderIn]
    by_cases hlt : index < t.length
    · rw [if_pos hlt] at h
      by_cases hin : index + 1 < t.length ∨ ts.isEmpty = true
      · rw [if_pos hin] at hjoins ⊢
        exact hold t List.mem_cons_self h hjoins
      · -- the piece ends with the character, and the index belongs to another
        have hend : index + 1 - t.length = 0 := by
          have hge := Nat.le_of_not_lt fun hlt' => hin (.inl hlt')
          omega
        rw [if_neg hin, hend] at hjoins
        exact absurd hjoins (not_joinsIn_zero fun u _ => not_joins_zero u)
    · rw [if_neg hlt] at h
      have hin : ¬(index + 1 < t.length ∨ ts.isEmpty = true) :=
        not_or.2 ⟨fun hlt' => hlt (Nat.lt_of_succ_lt hlt'), not_isEmpty_of_ownerIn h⟩
      have hrest : index + 1 - t.length = index - t.length + 1 := Nat.succ_sub (Nat.le_of_not_lt hlt)
      rw [if_neg hin, hrest] at hjoins ⊢
      exact holderIn_of_joinsIn (fun u hu => hold u (List.mem_cons_of_mem t hu)) h hjoins

/-- **An index that joins is held by the owner of the character before it.** -/
theorem holder_of_joins (t : Text) : ∀ {index : Nat} {o : Owner}, t.owner? index = some o → t.Joins (index + 1) →
    t.holder? (index + 1) = some o.next := by
  induction t with
  | plain p =>
    intro index o h _
    rw [owner?] at h
    split at h
    · rename_i hlt
      obtain rfl := Option.some.inj h
      exact if_pos hlt
    · cases h
  | composite pieces ih =>
    intro index o h hjoins
    have hlt : index < total (lengths pieces) := lt_length_of_owner _ h
    rw [holder?, if_pos (Nat.succ_le_of_lt hlt)]
    exact holderIn_of_joinsIn ih h hjoins
  | sub base start stop ih =>
    intro index o h hjoins
    rw [owner?] at h
    split at h
    · rename_i hlt
      rw [holder?, if_pos (Nat.succ_le_of_lt hlt)]
      exact ih h hjoins.2
    · cases h
  | transformed output source ih _ =>
    intro index o h hjoins
    obtain ⟨o', ho', rfl⟩ := Option.map_eq_some_iff.1 h
    rw [holder?, ih ho' hjoins]
    rfl

/-! ## Where a text ends -/

theorem joinsIn_concat {last : Text} : ∀ (front : List Text) (index : Nat),
    JoinsIn (front ++ [last]) (total (lengths front) + index) ↔ last.Joins index
  | [], index => by
    rw [List.nil_append, JoinsIn, if_pos (.inr rfl), lengths, total_nil, Nat.zero_add]
  | t :: ts, index => by
    have hbehind : ¬(total (lengths (t :: ts)) + index < t.length ∨ (ts ++ [last]).isEmpty = true) := by
      rw [lengths, total_cons]
      rintro (hlt | hempty)
      · omega
      · simp at hempty
    have hrest : total (lengths (t :: ts)) + index - t.length = total (lengths ts) + index := by
      rw [lengths, total_cons, Nat.add_assoc, Nat.add_sub_cancel_left]
    rw [List.cons_append, JoinsIn, if_neg hbehind, hrest]
    exact joinsIn_concat ts index

/-- **The end of a concatenation is that of its last piece**, whether there is anything in it or not. -/
theorem joins_length_composite (front : List Text) (last : Text) :
    (composite (front ++ [last])).Joins (composite (front ++ [last])).length ↔ last.Joins last.length := by
  have hlength : (composite (front ++ [last])).length = total (lengths front) + last.length := by
    rw [length, lengths_eq_map, List.map_append, ← lengths_eq_map, total_append]
    rfl
  rw [hlength]
  exact joinsIn_concat front last.length

/-- **The end of a window is where its base has it**, which is wherever the rest of the base goes on. -/
theorem joins_length_sub {base : Text} {start stop : Nat} (hle : start ≤ stop) :
    (sub base start stop).Joins (sub base start stop).length ↔ start < stop ∧ base.Joins stop := by
  rw [length, Joins, Nat.add_sub_cancel' hle, Nat.sub_pos_iff_lt]

/-- **Where a text ends.**  The last character of a built text has an owner, a plain text in it, and the location of the end
is the one that the holder of the end has, if it has one.  If the end is held, in every layer, by the piece that has the last
character, it is in the same layers, and right behind that character just if the next column, or the next line, is a number
of 32 bits.  In general it is right behind it exactly if moreover it is where the owner of the last character has its next
index.  (The plain text that has the character is to have fewer characters than there are numbers of 32 bits.) -/
theorem Built.location_length {t : Text} (built : t.Built) (hne : 0 < t.length) :
    ∃ c o l, t.charAt (t.length - 1) = some c ∧ t.owner? (t.length - 1) = some o ∧ o.Accounts c l ∧
      t.location (t.length - 1) = some l ∧
      t.location t.length = (t.holder? t.length).bind Owner.location? ∧
      (t.Joins t.length → ∃ l', t.location t.length = some l' ∧ l'.place.origin = l.place.origin ∧
        l'.parent? = l.parent? ∧
        (o.leaf.length < UInt32.size → (l.Follows l' (o.ends c) ↔ (l.place.next (o.ends c)).Fits))) ∧
      (o.leaf.length < UInt32.size → ((∃ l', t.location t.length = some l' ∧ l.Follows l' (o.ends c)) ↔
        t.location t.length = o.next.location? ∧ (l.place.next (o.ends c)).Fits)) := by
  have hr := built.inRange
  obtain ⟨index, hindex⟩ : ∃ index, t.length = index + 1 := ⟨t.length - 1, by omega⟩
  have hlt : index < t.content.length := by
    rw [← length_eq_length_content t hr, hindex]
    exact Nat.lt_succ_self index
  have hc : t.content[index]? = some t.content[index] := List.getElem?_eq_getElem hlt
  generalize t.content[index] = c at hc
  obtain ⟨o, l, ho, hl, haccounts⟩ := exists_owner t hr hc
  have hlast : o.location? = some l := by
    rw [resolve_eq_holder, owner_holds t ho] at hl
    exact hl
  obtain ⟨l', hnext, horigin, hparent, hfollows⟩ := Owner.location?_next haccounts.char_eq hlast
  have hend : t.location (index + 1) = (t.holder? (index + 1)).bind Owner.location? := by
    rw [location_eq hr, resolve_eq_holder]
  rw [hindex, Nat.add_sub_cancel]
  refine ⟨c, o, l, ?_, ho, haccounts, ?_, hend, fun hjoins => ?_, fun hsize => ⟨?_, ?_⟩⟩
  · rw [charAt_eq hr, hc]
  · rw [location_eq hr, hl]
  · rw [holder_of_joins t ho hjoins] at hend
    exact ⟨l', hend.trans hnext, horigin, hparent, hfollows⟩
  · rintro ⟨l'', hl'', hfollows'⟩
    obtain ⟨holder, -, hholder⟩ := Option.bind_eq_some_iff.1 (hend.symm.trans hl'')
    have hfits := Owner.location?_fits hholder
    rw [hfollows'.place_eq] at hfits
    refine ⟨?_, hfits⟩
    rw [hl'', hnext, ((hfollows hsize).2 hfits).unique hfollows']
  · rintro ⟨heq, hfits⟩
    exact ⟨l', heq.trans hnext, (hfollows hsize).2 hfits⟩

/-- A concatenation that ends in an expansion ends right behind it, on the next line of the same layers.  One that ends in an
empty piece of another file ends there, and so does a window that ends where a file does: neither end is right behind the
last character. -/
theorem location_length_pieces : ∃ t u w : Text, t.Built ∧ u.Built ∧ w.Built ∧
    t.kind = .composite ∧ u.kind = .composite ∧ w.kind = .sub ∧
    t.location 1 = some (.produced ⟨none, 1, 1⟩ (.source ⟨some "m", 1, 1⟩)) ∧
    (∃ l', t.location 2 = some l' ∧ (Location.produced ⟨none, 1, 1⟩ (.source ⟨some "m", 1, 1⟩)).Follows l' true) ∧
    ∀ v ∈ [u, w], v.length = 1 ∧ v.location 0 = some (.source ⟨some "a.h", 1, 1⟩) ∧
      v.location 1 = some (.source ⟨some "b.h", 1, 1⟩) ∧
      ¬∃ l', v.location 1 = some l' ∧ (Location.source ⟨some "a.h", 1, 1⟩).Follows l' false := by
  let expansion : Text := .transformed (.ofString "\n") (.located "m" "yz")
  let t : Text := .composite [.ofString "a", .ofString "", expansion]
  let files (y : String) : Text := .composite [.located "a.h" "x", .located "b.h" y]
  let w : Text := .sub (files "y") 0 1
  have builtT : t.Built := by
    refine .composite _ (fun piece hpiece => ?_)
    simp only [List.mem_cons, List.not_mem_nil, or_false] at hpiece
    rcases hpiece with rfl | rfl | rfl
    · exact .ofString _
    · exact .ofString _
    · exact .transformed (.ofString _) (.locatedAt ..)
  have builtFiles : ∀ y, (files y).Built := fun y => by
    refine .composite _ (fun piece hpiece => ?_)
    simp only [List.mem_cons, List.not_mem_nil, or_false] at hpiece
    rcases hpiece with rfl | rfl
    · exact .locatedAt ..
    · exact .locatedAt ..
  have builtW : w.Built := .subText (builtFiles "y") (show (files "y").subText 0 1 = .ok w from rfl)
  have hlast : t.location 1 = some (.produced ⟨none, 1, 1⟩ (.source ⟨some "m", 1, 1⟩)) := by decide +kernel
  refine ⟨t, files "", w, builtT, builtFiles "", builtW, rfl, rfl, rfl, hlast, ?_, ?_⟩
  · obtain ⟨c, o, l, hc, ho, -, hl, -, hjoins, -⟩ := builtT.location_length (by decide)
    obtain rfl := Option.some.inj (hlast.symm.trans hl)
    have hends : o.ends c = true := by
      cases Option.some.inj (ho.symm.trans rfl)
      obtain rfl : '\n' = c := Option.some.inj (Eq.trans (by decide +kernel) hc)
      decide +kernel
    rw [hends] at hjoins
    obtain ⟨l', hl', -, -, hfollows⟩ :=
      hjoins ((joins_length_composite [.ofString "a", .ofString ""] expansion).2 Nat.one_pos)
    obtain rfl := Option.some.inj (ho.symm.trans rfl)
    exact ⟨l', hl', (hfollows (by decide)).2 (by decide)⟩
  · -- in both, the last character is that of the first file, and the end is in the second
    let first : Owner := ⟨.ofChars ['x'] (some "a.h") 1 1, 0, []⟩
    have hnext : first.next.location? = some (.source ⟨some "a.h", 1, 2⟩) := by decide +kernel
    have hends : first.ends 'x' = false := by decide +kernel
    have hfirst : ∀ v : Text, v.Built → v.length = 1 → v.owner? 0 = some first →
        v.location 0 = some (.source ⟨some "a.h", 1, 1⟩) → v.location 1 = some (.source ⟨some "b.h", 1, 1⟩) →
          ¬∃ l', v.location 1 = some l' ∧ (Location.source ⟨some "a.h", 1, 1⟩).Follows l' false := by
      intro v built hlength howner hlocation hend hfollows
      obtain ⟨c, o, l, -, ho, haccounts, hl, -, -, hiff⟩ := built.location_length (hlength ▸ Nat.one_pos)
      rw [hlength] at ho hl hiff
      obtain rfl := Option.some.inj (hlocation.symm.trans hl)
      obtain rfl := Option.some.inj (howner.symm.trans ho)
      obtain rfl : 'x' = c := Option.some.inj haccounts.char_eq
      rw [hends, hend, hnext] at hiff
      exact absurd ((hiff (by decide)).1 (hend ▸ hfollows)).1 (by decide)
    intro v hv
    simp only [List.mem_cons, List.not_mem_nil, or_false] at hv
    rcases hv with rfl | rfl
    · have hlocation : (files "").location 0 = some (.source ⟨some "a.h", 1, 1⟩) := by decide +kernel
      have hend : (files "").location 1 = some (.source ⟨some "b.h", 1, 1⟩) := by decide +kernel
      exact ⟨rfl, hlocation, hend, hfirst _ (builtFiles "") rfl rfl hlocation hend⟩
    · have hlocation : w.location 0 = some (.source ⟨some "a.h", 1, 1⟩) := by decide +kernel
      have hend : w.location 1 = some (.source ⟨some "b.h", 1, 1⟩) := by decide +kernel
      exact ⟨rfl, hlocation, hend, hfirst _ builtW rfl rfl hlocation hend⟩

/-- Past the largest column a text ends in column zero. -/
example : (locatedAt "a.h" "x" 1 4294967295).Joins 1 ∧
    (locatedAt "a.h" "x" 1 4294967295).location 1 = some (.source ⟨some "a.h", 1, 0⟩) :=
  ⟨Nat.one_pos, by decide +kernel⟩

end Text
end LayeredParse
