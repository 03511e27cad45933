import LayeredParse.Proofs.Text.Lookups
/-!
# Owners — which layer a character comes from

Every character of a text is a character of one of the plain texts in it, which `Text.owner?` finds by going down the
layers, with the sources of the transformations on the way.  The text has it at its place in that plain text, and below
that in the places of the starts of those sources, from the innermost one out (`Text.exists_owner`).
-/
namespace LayeredParse

theorem Location.layers_withParent (parent : Location) : ∀ (l : Location),
    (l.withParent parent).layers = l.layers ++ parent.layers
  | source _ => rfl
  | produced _ below => by rw [withParent, layers, layers, layers_withParent parent below, List.cons_append]

/-- The plain text that a character comes from, where in it, and the sources of the transformations around it, from the
innermost one out. -/
structure Owner where
  leaf : Plain
  index : Nat
  sources : List Text

namespace Owner

/-- The places that the sources start at, layer by layer. -/
def below (o : Owner) : List Place :=
  o.sources.flatMap fun source =>
    match source.location 0 with
    | some l => l.layers
    | none => []

/-- Whether a character is the owner's, and a location that of the character in it, with the starts of the sources
below. -/
structure Accounts (o : Owner) (c : Char) (l : Location) : Prop where
  char_eq : o.leaf.chars[o.index]? = some c
  layers_eq : ∃ place, o.leaf.place? o.index = some place ∧ l.layers = place :: o.below

end Owner

namespace Text

mutual

/-- The owner of the character at an index. -/
def owner? : Text → Nat → Option Owner
  | plain p, index => if index < p.length then some ⟨p, index, []⟩ else none
  | composite pieces, index => ownerIn pieces index
  | sub base start stop, index => if index < stop - start then owner? base (start + index) else none
  | transformed output source, index =>
    (owner? output index).map fun o => { o with sources := o.sources ++ [source] }

/-- The owner of the character at an index of the pieces, one after the other. -/
def ownerIn : List Text → Nat → Option Owner
  | [], _ => none
  | t :: ts, index => if index < length t then owner? t index else ownerIn ts (index - length t)

end

/-- Whether the character at an index has an owner that accounts for it. -/
def Owned (owner : Option Owner) (location : Option Location) (c : Char) : Prop :=
  ∃ o l, owner = some o ∧ location = some l ∧ o.Accounts c l

theorem ownerIn_owned : ∀ {pieces : List Text}, AllInRange pieces →
    (∀ t ∈ pieces, ∀ {index : Nat} {c : Char}, t.content[index]? = some c → Owned (t.owner? index) (t.resolve index) c) →
      ∀ {index : Nat} {c : Char}, (contents pieces)[index]? = some c →
        Owned (ownerIn pieces index) (resolveIn pieces index) c
  | [], _, _, index, c, hc => by simp [contents] at hc
  | t :: ts, hr, h, index, c, hc => by
    obtain ⟨ht, hts⟩ := hr
    rw [contents] at hc
    rw [ownerIn, resolveIn]
    by_cases hlt : index < t.length
    · rw [if_pos hlt, if_pos (.inl hlt)]
      rw [List.getElem?_append_left (length_eq_length_content t ht ▸ hlt)] at hc
      exact h t List.mem_cons_self hc
    · have hle := Nat.le_of_not_lt hlt
      rw [List.getElem?_append_right (length_eq_length_content t ht ▸ hle), ← length_eq_length_content t ht] at hc
      have hne : ¬(index < t.length ∨ ts.isEmpty = true) := by
        rintro (hlt' | hempty)
        · exact hlt hlt'
        · rw [List.isEmpty_iff.1 hempty] at hc
          simp [contents] at hc
      rw [if_neg hlt, if_neg hne]
      exact ownerIn_owned hts (fun u hu => h u (List.mem_cons_of_mem t hu)) hc

/-- **Every character has an owner**: one of the plain texts has it, and the text has it at its place there. -/
theorem exists_owner (t : Text) (hr : t.InRange) : ∀ {index : Nat} {c : Char}, t.content[index]? = some c →
    Owned (t.owner? index) (t.resolve index) c := by
  induction t with
  | plain p =>
    intro index c hc
    obtain ⟨hlt, -⟩ := List.getElem?_eq_some_iff.1 hc
    have hlt : index < p.length := by simpa [content, Plain.length] using hlt
    rw [owner?, if_pos hlt, resolve, Plain.place?, if_pos (Nat.le_of_lt hlt)]
    refine ⟨_, _, rfl, rfl, by simpa [content] using hc, _, ?_, rfl⟩
    rw [Plain.place?, if_pos (Nat.le_of_lt hlt)]
  | composite pieces ih =>
    intro index c hc
    have hin : index ≤ total (lengths pieces) := by
      have hlength := length_eq_length_content _ hr
      have hlt := (List.getElem?_eq_some_iff.1 hc).1
      rw [← hlength] at hlt
      exact Nat.le_of_lt hlt
    rw [owner?, resolve, if_pos hin]
    exact ownerIn_owned hr (fun t ht => ih t ht ((allInRange_iff pieces).1 hr t ht)) hc
  | sub base start stop ih =>
    intro index c hc
    rw [content] at hc
    have hlt : index < stop - start := by
      refine Nat.lt_of_not_le (fun hge => ?_)
      rw [List.getElem?_take_eq_none hge] at hc
      cases hc
    rw [List.getElem?_take_of_lt hlt, List.getElem?_drop] at hc
    rw [owner?, if_pos hlt, resolve, if_pos (Nat.le_of_lt hlt)]
    exact ih hr.2.2 hc
  | transformed output source iho _ =>
    intro index c hc
    obtain ⟨o, l, howner, hlocation, hchar, place, hplace, hlayers⟩ := iho hr.1 hc
    rw [owner?, resolve, howner, hlocation]
    refine ⟨_, _, rfl, rfl, hchar, place, hplace, ?_⟩
    rw [Owner.below, List.flatMap_append, List.flatMap_singleton, location_eq hr.2]
    cases source.resolve 0 with
    | none => rw [List.append_nil]; exact hlayers
    | some parent =>
      simp only [Location.layers_withParent, hlayers]
      rfl

end Text
end LayeredParse
