import LayeredParse.Proofs.Regex.Classes
import LayeredParse.Regex.Reader
/-!
# Steps — the steps of a reader with a closing parenthesis after the text

Every step of the reader takes what it reads off the front (`leaves_step`), and with the closing parenthesis after the text
it is a step that does the same whatever comes after the text (`tracks_step`), or else it has read the parenthesis, or it is
about to (`Lost`).
-/
namespace LayeredParse
namespace Regex

/-- The letters of modes, and whether a colon ends them. -/
def readLetters (f : Flags) (seen s : List Char) : Reading (Flags × Bool) :=
  (f.read seen s).map fun (flags, ofGroup, rest) => ((flags, ofGroup), rest)

theorem readLetters_cons (f : Flags) (seen : List Char) {c : Char} (hcolon : c ≠ ':') (hparen : c ≠ ')')
    (s : List Char) : readLetters f seen (c :: s) =
      if seen.contains c then none
      else if c = '-' then readLetters f (c :: seen) s
      else (f.set? c (!seen.contains '-')).bind fun f => readLetters f (c :: seen) s := by
  unfold readLetters
  rw [Flags.read]
  · split
    · rfl
    split
    · rfl
    · cases f.set? c (!seen.contains '-') <;> rfl
  · simpa using hcolon
  · simpa using hparen

theorem leaves_readLetters : ∀ (f : Flags) (seen s : List Char), Leaves s (readLetters f seen s)
  | _, _, [] => .none
  | f, seen, c :: s => by
    have hs : s <:+ c :: s := List.suffix_cons _ _
    by_cases hcolon : c = ':'
    · subst hcolon
      rw [readLetters, Flags.read]
      split
      · exact .none
      · exact .some hs
    by_cases hparen : c = ')'
    · subst hparen
      rw [readLetters, Flags.read]
      split
      · exact .none
      · exact .some hs
    rw [readLetters_cons f seen hcolon hparen]
    split
    · exact .none
    split
    · exact (leaves_readLetters f (c :: seen) s).longer hs
    · cases f.set? c (!seen.contains '-') with
      | none => exact .none
      | some f => exact (leaves_readLetters f (c :: seen) s).longer hs

theorem tracks_readLetters {w : List Char} : ∀ (f : Flags) (seen s : List Char),
    Tracks w s (Past w) fun v => readLetters f seen (s ++ v)
  | f, seen, [] => by
    refine .of_lost fun a rest h => ?_
    rw [List.nil_append, readLetters, Flags.read] at h
    split at h
    · cases h
    · cases h
      exact List.suffix_refl w
  | f, seen, c :: s => by
    have hs : s <:+ c :: s := List.suffix_cons _ _
    by_cases hcolon : c = ':'
    · subst hcolon
      simp only [List.cons_append, readLetters, Flags.read]
      split
      · exact .none
      · exact .some hs
    by_cases hparen : c = ')'
    · subst hparen
      simp only [List.cons_append, readLetters, Flags.read]
      split
      · exact .none
      · exact .some hs
    simp only [List.cons_append, readLetters_cons f seen hcolon hparen]
    split
    · exact .none
    split
    · exact (tracks_readLetters f (c :: seen) s).longer hs
    · cases f.set? c (!seen.contains '-') with
      | none => exact .none
      | some f => exact (tracks_readLetters f (c :: seen) s).longer hs

theorem isNameChar_paren (first : Bool) : isNameChar first ')' = false := by
  cases first <;> decide

theorem readName_unended (names : List (List Char)) {s : List Char} (hs : ∀ c ∈ s, (c != '>') = true) :
    readName names s = none := by
  have htake : s.takeWhile (· != '>') = s := List.takeWhile_eq_self_iff.2 hs
  unfold readName
  dsimp only
  rw [htake, List.drop_length]
  split
  · rename_i h
    cases h
  · rfl

theorem readName_paren (names : List (List Char)) {s : List Char} (hs : ∀ c ∈ s, (c != '>') = true) (w : List Char) :
    readName names (s ++ ')' :: w) = none := by
  have htake : (s ++ ')' :: w).takeWhile (· != '>') = s ++ ')' :: w.takeWhile (· != '>') := by
    rw [List.takeWhile_append_of_pos hs]
    simp
  unfold readName
  dsimp only
  rw [htake]
  rcases s with _ | ⟨first, others⟩
  · rw [List.nil_append]
    split
    · rename_i h _
      obtain ⟨rfl, -⟩ := List.cons.inj h
      simp [isNameChar_paren]
    · rfl
  · rw [List.cons_append]
    split
    · rename_i h _
      obtain ⟨-, rfl⟩ := List.cons.inj h
      simp [isNameChar_paren]
    · rfl

theorem readName_split (names : List (List Char)) {name : List Char} (hname : ∀ c ∈ name, (c != '>') = true)
    (rest : List Char) : readName names (name ++ '>' :: rest) =
      match name with
      | first :: others =>
        if isNameChar true first ∧ others.all (isNameChar false) ∧ ¬names.contains name then some (name, rest) else none
      | [] => none := by
  have htake : (name ++ '>' :: rest).takeWhile (· != '>') = name := List.takeWhile_append_cons hname rfl rest
  unfold readName
  dsimp only
  rw [htake, List.drop_left]
  cases name <;> rfl

/-- The name of a group has no parenthesis in it. -/
theorem readName_closing (names : List (List Char)) (s : List Char) {v : List Char} (hv : Closing v) :
    readName names (s ++ v) = (readName names s).map fun p => (p.1, p.2 ++ v) := by
  by_cases hangle : '>' ∈ s
  · obtain ⟨name, rest, rfl, hmem⟩ := List.eq_append_cons_of_mem hangle
    have hname : ∀ c ∈ name, (c != '>') = true := fun c hc => by
      simpa using fun e : c = '>' => hmem (e ▸ hc)
    rw [List.append_assoc, List.cons_append, readName_split names hname, readName_split names hname]
    cases name with
    | nil => rfl
    | cons first others =>
      dsimp only
      split <;> rfl
  · have hs : ∀ c ∈ s, (c != '>') = true := fun c hc => by
      simpa using fun e : c = '>' => hangle (e ▸ hc)
    rw [readName_unended names hs]
    rcases hv with rfl | ⟨w, rfl⟩
    · rw [List.append_nil, readName_unended names hs]
      rfl
    · rw [readName_paren names hs]
      rfl

theorem leaves_readName (names : List (List Char)) (s : List Char) : Leaves s (readName names s) := by
  unfold readName
  dsimp only
  split
  · rename_i rest _ hrest
    split
    · exact .some ((List.suffix_cons _ _).trans (hrest ▸ List.drop_suffix _ _))
    · exact .none
  · exact .none

/-- What follows the angle bracket that a name is in. -/
def angled? : List Char → Option (List Char)
  | 'P' :: '<' :: rest => some rest
  | '<' :: rest => some rest
  | _ => none

theorem angled?_closing (s : List Char) {v : List Char} (hv : Closing v) :
    angled? (s ++ v) = (angled? s).map (· ++ v) := by
  rcases s with _ | ⟨c, s⟩
  · rcases hv with rfl | ⟨w, rfl⟩ <;> rfl
  by_cases hangle : c = '<'
  · subst hangle
    rfl
  by_cases hletter : c = 'P'
  · subst hletter
    rcases s with _ | ⟨d, s⟩
    · rcases hv with rfl | ⟨w, rfl⟩ <;> rfl
    by_cases hd : d = '<' <;> simp [angled?, hd]
  · simp [angled?, hangle, hletter]

theorem angled?_suffix {s rest : List Char} (h : angled? s = some rest) : rest <:+ s := by
  unfold angled? at h
  split at h <;> cases h
  · exact (List.suffix_cons _ _).trans (List.suffix_cons _ _)
  · exact List.suffix_cons _ _

/-- A group with what follows its question mark. -/
def readMarked (d : Builder) (s : List Char) : Reading Builder :=
  match angled? s with
  | some rest => (readName d.names rest).map fun (name, rest) =>
      ({ d.openGroup d.flags with names := name :: d.names }, rest)
  | none => (readLetters d.flags [] s).map fun ((flags, ofGroup), rest) =>
      (if ofGroup then d.openGroup flags else { d.add empty with flags }, rest)

theorem readGroup_marked (d : Builder) {s rest : List Char} (h : d.flags.skip s = '?' :: rest) :
    readGroup d s = readMarked d rest := by
  unfold readGroup readMarked
  rw [h]
  split
  · rename_i h
    cases h
    rfl
  · rename_i h
    cases h
    rfl
  · rename_i hletter hangle h
    cases h
    have hnone : angled? rest = none := by
      unfold angled?
      split
      · exact (hletter _ rfl).elim
      · exact (hangle _ rfl).elim
      · rfl
    rw [hnone]
    dsimp only
    rw [readLetters, Option.map_map]
    rfl
  · rename_i hmarked
    exact (hmarked rest rfl).elim

theorem readGroup_bare (d : Builder) {s : List Char} (h : ∀ rest, d.flags.skip s ≠ '?' :: rest) :
    readGroup d s = some (d.openGroup d.flags, d.flags.skip s) := by
  unfold readGroup
  split
  · rename_i hskip
    exact (h _ hskip).elim
  · rename_i hskip
    exact (h _ hskip).elim
  · rename_i hskip
    exact (h _ hskip).elim
  · rfl

theorem leaves_readMarked (d : Builder) (s : List Char) : Leaves s (readMarked d s) := by
  unfold readMarked
  cases hangled : angled? s with
  | some rest => exact ((leaves_readName d.names rest).longer (angled?_suffix hangled)).map fun _ _ h => h
  | none => exact (leaves_readLetters d.flags [] s).map fun _ _ h => h

theorem tracks_readMarked {w : List Char} (d : Builder) (s : List Char) :
    Tracks w s (Past w) fun v => readMarked d (s ++ v) := by
  cases hangled : angled? s with
  | some rest =>
    have hmarked (v : List Char) (hv : Closing v) : readMarked d (s ++ v) = (readName d.names (rest ++ v)).map
        fun (name, rest) => ({ d.openGroup d.flags with names := name :: d.names }, rest) := by
      rw [readMarked, angled?_closing s hv, hangled]
      rfl
    cases hname : readName d.names rest with
    | none =>
      refine .congr (fun v hv => ?_) .none
      rw [hmarked v hv, readName_closing _ _ hv, hname]
      rfl
    | some p =>
      refine .congr (y := fun v => some ({ d.openGroup d.flags with names := p.1 :: d.names }, p.2 ++ v)) (fun v hv => ?_)
        (.some ((leaves_readName d.names rest _ _ hname).trans (angled?_suffix hangled)))
      rw [hmarked v hv, readName_closing _ _ hv, hname]
      rfl
  | none =>
    have hletters : Tracks w s (Past w) fun v => (readLetters d.flags [] (s ++ v)).map fun p =>
        (if p.1.2 then d.openGroup p.1.1 else { d.add empty with flags := p.1.1 }, p.2) :=
      (tracks_readLetters d.flags [] s).map (fun _ _ hrest => .some hrest) (fun _ _ hpast => hpast)
    refine .congr (fun v hv => ?_) hletters
    rw [readMarked, angled?_closing s hv, hangled]
    rfl

theorem leaves_readGroup (d : Builder) (s : List Char) : Leaves (d.flags.skip s) (readGroup d s) := by
  by_cases hmarked : ∃ rest, d.flags.skip s = '?' :: rest
  · obtain ⟨rest, hrest⟩ := hmarked
    rw [readGroup_marked d hrest, hrest]
    exact (leaves_readMarked d rest).longer (List.suffix_cons _ _)
  · rw [readGroup_bare d fun rest e => hmarked ⟨rest, e⟩]
    exact .some (List.suffix_refl _)

theorem tracks_readGroup {w : List Char} (d : Builder) (s : List Char) :
    Tracks w s (Past w) fun v => readGroup d (s ++ v) := by
  rcases skip_closing w d.flags s with h | ⟨h, -⟩
  swap
  · exact .of_leaves ((leaves_readGroup d _).longer h)
  have hs : d.flags.skip s <:+ s := skip_suffix d.flags s
  by_cases hmarked : ∃ rest, d.flags.skip s = '?' :: rest
  · obtain ⟨rest, hrest⟩ := hmarked
    rw [hrest] at hs
    refine .congr (fun v hv => readGroup_marked d ?_)
      ((tracks_readMarked d rest).longer ((List.suffix_cons _ _).trans hs))
    rw [h v hv, hrest]
    rfl
  · refine .congr (y := fun v => some (d.openGroup d.flags, d.flags.skip s ++ v)) (fun v hv => ?_) (.some hs)
    have hbare : ∀ rest, d.flags.skip (s ++ v) ≠ '?' :: rest := by
      rw [h v hv]
      rcases hskip : d.flags.skip s with _ | ⟨c, t⟩
      · exact hv.ne_cons (by decide)
      · rintro rest e
        obtain ⟨rfl, -⟩ := List.cons.inj e
        exact hmarked ⟨t, hskip⟩
    rw [readGroup_bare d hbare, h v hv]

theorem dropLazy_suffix (s : List Char) : dropLazy s <:+ s := by
  unfold dropLazy
  split
  · exact List.suffix_cons _ _
  · exact List.suffix_refl _

theorem dropLazy_closing (s : List Char) {v : List Char} (hv : Closing v) : dropLazy (s ++ v) = dropLazy s ++ v := by
  rcases s with _ | ⟨c, s⟩
  · rcases hv with rfl | ⟨w, rfl⟩ <;> rfl
  · by_cases hc : c = '?' <;> simp [dropLazy, hc]

theorem tracks_repeated {w : List Char} (d : Builder) (least : Nat) (most : Option Nat) (s : List Char) :
    Tracks w s (Past w) fun v => (d.repeated least most).map fun d => (d, dropLazy (s ++ v)) :=
  .congr (fun v hv => by rw [dropLazy_closing s hv]) (.read (dropLazy_suffix s))

/-- The repetition with the bounds that stood between braces. -/
def boundsAfter (d : Builder) (inside rest : List Char) : Reading Builder :=
  (bounds? inside).bind fun (least, most) =>
    (d.repeated least most).map fun d => (d, dropLazy (d.flags.skip rest))

theorem leaves_boundsAfter (d : Builder) (inside rest : List Char) : Leaves rest (boundsAfter d inside rest) := by
  rintro e rest' h
  obtain ⟨_, _, h⟩ := Option.bind_eq_some_iff.1 h
  obtain ⟨_, _, h⟩ := Option.map_eq_some_iff.1 h
  cases h
  exact (dropLazy_suffix _).trans (skip_suffix _ _)

theorem tracks_boundsAfter {w : List Char} (d : Builder) (inside s : List Char) :
    Tracks w s (Past w) fun v => boundsAfter d inside (s ++ v) := by
  unfold boundsAfter
  rcases bounds? inside with _ | ⟨least, most⟩
  · exact .none
  rcases hrepeated : d.repeated least most with _ | e
  · simp only [Option.bind_some, hrepeated]
    exact .none
  simp only [Option.bind_some, hrepeated, Option.map_some]
  rcases skip_closing w e.flags s with h | ⟨h, -⟩
  · refine .congr (y := fun v => some (e, dropLazy (e.flags.skip s) ++ v)) (fun v hv => ?_)
      (.some ((dropLazy_suffix _).trans (skip_suffix _ _)))
    rw [h v hv, dropLazy_closing _ hv]
  · exact .of_leaves (.some ((dropLazy_suffix _).trans h))

theorem step_brace (d : Builder) (s : List Char) : step d '\x7b' s =
    (d.flags.readBraced false s).bind fun (inside, rest) => boundsAfter d inside rest := rfl

/-- A reader is lost once it has read the closing parenthesis, and before a brace with nothing that counts after it. -/
def Lost (w : List Char) (d : Builder) (rest : List Char) : Prop :=
  rest <:+ w ∨ ∃ blank, rest = '\x7b' :: (blank ++ ')' :: w) ∧ d.flags.skip blank = []

theorem LostAtom.lost {w : List Char} {d : Builder} {a : Atom} {rest : List Char} (h : LostAtom w d.flags a rest) :
    Lost w (d.addAtom a) rest :=
  h.imp id fun ⟨_, blank, ha, hrest, hblank⟩ => ⟨blank, hrest, ha ▸ hblank⟩

theorem leaves_step (d : Builder) (c : Char) (s : List Char) : Leaves s (step d c s) := by
  unfold step
  split
  · exact (leaves_readGroup d s).longer (skip_suffix d.flags s)
  · exact .read (List.suffix_refl _)
  · exact .some (List.suffix_refl _)
  · exact (leaves_readClass d.flags s).map fun _ _ h => h
  · exact .read (dropLazy_suffix s)
  · exact .read (dropLazy_suffix s)
  · exact .read (dropLazy_suffix s)
  · exact (leaves_readBraced d.flags false s).bind fun inside rest hrest => (leaves_boundsAfter d inside rest).longer hrest
  · exact (leaves_readEscape d.flags s).map fun _ _ h => h
  · exact .read (List.suffix_refl _)
  · exact .some (List.suffix_refl _)
  · exact .some (List.suffix_refl _)
  · exact .some (List.suffix_refl _)

/-- **Every step does the same whatever comes after the text**, unless it is lost. -/
theorem tracks_step {w : List Char} (d : Builder) (c : Char) (s : List Char) :
    Tracks w s (Lost w) fun v => step d c (s ++ v) := by
  have past {x : List Char → Reading Builder} (h : Tracks w s (Past w) x) : Tracks w s (Lost w) x :=
    h.mono (List.suffix_refl s) fun _ _ => .inl
  unfold step
  split
  · exact past (tracks_readGroup d s)
  · exact .read (List.suffix_refl s)
  · exact .some (List.suffix_refl s)
  · exact (tracks_readClass d.flags s).map (fun _ _ h => .some h) (fun _ _ h => .inl h)
  · exact past (tracks_repeated d 0 (some 1) s)
  · exact past (tracks_repeated d 0 none s)
  · exact past (tracks_repeated d 1 none s)
  · exact past ((tracks_readBraced d.flags false s).bind
      (fun inside rest hrest => (tracks_boundsAfter d inside rest).longer hrest)
      (fun inside rest hpast => (leaves_boundsAfter d inside rest).longer hpast))
  · exact (tracks_readEscape d.flags s).map (fun _ _ h => .some h) (fun _ _ h => h.lost)
  · exact .read (List.suffix_refl s)
  · exact .some (List.suffix_refl s)
  · exact .some (List.suffix_refl s)
  · exact .some (List.suffix_refl s)

end Regex
end LayeredParse
