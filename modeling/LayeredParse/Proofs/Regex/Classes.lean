import LayeredParse.Proofs.Regex.Tracking
/-!
# Classes — reading classes with a closing parenthesis after them

A class is closed by a bracket, and a closing parenthesis is a character like others in it.  So a reading of a class either
comes to the bracket before the parenthesis, and reads the same whatever comes after the text (`readBracket_closing`), or it
has read the parenthesis (`tracks_readClass`).
-/
namespace LayeredParse
namespace Regex

/-- Whether the text of the group is at its end, with the closing parenthesis read or not. -/
def Spent {α : Type} (w : List Char) (_ : α) (rest : List Char) : Prop :=
  rest <:+ ')' :: w

theorem Tracks.of_spent {α : Type} {w s : List Char} {x : List Char → Reading α} (h : Leaves (')' :: w) (x (')' :: w))) :
    Tracks w s (Spent w) x :=
  .of_lost h

theorem dropHyphens_suffix (f : Flags) : ∀ (inComment found : Bool) (s : List Char),
    (dropHyphens f inComment found s).2 <:+ s
  | _, _, [] => List.suffix_refl _
  | inComment, found, c :: s => by
    have later (b b' : Bool) : (dropHyphens f b b' s).2 <:+ c :: s :=
      (dropHyphens_suffix f b b' s).trans (List.suffix_cons _ _)
    rw [dropHyphens]
    split
    · exact later _ _
    split
    · exact later _ _
    split
    · exact later _ _
    split
    · exact later _ _
    · exact List.suffix_refl _

theorem dropHyphens_closing (w : List Char) (f : Flags) : ∀ (inComment found : Bool) (s : List Char),
    (∀ v, Closing v → dropHyphens f inComment found (s ++ v) =
      ((dropHyphens f inComment found s).1, (dropHyphens f inComment found s).2 ++ v)) ∨
    (dropHyphens f inComment found (s ++ ')' :: w)).2 <:+ w
  | false, found, [] => by
    refine .inl fun v hv => ?_
    rcases hv with rfl | ⟨w, rfl⟩ <;> simp [dropHyphens]
  | true, found, [] => .inr (dropHyphens_suffix f _ _ w)
  | inComment, found, c :: s => by
    simp only [List.cons_append, dropHyphens]
    split
    · exact dropHyphens_closing w f _ _ s
    split
    · exact dropHyphens_closing w f _ _ s
    split
    · exact dropHyphens_closing w f _ _ s
    split
    · exact dropHyphens_closing w f _ _ s
    · exact .inl fun _ _ => rfl

/-- Whether a circumflex begins a class, and what follows it. -/
def negation (f : Flags) (s : List Char) : Bool × List Char :=
  match f.skip s with
  | '^' :: rest => (true, f.skip rest)
  | rest => (false, rest)

theorem negation_suffix (f : Flags) (s : List Char) : (negation f s).2 <:+ f.skip s := by
  unfold negation
  split
  · rename_i rest h
    exact (skip_suffix f rest).trans (h ▸ List.suffix_cons _ _)
  · exact List.suffix_refl _

theorem negation_closing (w : List Char) (f : Flags) (s : List Char) :
    (∀ v, Closing v → negation f (s ++ v) = ((negation f s).1, (negation f s).2 ++ v)) ∨
      (negation f (s ++ ')' :: w)).2 <:+ w := by
  rcases skip_closing w f s with h | ⟨h, -⟩
  swap
  · exact .inr ((negation_suffix f _).trans h)
  have hnegation (v : List Char) (hv : Closing v) : negation f (s ++ v) =
      match f.skip s ++ v with
      | '^' :: rest => (true, f.skip rest)
      | rest => (false, rest) := by
    rw [negation, h v hv]
  rcases hskip : f.skip s with _ | ⟨c, t⟩
  · refine .inl fun v hv => ?_
    rw [hnegation v hv, negation, hskip]
    rcases hv with rfl | ⟨w, rfl⟩ <;> rfl
  by_cases hc : c = '^'
  · subst hc
    rcases skip_closing w f t with ht | ⟨ht, -⟩
    · refine .inl fun v hv => ?_
      rw [hnegation v hv, negation, hskip]
      simp only [List.cons_append, ht v hv]
    · refine .inr ?_
      rw [hnegation _ (closing_paren w), hskip]
      exact ht
  · refine .inl fun v hv => ?_
    rw [hnegation v hv, negation, hskip]
    simp [hc]

/-- What a bracket opens with, once it is known whether a circumflex and whether hyphens stand there. -/
def opened (f : Flags) (negated : Bool) (hyphens : Bool) (s : List Char) : Reading OpenBracket :=
  let start : OpenBracket := { negated }
  match s with
  | [] => none
  | c :: rest =>
    if hyphens then
      if negated && !f.unicode then none else some (start.add (.single '-'), s)
    else if negated && !f.unicode then none
    else if c = ']' then
      match f.skip rest with
      | [] => none
      | rest => some (start.add (.single ']'), rest)
    else some (start, s)

theorem openBracket_eq (f : Flags) (s : List Char) : openBracket f s =
    opened f (negation f s).1 (dropHyphens f false false (negation f s).2).1
      (dropHyphens f false false (negation f s).2).2 := rfl

theorem leaves_opened (f : Flags) (negated hyphens : Bool) (s : List Char) : Leaves s (opened f negated hyphens s) := by
  unfold opened
  dsimp only
  split
  · exact .none
  split
  · split
    · exact .none
    · exact .some (List.suffix_refl _)
  split
  · exact .none
  split
  · split
    · exact .none
    · exact .some ((skip_suffix f _).trans (List.suffix_cons _ _))
  · exact .some (List.suffix_refl _)

theorem tracks_opened {w : List Char} (f : Flags) (negated hyphens : Bool) (s : List Char) :
    Tracks w s (Spent w) fun v => opened f negated hyphens (s ++ v) := by
  rcases s with _ | ⟨c, t⟩
  · exact .of_spent (leaves_opened f negated hyphens _)
  simp only [List.cons_append, opened]
  split
  · split
    · exact .none
    · exact .some (List.suffix_refl (c :: t))
  split
  · exact .none
  split
  · have hlost (rest : List Char) (hrest : rest <:+ ')' :: w) : Leaves (')' :: w) (match rest with
        | [] => none
        | rest => some (({ negated } : OpenBracket).add (.single ']'), rest)) := by
      split
      · exact .none
      · exact .some hrest
    rcases skip_closing w f t with h | ⟨h, -⟩
    · have ht : f.skip t <:+ c :: t := (skip_suffix f t).trans (List.suffix_cons _ _)
      rcases hskip : f.skip t with _ | ⟨d, u⟩ <;> rw [hskip] at ht
      · refine .of_spent (hlost _ ?_)
        rw [h _ (closing_paren w), hskip]
        exact List.suffix_refl _
      · refine .congr (y := fun v => some (({ negated } : OpenBracket).add (.single ']'), (d :: u) ++ v))
          (fun v hv => ?_) (.some ht)
        rw [h v hv, hskip]
        rfl
    · exact .of_spent (hlost _ (h.trans (List.suffix_cons _ _)))
  · exact .some (List.suffix_refl (c :: t))

theorem leaves_openBracket (f : Flags) (s : List Char) : Leaves (negation f s).2 (openBracket f s) := by
  rw [openBracket_eq]
  exact (leaves_opened f _ _ _).longer (dropHyphens_suffix f false false _)

theorem tracks_openBracket {w : List Char} (f : Flags) (s : List Char) :
    Tracks w s (Spent w) fun v => openBracket f (s ++ v) := by
  have hs := (negation_suffix f s).trans (skip_suffix f s)
  rcases negation_closing w f s with h | h
  · rcases dropHyphens_closing w f false false (negation f s).2 with h' | h'
    · have hopened := tracks_opened (w := w) f (negation f s).1 (dropHyphens f false false (negation f s).2).1
        (dropHyphens f false false (negation f s).2).2
      refine .congr (fun v hv => ?_) (hopened.longer ((dropHyphens_suffix f false false _).trans hs))
      rw [openBracket_eq, h v hv, h' v hv]
    · refine .of_spent ?_
      rw [openBracket_eq, h _ (closing_paren w)]
      exact (leaves_opened f _ _ _).longer (h'.trans (List.suffix_cons _ _))
  · exact .of_spent ((leaves_openBracket f _).longer (h.trans (List.suffix_cons _ _)))

theorem leaves_readMember (f : Flags) (s : List Char) : Leaves s (readMember f s) := by
  unfold readMember
  split
  · exact .none
  · exact (leaves_readEscape f _).longer (List.suffix_cons _ _)
  · exact .some (List.suffix_cons _ _)

/-- A member is a character long at least. -/
theorem tracks_readMember {w : List Char} (f : Flags) (s : List Char) :
    Tracks w s.tail (LostAtom w f) fun v => readMember f (s ++ v) := by
  rcases s with _ | ⟨c, t⟩
  · refine .of_lost fun a rest h => ?_
    cases h
    exact .inl (List.suffix_refl w)
  by_cases hc : c = '\\'
  · subst hc
    exact tracks_readEscape f t
  · simpa [readMember, hc] using Tracks.some (List.suffix_refl t)

/-- What follows the first character or class of a member, what does not count left out: nothing, or a hyphen and the end
of a range. -/
def rangeFrom (f : Flags) (first : Atom) : List Char → Reading CharClass
  | [] => none
  | c :: after =>
    let alone := (first.asClass? f).map fun set => (set, c :: after)
    if c = '-' then
      match f.skip after with
      | ']' :: _ => alone
      | '-' :: _ => alone
      | s => (readMember f s).bind fun (last, rest) => (rangeOf? f first last).map fun set => (set, rest)
    else alone

theorem readMembers_eq (f : Flags) (s : List Char) :
    readMembers f s = (readMember f s).bind fun (first, rest) => rangeFrom f first (f.skip rest) := by
  unfold readMembers
  refine congrArg _ (funext fun ⟨first, rest⟩ => ?_)
  dsimp only
  cases f.skip rest <;> rfl

theorem rangeFrom_look (f : Flags) (condition : Look) (s : List Char) : rangeFrom f (.look condition) s = none := by
  unfold rangeFrom
  split
  · rfl
  · dsimp only [Atom.asClass?]
    split
    · split
      · rfl
      · rfl
      · exact Option.bind_eq_none_iff.2 fun _ _ => rfl
    · rfl

theorem leaves_rangeFrom (f : Flags) (first : Atom) (s : List Char) : Leaves s (rangeFrom f first s) := by
  unfold rangeFrom
  split
  · exact .none
  · rename_i c after
    dsimp only
    split
    · have hafter : f.skip after <:+ c :: after := (skip_suffix f after).trans (List.suffix_cons _ _)
      split
      · exact .read (List.suffix_refl _)
      · exact .read (List.suffix_refl _)
      · exact ((leaves_readMember f _).longer hafter).bind fun _ _ hrest => .read hrest
    · exact .read (List.suffix_refl _)

theorem tracks_rangeEnd {w : List Char} (f : Flags) (first : Atom) (s : List Char) :
    Tracks w s.tail (Spent w) fun v =>
      (readMember f (s ++ v)).bind fun (last, rest) => (rangeOf? f first last).map fun set => (set, rest) := by
  refine (tracks_readMember f s).bind (fun last rest hrest => .read hrest) (fun last rest hlost set rest' h => ?_)
  rcases hlost with hpast | ⟨condition, _, rfl, _⟩
  · exact (Leaves.read hpast _ _ h).trans (List.suffix_cons _ _)
  · cases first <;> cases h

/-- Whether the text is spent, or all that is left of it is a hyphen and blanks.  The hyphen stands for itself if a comment
swallows the closing parenthesis and a bracket comes after that. -/
def Adrift {α : Type} (w : List Char) (f : Flags) (_ : α) (rest : List Char) : Prop :=
  rest <:+ ')' :: w ∨ ∃ blank, rest = '-' :: (blank ++ ')' :: w) ∧ f.skip blank = []

theorem tracks_rangeFrom {w : List Char} (f : Flags) (first : Atom) (s : List Char) :
    Tracks w s (Adrift w f) fun v => rangeFrom f first (s ++ v) := by
  rcases s with _ | ⟨c, t⟩
  · exact .of_lost fun a rest h => .inl (leaves_rangeFrom f first _ a rest h)
  have halone : Tracks w (c :: t) (Adrift w f) fun v => (first.asClass? f).map fun set => (set, (c :: t) ++ v) :=
    .read (List.suffix_refl _)
  by_cases hc : c = '-'
  swap
  · simpa [rangeFrom, hc] using halone
  subst hc
  rcases skip_closing w f t with h | ⟨h, hblank⟩
  swap
  · refine .of_lost fun a rest hread => ?_
    simp only [List.cons_append, rangeFrom, if_pos] at hread
    split at hread
    · obtain ⟨_, _, hread⟩ := Option.map_eq_some_iff.1 hread
      cases hread
      exact .inr ⟨t, rfl, hblank⟩
    · obtain ⟨_, _, hread⟩ := Option.map_eq_some_iff.1 hread
      cases hread
      exact .inr ⟨t, rfl, hblank⟩
    · have hend := (leaves_readMember f _).bind (fun last _ hrest => Leaves.read (o := rangeOf? f first last) hrest) a rest
        hread
      exact .inl ((hend.trans h).trans (List.suffix_cons _ _))
  have hu : f.skip t <:+ '-' :: t := (skip_suffix f t).trans (List.suffix_cons _ _)
  have hend (u : List Char) (hsuffix : u <:+ '-' :: t) : Tracks w ('-' :: t) (Adrift w f) fun v =>
      (readMember f (u ++ v)).bind fun (last, rest) => (rangeOf? f first last).map fun set => (set, rest) :=
    (tracks_rangeEnd f first u).mono ((List.tail_suffix u).trans hsuffix) fun _ _ => .inl
  rcases hskip : f.skip t with _ | ⟨d, u⟩ <;> rw [hskip] at hu
  · refine .congr (fun v hv => ?_) (hend [] hu)
    simp only [List.cons_append, rangeFrom, if_pos, h v hv, hskip, List.nil_append]
    rcases hv with rfl | ⟨w, rfl⟩ <;> rfl
  refine .congr (y := fun v => if d = ']' ∨ d = '-' then (first.asClass? f).map fun set => (set, ('-' :: t) ++ v)
    else (readMember f ((d :: u) ++ v)).bind fun (last, rest) => (rangeOf? f first last).map fun set => (set, rest))
    (fun v hv => ?_) ?_
  · simp only [List.cons_append, rangeFrom, if_pos, h v hv, hskip]
    by_cases hclose : d = ']'
    · simp [hclose]
    by_cases hhyphen : d = '-' <;> simp [hclose, hhyphen]
  · split
    · exact halone
    · exact hend _ hu

theorem leaves_readMembers (f : Flags) (s : List Char) : Leaves s (readMembers f s) := by
  rw [readMembers_eq]
  exact (leaves_readMember f s).bind fun first rest hrest =>
    (leaves_rangeFrom f first _).longer ((skip_suffix f rest).trans hrest)

theorem tracks_readMembers {w : List Char} (f : Flags) (s : List Char) :
    Tracks w s.tail (Adrift w f) fun v => readMembers f (s ++ v) := by
  simp only [readMembers_eq]
  refine (tracks_readMember f s).bind (fun first rest hrest => ?_) (fun first rest hlost set rest' h => ?_)
  · rcases skip_closing w f rest with hskip | ⟨hskip, -⟩
    · refine .congr (fun v hv => by rw [hskip v hv]) ((tracks_rangeFrom f first _).longer ?_)
      exact (skip_suffix f rest).trans hrest
    · refine .of_lost fun a rest' h => .inl ?_
      exact ((leaves_rangeFrom f first _ a rest' h).trans hskip).trans (List.suffix_cons _ _)
  · rcases hlost with hpast | ⟨condition, _, rfl, _⟩
    · refine .inl ((leaves_rangeFrom f first _ set rest' h).trans ?_)
      exact ((skip_suffix f rest).trans hpast).trans (List.suffix_cons _ _)
    · dsimp only at h
      rw [rangeFrom_look] at h
      cases h

/-! ## Classes with a name -/

theorem posix?_paren {name : String} (h : ')' ∈ name.toList) : CharClass.posix? name = none := by
  unfold CharClass.posix?
  split <;> first | rfl | exact absurd h (by decide)

/-- The class that a text up to a colon and a bracket names. -/
def named (f : Flags) (negated : Bool) (s : List Char) : Reading CharClass :=
  let name := s.takeWhile (· != ':')
  match s.drop name.length with
  | ':' :: ']' :: rest =>
    if negated && !f.unicode then none
    else (CharClass.posix? (String.ofList name)).map fun set => (f.close negated set, rest)
  | _ => none

theorem named_split (f : Flags) (negated : Bool) {name : List Char} (hname : ∀ c ∈ name, (c != ':') = true)
    (rest : List Char) : named f negated (name ++ ':' :: rest) =
      match rest with
      | ']' :: rest =>
        if negated && !f.unicode then none
        else (CharClass.posix? (String.ofList name)).map fun set => (f.close negated set, rest)
      | _ => none := by
  have htake : (name ++ ':' :: rest).takeWhile (· != ':') = name := List.takeWhile_append_cons hname rfl rest
  unfold named
  dsimp only
  rw [htake, List.drop_left]
  rcases rest with _ | ⟨c, rest⟩
  · rfl
  · by_cases hc : c = ']' <;> simp [hc]

theorem named_unended (f : Flags) (negated : Bool) {s : List Char} (hs : ∀ c ∈ s, (c != ':') = true) :
    named f negated s = none := by
  have htake : s.takeWhile (· != ':') = s := List.takeWhile_eq_self_iff.2 hs
  unfold named
  dsimp only
  rw [htake, List.drop_length]

theorem named_paren (f : Flags) (negated : Bool) {s : List Char} (hs : ∀ c ∈ s, (c != ':') = true) (w : List Char) :
    named f negated (s ++ ')' :: w) = none := by
  have hnone : CharClass.posix? (String.ofList ((s ++ ')' :: w).takeWhile (· != ':'))) = none := by
    refine posix?_paren ?_
    rw [List.takeWhile_append_of_pos hs]
    simp
  unfold named
  dsimp only
  rw [hnone]
  split
  · split <;> rfl
  · rfl

/-- The name of a class has no parenthesis in it, so that a text names the same class whatever comes after it. -/
theorem named_closing (f : Flags) (negated : Bool) (s : List Char) {v : List Char} (hv : Closing v) :
    named f negated (s ++ v) = (named f negated s).map fun p => (p.1, p.2 ++ v) := by
  by_cases hcolon : ':' ∈ s
  · obtain ⟨name, rest, rfl, hmem⟩ := List.eq_append_cons_of_mem hcolon
    have hname : ∀ c ∈ name, (c != ':') = true := fun c hc => by
      simpa using fun e : c = ':' => hmem (e ▸ hc)
    rw [List.append_assoc, List.cons_append, named_split f negated hname, named_split f negated hname]
    rcases rest with _ | ⟨c, rest⟩
    · rcases hv with rfl | ⟨w, rfl⟩ <;> rfl
    by_cases hc : c = ']'
    · subst hc
      cases negated && !f.unicode <;> simp [Function.comp_def]
    · simp [hc]
  · have hs : ∀ c ∈ s, (c != ':') = true := fun c hc => by
      simpa using fun e : c = ':' => hcolon (e ▸ hc)
    rw [named_unended f negated hs]
    rcases hv with rfl | ⟨w, rfl⟩
    · rw [List.append_nil, named_unended f negated hs]
      rfl
    · rw [named_paren f negated hs]
      rfl

/-- Whether a circumflex asks for the complement of a class with a name, and what follows it. -/
def posixNegation : List Char → Bool × List Char
  | '^' :: rest => (true, rest)
  | rest => (false, rest)

theorem posixNegation_suffix (s : List Char) : (posixNegation s).2 <:+ s := by
  unfold posixNegation
  split
  · exact List.suffix_cons _ _
  · exact List.suffix_refl _

theorem posixNegation_closing (s : List Char) {v : List Char} (hv : Closing v) :
    posixNegation (s ++ v) = ((posixNegation s).1, (posixNegation s).2 ++ v) := by
  rcases s with _ | ⟨c, s⟩
  · rcases hv with rfl | ⟨w, rfl⟩ <;> rfl
  · by_cases hc : c = '^' <;> simp [posixNegation, hc]

theorem readPosix_colon (f : Flags) (s : List Char) :
    readPosix f (':' :: s) = named f (posixNegation s).1 (posixNegation s).2 := rfl

theorem readPosix_of_ne (f : Flags) {c : Char} (hc : c ≠ ':') (s : List Char) : readPosix f (c :: s) = none := by
  simp [readPosix, hc]

theorem readPosix_closing (f : Flags) (s : List Char) {v : List Char} (hv : Closing v) :
    readPosix f (s ++ v) = (readPosix f s).map fun p => (p.1, p.2 ++ v) := by
  rcases s with _ | ⟨c, s⟩
  · rcases hv with rfl | ⟨w, rfl⟩ <;> rfl
  by_cases hc : c = ':'
  · subst hc
    rw [List.cons_append, readPosix_colon, posixNegation_closing s hv, named_closing f _ _ hv, readPosix_colon]
  · rw [List.cons_append, readPosix_of_ne f hc, readPosix_of_ne f hc]
    rfl

theorem leaves_named (f : Flags) (negated : Bool) (s : List Char) : Leaves s (named f negated s) := by
  unfold named
  dsimp only
  split
  · rename_i rest hrest
    split
    · exact .none
    · have hsuffix : rest <:+ ':' :: ']' :: rest := (List.suffix_cons _ _).trans (List.suffix_cons _ _)
      exact .read (hsuffix.trans (hrest ▸ List.drop_suffix _ _))
  · exact .none

theorem leaves_readPosix (f : Flags) : ∀ s : List Char, Leaves s (readPosix f s)
  | [] => .none
  | c :: s => by
    by_cases hc : c = ':'
    · subst hc
      rw [readPosix_colon]
      exact (leaves_named f _ _).longer ((posixNegation_suffix s).trans (List.suffix_cons _ _))
    · rw [readPosix_of_ne f hc]
      exact .none

/-! ## Steps within brackets -/

def SetOperation.ofSign? : Char → Option SetOperation
  | '&' => some .inter
  | '-' => some .diff
  | '~' => some .symmDiff
  | _ => none

/-- The operation that a sign written twice stands for. -/
def operation? : List Char → Reading SetOperation
  | c :: d :: rest => if c = d then (SetOperation.ofSign? c).map fun operation => (operation, rest) else none
  | _ => none

theorem operation?_paren (w : List Char) : operation? (')' :: w) = none := by
  rcases w with _ | ⟨d, w⟩
  · rfl
  · rw [operation?]
    split <;> rfl

theorem operation?_closing (s : List Char) {v : List Char} (hv : Closing v) :
    operation? (s ++ v) = (operation? s).map fun p => (p.1, p.2 ++ v) := by
  rcases s with _ | ⟨c, _ | ⟨d, rest⟩⟩
  · rcases hv with rfl | ⟨w, rfl⟩
    · rfl
    · rw [List.nil_append, operation?_paren]
      rfl
  · rcases hv with rfl | ⟨w, rfl⟩
    · rfl
    · by_cases hc : c = ')'
      · rw [hc]
        exact operation?_paren _
      · simp [operation?, hc]
  · by_cases hc : c = d <;> simp [operation?, hc, Function.comp_def]

theorem leaves_operation? (s : List Char) : Leaves s.tail (operation? s) := by
  rcases s with _ | ⟨c, _ | ⟨d, s⟩⟩
  · exact .none
  · exact .none
  · rw [operation?]
    split
    · exact .read (List.suffix_cons _ _)
    · exact .none

theorem operation?_eq_none {s : List Char} (hinter : ∀ rest, s ≠ '&' :: '&' :: rest)
    (hdiff : ∀ rest, s ≠ '-' :: '-' :: rest) (hsymm : ∀ rest, s ≠ '~' :: '~' :: rest) : operation? s = none := by
  rcases s with _ | ⟨c, _ | ⟨d, s⟩⟩
  · rfl
  · rfl
  rw [operation?]
  split
  · rename_i hcd
    subst hcd
    unfold SetOperation.ofSign?
    split
    · exact (hinter s rfl).elim
    · exact (hdiff s rfl).elim
    · exact (hsymm s rfl).elim
    · rfl
  · rfl

/-- One step within brackets, what does not count left out: the class once the outermost bracket is closed, or else the
brackets that are open then. -/
def bracketStep (f : Flags) (current : OpenBracket) (outer : List OpenBracket) :
    List Char → Reading (CharClass ⊕ OpenBracket × List OpenBracket)
  | [] => none
  | '[' :: rest =>
    match readPosix f rest with
    | some (set, rest) => some (.inr (current.add set, outer), rest)
    | none => (openBracket f rest).map fun (inner, rest) => (.inr (inner, current :: outer), rest)
  | ']' :: rest =>
    let set := f.close current.negated (current.value f)
    match outer with
    | [] => some (.inl set, rest)
    | parent :: outer => some (.inr (parent.add set, outer), rest)
  | s =>
    match operation? s with
    | some (operation, rest) => some (.inr (current.operate f operation, outer), rest)
    | none => (readMembers f s).map fun (set, rest) => (.inr (current.add set, outer), rest)

theorem bracketStep_other (f : Flags) (current : OpenBracket) (outer : List OpenBracket) {c : Char} (hopen : c ≠ '[')
    (hclose : c ≠ ']') (s : List Char) : bracketStep f current outer (c :: s) =
      match operation? (c :: s) with
      | some (operation, rest) => some (.inr (current.operate f operation, outer), rest)
      | none => (readMembers f (c :: s)).map fun (set, rest) => (.inr (current.add set, outer), rest) := by
  unfold bracketStep
  simp [hopen, hclose]

theorem readBracket_succ (f : Flags) (steps : Nat) (current : OpenBracket) (outer : List OpenBracket) (s : List Char) :
    readBracket f (steps + 1) current outer s = (bracketStep f current outer (f.skip s)).bind fun
      | (.inl set, rest) => some (set, rest)
      | (.inr (current, outer), rest) => readBracket f steps current outer rest := by
  rw [readBracket]
  split
  · rename_i h
    rw [h]
    rfl
  · rename_i rest h
    rw [h, bracketStep]
    cases readPosix f rest with
    | some p => rfl
    | none => simp [Option.map_eq_bind, Option.bind_assoc]
  · rename_i rest h
    rw [h]
    cases outer <;> rfl
  · rename_i rest h
    rw [h]
    rfl
  · rename_i rest h
    rw [h]
    rfl
  · rename_i rest h
    rw [h]
    rfl
  · rename_i hnil hopen hclose hinter hdiff hsymm
    have hnone : operation? (f.skip s) = none := operation?_eq_none hinter hdiff hsymm
    rcases hskip : f.skip s with _ | ⟨c, t⟩ <;> rw [hskip] at hnone
    · exact (hnil hskip).elim
    have hc : c ≠ '[' := fun e => hopen t (e ▸ hskip)
    have hc' : c ≠ ']' := fun e => hclose t (e ▸ hskip)
    rw [bracketStep_other f current outer hc hc', hnone]
    simp [Option.map_eq_bind, Option.bind_assoc]

/-- A step either closes the outermost bracket, and has read nothing else, or leaves it open. -/
theorem bracketStep_leaves {f : Flags} {current : OpenBracket} {outer : List OpenBracket} {s rest : List Char}
    {a : CharClass ⊕ OpenBracket × List OpenBracket} (h : bracketStep f current outer s = some (a, rest)) :
    s = ']' :: rest ∨ a.isRight = true ∧ rest <:+ s := by
  rcases s with _ | ⟨c, t⟩
  · cases h
  have ht : t <:+ c :: t := List.suffix_cons _ _
  by_cases hopen : c = '['
  · subst hopen
    rw [bracketStep] at h
    cases hposix : readPosix f t with
    | some p =>
      rw [hposix] at h
      cases h
      exact .inr ⟨rfl, (leaves_readPosix f t _ _ hposix).trans ht⟩
    | none =>
      rw [hposix] at h
      obtain ⟨⟨inner, rest⟩, hinner, h⟩ := Option.map_eq_some_iff.1 h
      cases h
      refine .inr ⟨rfl, (leaves_openBracket f t _ _ hinner).trans ?_⟩
      exact ((negation_suffix f t).trans (skip_suffix f t)).trans ht
  by_cases hclose : c = ']'
  · subst hclose
    cases outer with
    | nil =>
      cases h
      exact .inl rfl
    | cons parent outer =>
      cases h
      exact .inr ⟨rfl, ht⟩
  rw [bracketStep_other f current outer hopen hclose] at h
  cases hoperation : operation? (c :: t) with
  | some p =>
    rw [hoperation] at h
    cases h
    exact .inr ⟨rfl, (leaves_operation? (c :: t) _ _ hoperation).trans ht⟩
  | none =>
    rw [hoperation] at h
    obtain ⟨⟨set, rest⟩, hset, h⟩ := Option.map_eq_some_iff.1 h
    cases h
    exact .inr ⟨rfl, leaves_readMembers f _ _ _ hset⟩

/-- **What brackets close to ends with a bracket.** -/
theorem readBracket_leaves (f : Flags) : ∀ (steps : Nat) (current : OpenBracket) (outer : List OpenBracket)
    (s : List Char) {set : CharClass} {rest : List Char},
    readBracket f steps current outer s = some (set, rest) → ']' :: rest <:+ f.skip s
  | 0, _, _, _, _, _, h => nomatch h
  | steps + 1, current, outer, s, set, rest, h => by
    rw [readBracket_succ] at h
    obtain ⟨⟨a, next⟩, hstep, hnext⟩ := Option.bind_eq_some_iff.1 h
    rcases a with set' | b
    · cases hnext
      rcases bracketStep_leaves hstep with hclose | ⟨hright, -⟩
      · exact hclose ▸ List.suffix_refl _
      · cases hright
    · have hrest := readBracket_leaves f steps b.1 b.2 next hnext
      rcases bracketStep_leaves hstep with hclose | ⟨-, hsuffix⟩
      · rw [hclose]
        exact (hrest.trans (skip_suffix f next)).trans (List.suffix_cons _ _)
      · exact (hrest.trans (skip_suffix f next)).trans hsuffix

/-- Whether the outermost bracket is still open where the text is spent, or all but a hyphen of it. -/
def StillOpen (w : List Char) (f : Flags) (a : CharClass ⊕ OpenBracket × List OpenBracket) (rest : List Char) : Prop :=
  a.isRight = true ∧ Adrift w f a rest

/-- A step that reads the closing parenthesis does not close the outermost bracket. -/
theorem tracks_bracketStep {w : List Char} (f : Flags) (current : OpenBracket) (outer : List OpenBracket)
    (s : List Char) : Tracks w s.tail (StillOpen w f) fun v => bracketStep f current outer (s ++ v) := by
  have hmembers : Tracks w s.tail (StillOpen w f) fun v =>
      (readMembers f (s ++ v)).map fun (set, rest) => (.inr (current.add set, outer), rest) :=
    (tracks_readMembers f s).map (fun _ _ hrest => .some hrest) (fun _ _ hrest => ⟨rfl, hrest⟩)
  rcases s with _ | ⟨c, t⟩
  · refine .congr (fun v hv => ?_) hmembers
    rcases hv with rfl | ⟨w, rfl⟩
    · rfl
    · rw [List.nil_append, bracketStep_other f current outer (by decide) (by decide), operation?_paren]
  by_cases hopen : c = '['
  · subst hopen
    have hposix {v : List Char} (hv : Closing v) := readPosix_closing f t hv
    cases hread : readPosix f t with
    | some p =>
      refine .congr (y := fun v => some (.inr (current.add p.1, outer), p.2 ++ v)) (fun v hv => ?_)
        (.some (leaves_readPosix f t _ _ hread))
      rw [List.cons_append, bracketStep, hposix hv, hread]
      rfl
    | none =>
      have hopened : Tracks w t (StillOpen w f) fun v =>
          (openBracket f (t ++ v)).map fun p => (.inr (p.1, current :: outer), p.2) :=
        (tracks_openBracket f t).map (fun _ _ hrest => .some hrest) (fun _ _ hrest => ⟨rfl, .inl hrest⟩)
      refine .congr (fun v hv => ?_) hopened
      rw [List.cons_append, bracketStep, hposix hv, hread]
      rfl
  by_cases hclose : c = ']'
  · subst hclose
    cases outer with
    | nil => exact .some (List.suffix_refl t)
    | cons parent outer => exact .some (List.suffix_refl t)
  cases hread : operation? (c :: t) with
  | some p =>
    refine .congr (y := fun v => some (.inr (current.operate f p.1, outer), p.2 ++ v)) (fun v hv => ?_)
      (.some (leaves_operation? (c :: t) _ _ hread))
    rw [List.cons_append, bracketStep_other f current outer hopen hclose, ← List.cons_append, operation?_closing _ hv,
      hread]
    rfl
  | none =>
    refine .congr (fun v hv => ?_) hmembers
    rw [List.cons_append, bracketStep_other f current outer hopen hclose, ← List.cons_append, operation?_closing _ hv,
      hread]
    rfl

@[simp] theorem isSpace_hyphen : Unicode.isSpace '-' = false := by decide

/-- A hyphen that is all that is left of a text is a member, and the text is spent after it. -/
theorem bracketStep_hyphen {w : List Char} {f : Flags} {blank : List Char} (hblank : f.skip blank = [])
    (current : OpenBracket) (outer : List OpenBracket) :
    Leaves (')' :: w) (bracketStep f current outer ('-' :: (blank ++ ')' :: w))) := by
  have hoperation : operation? ('-' :: (blank ++ ')' :: w)) = none := by
    rcases blank with _ | ⟨c, t⟩
    · rfl
    · have hc : '-' ≠ c := fun e => by
        subst e
        simp [Flags.skip, dropBlank] at hblank
      simp [operation?, hc]
  have hskip : f.skip (blank ++ ')' :: w) <:+ ')' :: w := by
    rcases skip_closing w f blank with h | ⟨h, -⟩
    · rw [h _ (closing_paren w), hblank]
      exact List.suffix_refl _
    · exact h.trans (List.suffix_cons _ _)
  rw [bracketStep_other f current outer (by decide) (by decide), hoperation, readMembers_eq]
  exact ((leaves_rangeFrom f (.literal '-') _).longer hskip).map fun _ _ h => h

/-- A bracket that is still open where the text is spent is closed by one after the parenthesis. -/
theorem readBracket_adrift {w : List Char} {f : Flags} {steps : Nat} {b : OpenBracket × List OpenBracket}
    {s rest : List Char} {set : CharClass} (hs : Adrift w f b s)
    (h : readBracket f steps b.1 b.2 s = some (set, rest)) : rest <:+ w := by
  rcases hs with hs | ⟨blank, rfl, hblank⟩
  · have hrest := (readBracket_leaves f _ _ _ _ h).trans ((skip_suffix f s).trans hs)
    exact List.suffix_of_cons_suffix_cons (by decide) hrest
  cases steps with
  | zero => cases h
  | succ steps =>
    have hskip : f.skip ('-' :: (blank ++ ')' :: w)) = '-' :: (blank ++ ')' :: w) := by
      simp [Flags.skip, dropBlank]
    rw [readBracket_succ, hskip] at h
    obtain ⟨⟨a, next⟩, hstep, hnext⟩ := Option.bind_eq_some_iff.1 h
    have hspent := bracketStep_hyphen hblank b.1 b.2 _ _ hstep
    rcases a with set' | c
    · rcases bracketStep_leaves hstep with hclose | ⟨hright, -⟩
      · cases hclose
      · cases hright
    · have hrest := (readBracket_leaves f _ _ _ _ hnext).trans ((skip_suffix f next).trans hspent)
      exact List.suffix_of_cons_suffix_cons (by decide) hrest

/-- **What brackets close to is read from the text before the parenthesis**, in as many steps as there are characters, or
else the parenthesis is read. -/
theorem readBracket_closing {w : List Char} (f : Flags) : ∀ (steps : Nat) (current : OpenBracket)
    (outer : List OpenBracket) (s : List Char) {set : CharClass} {rest : List Char},
    readBracket f steps current outer (s ++ ')' :: w) = some (set, rest) →
      (∃ rest', rest' <:+ s ∧ ∀ v, Closing v → ∀ enough, (s ++ v).length < enough →
        readBracket f enough current outer (s ++ v) = some (set, rest' ++ v)) ∨ rest <:+ w
  | 0, _, _, _, _, _, h => nomatch h
  | steps + 1, current, outer, s, set, rest, h => by
    rcases skip_closing w f s with hskip | ⟨hskip, -⟩
    swap
    · exact .inr ((List.suffix_cons _ _).trans ((readBracket_leaves f _ _ _ _ h).trans hskip))
    rw [readBracket_succ, hskip _ (closing_paren w)] at h
    obtain ⟨⟨a, next⟩, hstep, hnext⟩ := Option.bind_eq_some_iff.1 h
    rcases tracks_bracketStep f current outer _ _ _ hstep with ⟨next', hsuffix, hstep'⟩ | ⟨hright, hlost⟩
    · dsimp only at hstep'
      have hne : f.skip s ≠ [] := fun e => by
        have := hstep' [] closing_nil
        rw [e] at this
        cases this
      have hs : next' <:+ s := hsuffix.trans ((List.tail_suffix _).trans (skip_suffix f s))
      have hlt : next'.length < s.length := List.length_lt_of_suffix_tail hsuffix hne (skip_suffix f s)
      obtain ⟨-, rfl⟩ := Prod.mk.inj (Option.some.inj (hstep.symm.trans (hstep' _ (closing_paren w))))
      rcases a with set' | b
      · cases hnext
        refine .inl ⟨next', hs, fun v hv enough henough => ?_⟩
        obtain ⟨k, rfl⟩ := Nat.exists_eq_add_of_lt henough
        rw [readBracket_succ, hskip v hv, hstep' v hv]
        rfl
      · refine (readBracket_closing f steps b.1 b.2 next' hnext).imp_left ?_
        rintro ⟨rest', hrest', hread⟩
        refine ⟨rest', hrest'.trans hs, fun v hv enough henough => ?_⟩
        obtain ⟨k, rfl⟩ := Nat.exists_eq_add_of_lt henough
        rw [readBracket_succ, hskip v hv, hstep' v hv]
        refine hread v hv _ ?_
        simp only [List.length_append] at henough ⊢
        omega
    · cases a with
      | inl set => cases hright
      | inr b => exact .inr (readBracket_adrift (b := b) hlost hnext)

theorem leaves_readClass (f : Flags) (s : List Char) : Leaves s (readClass f s) := by
  refine ((leaves_openBracket f s).longer ((negation_suffix f s).trans (skip_suffix f s))).bind ?_
  intro start rest hrest set rest' h
  have hclosed := readBracket_leaves f _ _ _ _ h
  exact ((List.suffix_cons _ _).trans (hclosed.trans (skip_suffix f rest))).trans hrest

/-- A class is read from the text before the closing parenthesis whole, or that has been read as well. -/
theorem tracks_readClass {w : List Char} (f : Flags) (s : List Char) :
    Tracks w s (Past w) fun v => readClass f (s ++ v) := by
  refine (tracks_openBracket f s).bind (fun start rest hrest set rest' h => ?_) (fun start rest hlost set rest' h => ?_)
  · refine (readBracket_closing f _ _ _ _ h).imp_left ?_
    rintro ⟨rest', hrest', h'⟩
    exact ⟨rest', hrest'.trans hrest, fun v hv => h' v hv _ (Nat.lt_succ_self _)⟩
  · exact readBracket_adrift (b := (start, [])) (.inl hlost) h

end Regex
end LayeredParse
