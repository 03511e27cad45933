import LayeredParse.Proofs.Lists
import LayeredParse.Regex.Bracket
/-!
# Tracking — reading a text with a closing parenthesis after it

The text in a group has a closing parenthesis after it, and more behind that.  A reading of a text with the parenthesis and
`w` after it is tracked (`Regex.Tracks`) if it reads the same as with anything else after it that begins with a closing
parenthesis, or with nothing, and leaves that over; or else it has read the parenthesis, and is lost.  Readers made from
readers that are tracked are so themselves.  A comment may swallow the parenthesis (`skip_closing`), and so may what stands
in braces (`tracks_readBraced`).
-/
namespace LayeredParse
namespace Regex

/-- What may stand after the text of a group: the parenthesis that closes it, and anything after that.  After a text by
itself stands nothing. -/
def Closing (v : List Char) : Prop :=
  v = [] ∨ ∃ w, v = ')' :: w

theorem closing_nil : Closing [] :=
  .inl rfl

theorem closing_paren (w : List Char) : Closing (')' :: w) :=
  .inr ⟨w, rfl⟩

theorem Closing.ne_cons {v : List Char} (hv : Closing v) {c : Char} (hc : c ≠ ')') (rest : List Char) : v ≠ c :: rest := by
  rcases hv with rfl | ⟨w, rfl⟩
  · exact (List.cons_ne_nil _ _).symm
  · exact fun e => hc (List.cons.inj e).1.symm

/-! ## What readings leave over -/

/-- Whether what a reading leaves over is an end of the text. -/
def Leaves {α : Type} (s : List Char) (x : Reading α) : Prop :=
  ∀ a rest, x = some (a, rest) → rest <:+ s

namespace Leaves

variable {α β : Type} {s t rest : List Char} {x : Reading α}

theorem none : Leaves s (none : Reading α) :=
  fun _ _ h => nomatch h

theorem some {a : α} (h : rest <:+ s) : Leaves s (some (a, rest)) := by
  rintro _ _ ⟨⟩
  exact h

theorem longer (h : Leaves s x) (hst : s <:+ t) : Leaves t x :=
  fun a rest hx => (h a rest hx).trans hst

theorem bind {f : α × List Char → Reading β} (h : Leaves s x) (hf : ∀ a rest, rest <:+ s → Leaves s (f (a, rest))) :
    Leaves s (x.bind f) := by
  intro b rest hx
  obtain ⟨⟨a, next⟩, ha, hb⟩ := Option.bind_eq_some_iff.1 hx
  exact hf a next (h a next ha) b rest hb

theorem map {f : α × List Char → β × List Char} (h : Leaves s x) (hf : ∀ a rest, rest <:+ s → (f (a, rest)).2 <:+ s) :
    Leaves s (x.map f) := by
  rw [Option.map_eq_bind]
  exact h.bind fun a rest hrest => .some (hf a rest hrest)

theorem read {o : Option β} {f : β → α} (h : rest <:+ s) : Leaves s (o.map fun b => (f b, rest)) := by
  cases o with
  | none => exact .none
  | some b => exact .some h

end Leaves

/-- The reading of the text `s` with the closing parenthesis and `w` after it is that with any closing after it, which it
leaves over, or it is lost. -/
def Tracks {α : Type} (w s : List Char) (lost : α → List Char → Prop) (x : List Char → Reading α) : Prop :=
  ∀ a rest, x (')' :: w) = some (a, rest) →
    (∃ rest', rest' <:+ s ∧ ∀ v, Closing v → x v = some (a, rest' ++ v)) ∨ lost a rest

/-- Whether the closing parenthesis has been read as well. -/
def Past {α : Type} (w : List Char) (_ : α) (rest : List Char) : Prop :=
  rest <:+ w

namespace Tracks

variable {α β : Type} {w s t : List Char} {lost : α → List Char → Prop} {lost' : β → List Char → Prop}
  {x y : List Char → Reading α}

theorem none : Tracks w s lost fun _ => none :=
  fun _ _ h => nomatch h

theorem some {a : α} {rest : List Char} (h : rest <:+ s) : Tracks w s lost fun v => some (a, rest ++ v) := by
  rintro _ _ ⟨⟩
  exact .inl ⟨rest, h, fun _ _ => rfl⟩

theorem of_lost (h : ∀ a rest, x (')' :: w) = .some (a, rest) → lost a rest) : Tracks w s lost x :=
  fun a rest hx => .inr (h a rest hx)

theorem of_leaves (h : Leaves w (x (')' :: w))) : Tracks w s (Past w) x :=
  .of_lost h

theorem congr (h : ∀ v, Closing v → x v = y v) (hy : Tracks w s lost y) : Tracks w s lost x := by
  intro a rest hx
  rw [h _ (closing_paren w)] at hx
  refine (hy a rest hx).imp_left fun ⟨rest', hsuffix, hv⟩ => ⟨rest', hsuffix, fun v hclosing => ?_⟩
  rw [h v hclosing, hv v hclosing]

theorem mono {lost₂ : α → List Char → Prop} (h : Tracks w s lost x) (hst : s <:+ t)
    (hlost : ∀ a rest, lost a rest → lost₂ a rest) : Tracks w t lost₂ x := fun a rest hx =>
  (h a rest hx).imp (fun ⟨rest, hrest, h⟩ => ⟨rest, hrest.trans hst, h⟩) (hlost a rest)

theorem longer (h : Tracks w s lost x) (hst : s <:+ t) : Tracks w t lost x :=
  h.mono hst fun _ _ => id

theorem bind {f : α × List Char → Reading β} (h : Tracks w s lost x)
    (hf : ∀ a rest, rest <:+ s → Tracks w s lost' fun v => f (a, rest ++ v))
    (hlost : ∀ a rest, lost a rest → ∀ b rest', f (a, rest) = .some (b, rest') → lost' b rest') :
    Tracks w s lost' fun v => (x v).bind f := by
  intro b rest' hx
  obtain ⟨⟨a, rest⟩, ha, hb⟩ := Option.bind_eq_some_iff.1 hx
  rcases h a rest ha with ⟨rest₁, hrest, hread⟩ | ha'
  · obtain ⟨-, rfl⟩ := Prod.mk.inj (Option.some.inj (ha.symm.trans (hread _ (closing_paren w))))
    refine (hf a rest₁ hrest b rest' hb).imp_left fun ⟨rest₂, hsuffix, hv⟩ => ⟨rest₂, hsuffix, fun v hclosing => ?_⟩
    exact Option.bind_eq_some_iff.2 ⟨_, hread v hclosing, hv v hclosing⟩
  · exact .inr (hlost a rest ha' b rest' hb)

theorem map {f : α × List Char → β × List Char} (h : Tracks w s lost x)
    (hf : ∀ a rest, rest <:+ s → Tracks w s lost' fun v => .some (f (a, rest ++ v)))
    (hlost : ∀ a rest, lost a rest → lost' (f (a, rest)).1 (f (a, rest)).2) :
    Tracks w s lost' fun v => (x v).map f := by
  simp only [Option.map_eq_bind]
  refine h.bind hf fun a rest ha b rest' hb => ?_
  have hb' : f (a, rest) = (b, rest') := Option.some_inj.1 hb
  simpa only [hb'] using hlost a rest ha

theorem read {o : Option β} {f : β → α} {rest : List Char} (h : rest <:+ s) :
    Tracks w s lost fun v => o.map fun b => (f b, rest ++ v) := by
  cases o with
  | none => exact .none
  | some b => exact .some h

end Tracks

/-! ## Blanks, braces and codes -/

@[simp] theorem isSpace_paren : Unicode.isSpace ')' = false := by decide

theorem dropBlank_suffix : ∀ (inComment : Bool) (s : List Char), dropBlank inComment s <:+ s
  | _, [] => List.suffix_refl _
  | inComment, c :: s => by
    have later (b : Bool) : dropBlank b s <:+ c :: s := (dropBlank_suffix b s).trans (List.suffix_cons _ _)
    rw [dropBlank]
    split
    · exact later _
    split
    · exact later _
    split
    · exact later _
    · exact List.suffix_refl _

theorem dropBlank_closing (w : List Char) : ∀ (inComment : Bool) (s : List Char),
    (∀ v, Closing v → dropBlank inComment (s ++ v) = dropBlank inComment s ++ v) ∨
      dropBlank inComment (s ++ ')' :: w) <:+ w ∧ dropBlank inComment s = []
  | false, [] => by
    refine .inl fun v hv => ?_
    rcases hv with rfl | ⟨w, rfl⟩ <;> simp [dropBlank]
  | true, [] => .inr ⟨dropBlank_suffix _ w, rfl⟩
  | inComment, c :: s => by
    simp only [List.cons_append, dropBlank]
    split
    · exact dropBlank_closing w _ s
    split
    · exact dropBlank_closing w _ s
    split
    · exact dropBlank_closing w _ s
    · exact .inl fun _ _ => rfl

theorem skip_suffix (f : Flags) (s : List Char) : f.skip s <:+ s := by
  unfold Flags.skip
  split
  · exact dropBlank_suffix false s
  · exact List.suffix_refl s

/-- A comment that is not ended swallows the closing parenthesis. -/
theorem skip_closing (w : List Char) (f : Flags) (s : List Char) :
    (∀ v, Closing v → f.skip (s ++ v) = f.skip s ++ v) ∨ f.skip (s ++ ')' :: w) <:+ w ∧ f.skip s = [] := by
  unfold Flags.skip
  split
  · exact dropBlank_closing w false s
  · exact .inl fun _ _ => rfl

@[simp] theorem skip_nil (f : Flags) : f.skip [] = [] := by
  simp [Flags.skip, dropBlank]

@[simp] theorem skip_paren (f : Flags) (w : List Char) : f.skip (')' :: w) = ')' :: w := by
  simp [Flags.skip, dropBlank]

theorem Closing.skip {v : List Char} (hv : Closing v) (f : Flags) : f.skip v = v := by
  rcases hv with rfl | ⟨w, rfl⟩ <;> simp

/-- What comes after what does not count, if it comes before the closing parenthesis, comes whatever is after the text. -/
theorem skip_before {f : Flags} {s rest w : List Char} (h : f.skip (s ++ ')' :: w) = rest ++ ')' :: w) (v : List Char)
    (hv : Closing v) : f.skip (s ++ v) = rest ++ v := by
  rcases skip_closing w f s with hskip | ⟨hskip, -⟩
  · have hrest := hskip _ (closing_paren w)
    rw [h, List.append_cancel_right_eq] at hrest
    rw [hskip v hv, hrest]
  · rw [h] at hskip
    exact absurd hskip List.not_append_cons_suffix

theorem tracks_skipped {α : Type} {w : List Char} (f : Flags) {s rest : List Char} (a : α) (h : rest <:+ s) :
    Tracks w s (Past w) fun v => some (a, f.skip (rest ++ v)) := by
  rcases skip_closing w f rest with hskip | ⟨hskip, -⟩
  · exact .congr (fun v hv => by rw [hskip v hv]) (.some ((skip_suffix f rest).trans h))
  · exact .of_leaves (.some hskip)

theorem leaves_readBraced (f : Flags) : ∀ (inComment : Bool) (s : List Char), Leaves s (f.readBraced inComment s)
  | _, [] => .none
  | inComment, c :: s => by
    have later (b : Bool) : Leaves (c :: s) (f.readBraced b s) := (leaves_readBraced f b s).longer (List.suffix_cons _ _)
    rw [Flags.readBraced]
    split
    · exact later _
    split
    · exact later _
    split
    · exact later _
    split
    · exact .some (List.suffix_cons _ _)
    · exact (later false).map fun _ _ h => h

theorem leaves_readBraced_paren (f : Flags) (w : List Char) : ∀ inComment, Leaves w (f.readBraced inComment (')' :: w))
  | true => leaves_readBraced f _ w
  | false => by
    rw [Flags.readBraced]
    simp only [Bool.false_eq_true, if_false, isSpace_paren, Bool.and_false]
    rw [if_neg (by simp), if_neg (by decide)]
    exact (leaves_readBraced f false w).map fun _ _ h => h

theorem tracks_readBraced {w : List Char} (f : Flags) : ∀ (inComment : Bool) (s : List Char),
    Tracks w s (Past w) fun v => f.readBraced inComment (s ++ v)
  | inComment, [] => .of_leaves (leaves_readBraced_paren f w inComment)
  | inComment, c :: s => by
    have later (b : Bool) : Tracks w (c :: s) (Past w) fun v => f.readBraced b (s ++ v) :=
      (tracks_readBraced f b s).longer (List.suffix_cons _ _)
    simp only [List.cons_append, Flags.readBraced]
    split
    · exact later _
    split
    · exact later _
    split
    · exact later _
    split
    · exact .some (List.suffix_cons _ _)
    · exact (later false).map (fun _ _ h => .some h) (fun _ _ h => h)

theorem leaves_readChars (f : Flags) : ∀ (count : Nat) (s : List Char), Leaves s (readChars f count s)
  | 0, _ => .some (List.suffix_refl _)
  | _ + 1, [] => .none
  | count + 1, c :: s => by
    have hrest := (leaves_readChars f count (f.skip s)).longer ((skip_suffix f s).trans (List.suffix_cons c s))
    exact hrest.map fun _ _ h => h

theorem leaves_readChars_succ (f : Flags) (count : Nat) (c : Char) (s : List Char) :
    Leaves s (readChars f (count + 1) (c :: s)) :=
  ((leaves_readChars f count (f.skip s)).longer (skip_suffix f s)).map fun _ _ h => h

theorem tracks_readChars {w : List Char} (f : Flags) : ∀ (count : Nat) (s : List Char),
    Tracks w s (Past w) fun v => readChars f count (s ++ v)
  | 0, s => .some (List.suffix_refl _)
  | count + 1, [] => .of_leaves (leaves_readChars_succ f count ')' w)
  | count + 1, c :: s => by
    have hskip : Tracks w s (Past w) fun v => readChars f count (f.skip (s ++ v)) := by
      rcases skip_closing w f s with h | ⟨h, -⟩
      · exact .congr (fun v hv => by rw [h v hv]) ((tracks_readChars f count _).longer (skip_suffix f s))
      · exact .of_leaves ((leaves_readChars f count _).longer h)
    exact (hskip.longer (List.suffix_cons _ _)).map (fun _ _ h => .some h) (fun _ _ h => h)

theorem readBraced_blank {f : Flags} (hf : f.spaced = true) : ∀ {inComment : Bool} {s : List Char},
    dropBlank inComment s = [] → f.readBraced inComment s = none
  | _, [], _ => rfl
  | inComment, c :: s, h => by
    rw [dropBlank] at h
    rw [Flags.readBraced]
    split at h
    · rename_i hin
      rw [if_pos hin]
      exact readBraced_blank hf h
    · rename_i hin
      rw [if_neg hin]
      split at h
      · rename_i hspace
        rw [if_pos (by simp [hf, hspace])]
        exact readBraced_blank hf h
      · rename_i hspace
        rw [if_neg (by simp [hspace])]
        split at h
        · rename_i hsign
          rw [if_pos (by simp [hf, hsign])]
          exact readBraced_blank hf h
        · cases h

theorem readBraced_skipped {f : Flags} {s : List Char} (h : f.skip s = []) : f.readBraced false s = none := by
  unfold Flags.skip at h
  split at h
  · rename_i hf
    exact readBraced_blank hf h
  · rw [h]
    rfl

/-- The digits of a code: in braces, or as many as are asked for. -/
def codeDigits (f : Flags) (count : Nat) : List Char → Reading (List Char)
  | '\x7b' :: rest => f.readBraced false rest
  | rest => readChars f count rest

theorem readCode_eq (f : Flags) (count : Nat) (s : List Char) : readCode f count s =
    (codeDigits f count (f.skip s)).bind fun (digits, rest) =>
      ((hexNumber? digits).bind charOfCode?).map fun c => (.literal c, f.skip rest) := rfl

theorem codeDigits_of_ne (f : Flags) (count : Nat) {s : List Char} (h : ∀ rest, s ≠ '\x7b' :: rest) :
    codeDigits f count s = readChars f count s := by
  unfold codeDigits
  split
  · exact (h _ rfl).elim
  · rfl

theorem leaves_codeDigits (f : Flags) (count : Nat) (s : List Char) : Leaves s (codeDigits f count s) := by
  unfold codeDigits
  split
  · exact (leaves_readBraced f false _).longer (List.suffix_cons _ _)
  · exact leaves_readChars f count _

theorem tracks_codeDigits {w : List Char} (f : Flags) (count : Nat) : ∀ s : List Char,
    Tracks w s (Past w) fun v => codeDigits f count (s ++ v)
  | [] => .congr (fun _ hv => codeDigits_of_ne f count (hv.ne_cons (by decide))) (tracks_readChars f count [])
  | c :: s => by
    by_cases hc : c = '\x7b'
    · subst hc
      exact (tracks_readBraced f false s).longer (List.suffix_cons _ _)
    · refine .congr (fun v _ => codeDigits_of_ne f count fun rest e => hc ?_) (tracks_readChars f count (c :: s))
      exact (List.cons.inj e).1

theorem leaves_readCode (f : Flags) (count : Nat) (s : List Char) : Leaves s (readCode f count s) := by
  rw [readCode_eq]
  refine ((leaves_codeDigits f count _).longer (skip_suffix f s)).bind fun digits rest hrest => ?_
  exact .read ((skip_suffix f rest).trans hrest)

theorem tracks_readCode {w : List Char} (f : Flags) (count : Nat) (s : List Char) :
    Tracks w s (Past w) fun v => readCode f count (s ++ v) := by
  simp only [readCode_eq]
  refine @Tracks.bind _ _ w s (Past w) _ _ _ ?_ (fun digits rest hrest => ?_) (fun digits rest hpast => ?_)
  · rcases skip_closing w f s with h | ⟨h, -⟩
    · exact .congr (fun v hv => by rw [h v hv]) ((tracks_codeDigits f count _).longer (skip_suffix f s))
    · exact .of_leaves ((leaves_codeDigits f count _).longer h)
  · dsimp only
    cases (hexNumber? digits).bind charOfCode? with
    | none => exact .none
    | some c => exact tracks_skipped f _ hrest
  · exact Leaves.read ((skip_suffix f rest).trans hpast)

/-- The class that what is between the braces after the letter of a property names. -/
def namedProperty? (f : Flags) (negated : Bool) (name : List Char) : Option Atom :=
  match splitProperty name with
  | some (differ, property, value) =>
    (CharClass.propertyValue? property value).map fun set => .members (f.close (negated != differ) set)
  | none => (CharClass.property? name).map fun set => .members (f.close negated set)

/-- What follows the letter of a property, what does not count left out. -/
def propertyAfter (f : Flags) (negated : Bool) : List Char → Reading Atom
  | [] => none
  | c :: rest =>
    if c = '\\' then none
    else if c = '\x7b' then
      (f.readBraced false rest).bind fun (name, rest) => (namedProperty? f negated name).map fun atom => (atom, rest)
    else (CharClass.property? [c]).map fun set => (.members (f.close negated set), rest)

theorem readProperty_eq (f : Flags) (negated : Bool) (s : List Char) :
    readProperty f negated s = if !f.unicode then none else propertyAfter f negated (f.skip s) := by
  unfold readProperty
  split
  · rfl
  split
  · rename_i h
    rw [h]
    rfl
  · rename_i h
    rw [h]
    rfl
  · rename_i h
    rw [h, propertyAfter, if_neg (by decide), if_pos rfl]
    refine congrArg _ (funext fun ⟨name, rest⟩ => ?_)
    dsimp only
    unfold namedProperty?
    cases splitProperty name with
    | none => simp [Function.comp_def]
    | some p => simp [Function.comp_def]
  · rename_i c rest hslash hbrace h
    rw [h, propertyAfter, if_neg hslash, if_neg hbrace]

theorem leaves_propertyAfter (f : Flags) (negated : Bool) (c : Char) (s : List Char) :
    Leaves s (propertyAfter f negated (c :: s)) := by
  rw [propertyAfter]
  split
  · exact .none
  split
  · exact (leaves_readBraced f false s).bind fun _ _ hrest => .read hrest
  · exact .read (List.suffix_refl _)

theorem leaves_readProperty (f : Flags) (negated : Bool) (s : List Char) : Leaves s (readProperty f negated s) := by
  rw [readProperty_eq]
  split
  · exact .none
  rcases hskip : f.skip s with _ | ⟨c, t⟩
  · exact .none
  · exact (leaves_propertyAfter f negated c t).longer ((List.suffix_cons c t).trans (hskip ▸ skip_suffix f s))

theorem tracks_propertyAfter {w : List Char} (f : Flags) (negated : Bool) : ∀ s : List Char,
    Tracks w s (Past w) fun v => propertyAfter f negated (s ++ v)
  | [] => .of_leaves (leaves_propertyAfter f negated ')' w)
  | c :: s => by
    have hs : s <:+ c :: s := List.suffix_cons _ _
    simp only [List.cons_append, propertyAfter]
    split
    · exact .none
    split
    · exact ((tracks_readBraced f false s).longer hs).bind (fun _ _ hrest => .read hrest)
        (fun _ _ hpast => Leaves.read hpast)
    · exact .read hs

theorem tracks_readProperty {w : List Char} (f : Flags) (negated : Bool) (s : List Char) :
    Tracks w s (Past w) fun v => readProperty f negated (s ++ v) := by
  simp only [readProperty_eq]
  split
  · exact .none
  rcases skip_closing w f s with h | ⟨h, -⟩
  · exact .congr (fun v hv => by rw [h v hv]) ((tracks_propertyAfter f negated _).longer (skip_suffix f s))
  · rcases hskip : f.skip (s ++ ')' :: w) with _ | ⟨c, t⟩
    · refine .of_leaves ?_
      rw [hskip]
      exact .none
    · refine .of_leaves ?_
      rw [hskip] at h ⊢
      exact (leaves_propertyAfter f negated c t).longer ((List.suffix_cons c t).trans h)

/-! ## Escapes -/

/-- A word boundary is lost as well before a brace with nothing that counts after it. -/
def LostAtom (w : List Char) (f : Flags) (a : Atom) (rest : List Char) : Prop :=
  rest <:+ w ∨ ∃ condition blank, a = .look condition ∧ rest = '\x7b' :: (blank ++ ')' :: w) ∧ f.skip blank = []

/-- The condition that the name of a side of a word stands for. -/
def wordSide? (side : List Char) : Option Look :=
  match String.ofList side with
  | "start" => some .wordStart
  | "end" => some .wordEnd
  | "start-half" => some .wordStartHalf
  | "end-half" => some .wordEndHalf
  | _ => none

/-- What follows the brace after a word boundary; `whole` begins with the brace, `s` is what counts after it. -/
def boundaryAfter (f : Flags) (rest whole : List Char) : List Char → Reading Atom
  | [] => none
  | c :: _ =>
    if c.isAlpha || c == '-' then
      (f.readBraced false rest).bind fun (side, rest) => (wordSide? side).map fun look => (.look look, rest)
    else some (.look .wordBoundary, whole)

theorem readBoundary_brace (f : Flags) (s : List Char) :
    readBoundary f ('\x7b' :: s) = boundaryAfter f s ('\x7b' :: s) (f.skip s) := by
  rw [readBoundary]
  split
  · rename_i h
    rw [h]
    rfl
  · rename_i h
    rw [h, boundaryAfter]
    split
    · refine congrArg _ (funext fun read => ?_)
      obtain ⟨side, rest⟩ := read
      dsimp only [wordSide?]
      generalize String.ofList side = name
      split <;> simp [*]
    · rfl

theorem readBoundary_of_ne (f : Flags) {s : List Char} (h : ∀ rest, s ≠ '\x7b' :: rest) :
    readBoundary f s = some (.look .wordBoundary, s) := by
  unfold readBoundary
  split
  · exact (h _ rfl).elim
  · rfl

theorem leaves_boundaryAfter (f : Flags) {rest whole : List Char} (hrest : rest <:+ whole) : ∀ s : List Char,
    Leaves whole (boundaryAfter f rest whole s)
  | [] => .none
  | c :: _ => by
    rw [boundaryAfter]
    split
    · exact ((leaves_readBraced f false rest).longer hrest).bind fun _ _ h => .read h
    · exact .some (List.suffix_refl _)

theorem leaves_readBoundary (f : Flags) (s : List Char) : Leaves s (readBoundary f s) := by
  by_cases hbrace : ∃ rest, s = '\x7b' :: rest
  · obtain ⟨rest, rfl⟩ := hbrace
    rw [readBoundary_brace]
    exact leaves_boundaryAfter f (List.suffix_cons _ _) _
  · rw [readBoundary_of_ne f fun rest e => hbrace ⟨rest, e⟩]
    exact .some (List.suffix_refl _)

theorem tracks_readBoundary {w : List Char} (f : Flags) (s : List Char) :
    Tracks w s (LostAtom w f) fun v => readBoundary f (s ++ v) := by
  by_cases hbrace : ∃ t, s = '\x7b' :: t
  swap
  · have hbare : ∀ v, Closing v → ∀ rest, s ++ v ≠ '\x7b' :: rest := by
      intro v hv rest
      rcases s with _ | ⟨c, t⟩
      · exact hv.ne_cons (by decide) rest
      · rintro e
        obtain ⟨rfl, -⟩ := List.cons.inj e
        exact hbrace ⟨t, rfl⟩
    exact .congr (fun v hv => readBoundary_of_ne f (hbare v hv)) (.some (List.suffix_refl s))
  obtain ⟨t, rfl⟩ := hbrace
  have hside := tracks_readBraced (w := w) f false t
  simp only [List.cons_append, readBoundary_brace]
  by_cases hblank : f.skip t = []
  · -- whatever comes first after the blanks, the brace is not closed before the parenthesis
    refine .of_lost fun a rest hread => ?_
    rcases hskip : f.skip (t ++ ')' :: w) with _ | ⟨d, u⟩ <;> rw [hskip] at hread
    · cases hread
    rw [boundaryAfter] at hread
    split at hread
    · obtain ⟨⟨side, rest'⟩, hbraced, hread⟩ := Option.bind_eq_some_iff.1 hread
      rcases hside side rest' hbraced with ⟨_, _, hv⟩ | hpast
      · have hsome := hv [] closing_nil
        dsimp only at hsome
        rw [List.append_nil, readBraced_skipped hblank] at hsome
        cases hsome
      · exact .inl (Leaves.read hpast _ _ hread)
    · cases hread
      exact .inr ⟨_, t, rfl, rfl, hblank⟩
  · have hskip := (skip_closing w f t).resolve_right fun h => hblank h.2
    refine .congr (fun v hv => by rw [hskip v hv]) ?_
    rcases hcount : f.skip t with _ | ⟨d, u⟩
    · exact absurd hcount hblank
    simp only [List.cons_append, boundaryAfter]
    split
    · exact (hside.longer (List.suffix_cons '\x7b' t)).bind (fun _ _ hrest => .read hrest)
        (fun _ _ hpast _ _ h => .inl (Leaves.read hpast _ _ h))
    · exact .some (List.suffix_refl ('\x7b' :: t))

theorem leaves_readEscape (f : Flags) : ∀ s : List Char, Leaves s (readEscape f s)
  | [] => .none
  | c :: t => by
    have ht : t <:+ c :: t := List.suffix_cons _ _
    unfold readEscape
    dsimp only
    split
    · exact .some ht
    split
    · exact .read ht
    split
    · exact .some ht
    split
    · exact (leaves_readCode f 2 t).longer ht
    · exact (leaves_readCode f 4 t).longer ht
    · exact (leaves_readCode f 8 t).longer ht
    · exact (leaves_readProperty f false t).longer ht
    · exact (leaves_readProperty f true t).longer ht
    · exact .some ht
    · exact .some ht
    · exact (leaves_readBoundary f t).longer ht
    · exact .some ht
    · exact .some ht
    · exact .some ht
    · exact .none

theorem tracks_readEscape {w : List Char} (f : Flags) : ∀ s : List Char,
    Tracks w s (LostAtom w f) fun v => readEscape f (s ++ v)
  | [] => by
    refine .of_lost fun a rest h => ?_
    -- the closing parenthesis is a punctuation character like any other
    cases h
    exact .inl (List.suffix_refl w)
  | c :: t => by
    have ht : t <:+ c :: t := List.suffix_cons _ _
    unfold readEscape
    dsimp only [List.cons_append]
    split
    · exact .some ht
    split
    · exact .read ht
    split
    · exact .some ht
    split
    · exact (tracks_readCode f 2 t).mono ht fun _ _ => .inl
    · exact (tracks_readCode f 4 t).mono ht fun _ _ => .inl
    · exact (tracks_readCode f 8 t).mono ht fun _ _ => .inl
    · exact (tracks_readProperty f false t).mono ht fun _ _ => .inl
    · exact (tracks_readProperty f true t).mono ht fun _ _ => .inl
    · exact .some ht
    · exact .some ht
    · exact (tracks_readBoundary f t).longer ht
    · exact .some ht
    · exact .some ht
    · exact .some ht
    · exact .none

end Regex
end LayeredParse
