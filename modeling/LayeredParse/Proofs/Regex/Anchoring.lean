import LayeredParse.Proofs.Regex.Documented
import LayeredParse.Proofs.Regex.Matches
import LayeredParse.Proofs.Regex.Steps
/-!
# Anchoring — groups and anchors, as the reader reads them

In a group the reader takes the steps of a reader of the text in it alone, with the group around its own
(`Builder.within`), up to the parenthesis that closes the group.  Such steps are a path (`Regex.Path`), which does not
depend on what comes after the text.  So what is between the parentheses of a group is an expression by itself
(`exists_path`), and the reader is one more engine that follows the documented rules (`Regex.engine_documented`).
-/
namespace LayeredParse
namespace Regex

namespace Builder

/-- The same with further groups open around all others. -/
def within (d : Builder) (around : List OpenGroup) : Builder :=
  { d with outer := d.outer ++ around }

variable {d : Builder} {around : List OpenGroup}

@[simp] theorem within_flags : (d.within around).flags = d.flags := rfl

@[simp] theorem within_nil : d.within [] = d := by
  simp [within]

theorem repeated_within (least : Nat) (most : Option Nat) :
    (d.within around).repeated least most = (d.repeated least most).map (·.within around) := by
  rcases d with ⟨_ | ⟨r, items⟩, _, _, _, _⟩
  · rfl
  · cases r <;> rfl

theorem closeGroup_within (hd : d.outer ≠ []) : (d.within around).closeGroup = d.closeGroup.map (·.within around) := by
  unfold closeGroup within
  cases houter : d.outer with
  | nil => exact absurd houter hd
  | cons h outer => rfl

end Builder

theorem readMarked_within (d : Builder) (around : List OpenGroup) (s : List Char) :
    readMarked (d.within around) s = (readMarked d s).map fun p => (p.1.within around, p.2) := by
  unfold readMarked
  cases angled? s with
  | some rest =>
    dsimp only
    rw [Option.map_map]
    rfl
  | none =>
    dsimp only
    rw [Option.map_map]
    refine Option.map_congr fun ⟨⟨flags, ofGroup⟩, rest⟩ _ => ?_
    cases ofGroup <;> rfl

theorem readGroup_within (d : Builder) (around : List OpenGroup) (s : List Char) :
    readGroup (d.within around) s = (readGroup d s).map fun p => (p.1.within around, p.2) := by
  by_cases hmarked : ∃ rest, d.flags.skip s = '?' :: rest
  · obtain ⟨rest, hrest⟩ := hmarked
    rw [readGroup_marked (d.within around) hrest, readGroup_marked d hrest, readMarked_within]
  · have hbare : ∀ rest, d.flags.skip s ≠ '?' :: rest := fun rest e => hmarked ⟨rest, e⟩
    rw [readGroup_bare (d.within around) hbare, readGroup_bare d hbare]
    rfl

/-- A step does not depend on groups around all others that it does not close. -/
theorem step_within {d : Builder} {around : List OpenGroup} {c : Char} (hc : c = ')' → d.outer ≠ []) (s : List Char) :
    step (d.within around) c s = (step d c s).map fun p => (p.1.within around, p.2) := by
  unfold step
  split
  · exact readGroup_within d around s
  · rw [Builder.closeGroup_within (hc rfl), Option.map_map, Option.map_map]
    rfl
  · rfl
  · rw [Option.map_map]
    rfl
  · rw [Builder.repeated_within, Option.map_map, Option.map_map]
    rfl
  · rw [Builder.repeated_within, Option.map_map, Option.map_map]
    rfl
  · rw [Builder.repeated_within, Option.map_map, Option.map_map]
    rfl
  · rw [Builder.within_flags]
    rcases d.flags.readBraced false s with _ | ⟨inside, rest⟩
    · rfl
    dsimp only [Option.bind_some]
    rcases bounds? inside with _ | ⟨least, most⟩
    · rfl
    dsimp only [Option.bind_some]
    rw [Builder.repeated_within, Option.map_map, Option.map_map]
    rfl
  · rw [Option.map_map]
    refine Option.map_congr fun ⟨atom, rest⟩ _ => ?_
    cases atom <;> rfl
  · rw [Option.map_map]
    rfl
  · rfl
  · rfl
  · rfl

/-! ## Paths -/

/-- The reader comes from one state to another by steps through the whole text, whatever comes after that, and closes no
group that is not open. -/
inductive Path : Builder → List Char → Builder → Prop
  | done {d : Builder} {s : List Char} : (∀ v, Closing v → d.flags.skip (s ++ v) = v) → Path d s d
  | step {d d' e : Builder} {s t rest : List Char} {c : Char} :
      (∀ v, Closing v → d.flags.skip (s ++ v) = c :: (t ++ v)) → (c = ')' → d.outer ≠ []) →
      (∀ v, Closing v → step d c (t ++ v) = some (d', rest ++ v)) → Path d' rest e → Path d s e

/-- **The reader goes along a path**, with any groups around. -/
theorem Path.readOn {d e : Builder} {s : List Char} (h : Path d s e) : ∃ k ≤ s.length, ∀ (around : List OpenGroup) v,
    Closing v → ∀ steps, readOn (k + steps) (d.within around) (s ++ v) = Regex.readOn steps (e.within around) v := by
  induction h with
  | done hskip =>
    refine ⟨0, Nat.zero_le _, fun around v hv steps => ?_⟩
    cases steps with
    | zero => rfl
    | succ steps => rw [Nat.zero_add, Regex.readOn, Regex.readOn, Builder.within_flags, hskip v hv, hv.skip]
  | @step d d' e s t rest c hskip hc hstep _ ih =>
    obtain ⟨k, hk, hread⟩ := ih
    refine ⟨k + 1, ?_, fun around v hv steps => ?_⟩
    · have hrest := (leaves_step d c _ _ _ (hstep [] closing_nil)).length_le
      have ht := (hskip [] closing_nil ▸ skip_suffix d.flags (s ++ [])).length_le
      simp only [List.append_nil, List.length_cons] at hrest ht
      omega
    · rw [Nat.add_right_comm, Regex.readOn, Builder.within_flags, hskip v hv]
      dsimp only
      rw [step_within hc, hstep v hv]
      exact hread around v hv steps

@[simp] theorem isSpace_brace : Unicode.isSpace '\x7b' = false := by decide

@[simp] theorem skip_brace (f : Flags) (s : List Char) : f.skip ('\x7b' :: s) = '\x7b' :: s := by
  simp [Flags.skip, dropBlank]

/-- No path begins with a brace that has nothing that counts after it. -/
theorem not_path_brace {d e : Builder} {blank : List Char} (hblank : d.flags.skip blank = []) :
    ¬Path d ('\x7b' :: blank) e := by
  intro h
  cases h with
  | done hskip =>
    have hnil := hskip [] closing_nil
    simp at hnil
  | step hskip _ hstep _ =>
    have hbrace := hskip [] closing_nil
    have hsome := hstep [] closing_nil
    simp only [List.append_nil, skip_brace, List.cons.injEq] at hbrace hsome
    obtain ⟨rfl, rfl⟩ := hbrace
    rw [step_brace, readBraced_skipped hblank] at hsome
    cases hsome

/-- A step that ends before the closing parenthesis is the same whatever comes after the text, if a path goes on from
there. -/
theorem step_before {d d' e : Builder} {c : Char} {s rest w : List Char} (h : Path d' rest e)
    (hstep : step d c (s ++ ')' :: w) = some (d', rest ++ ')' :: w)) (v : List Char) (hv : Closing v) :
    step d c (s ++ v) = some (d', rest ++ v) := by
  rcases tracks_step d c s _ _ hstep with ⟨rest', -, hall⟩ | hlost | ⟨blank, hbrace, hblank⟩
  · have hrest := (Prod.mk.inj (Option.some.inj (hstep.symm.trans (hall _ (closing_paren w))))).2
    rw [List.append_cancel_right_eq] at hrest
    rw [hrest]
    exact hall v hv
  · exact absurd hlost List.not_append_cons_suffix
  · rw [← List.cons_append, List.append_cancel_right_eq] at hbrace
    exact absurd (hbrace ▸ h) (not_path_brace hblank)

/-- **A group that is read has a path through the text in it**, up to the parenthesis that closes the group. -/
theorem exists_path {g : OpenGroup} : ∀ {steps : Nat} {d : Builder} {s : List Char} {r : Regex},
    readOn steps (d.within [g]) s = some r → ∃ u w e, s = u ++ ')' :: w ∧ Path d u e ∧ e.outer = []
  | 0, _, _, _, h => nomatch h
  | steps + 1, d, s, r, h => by
    rw [readOn, Builder.within_flags] at h
    rcases hs : d.flags.skip s with _ | ⟨c, t⟩ <;> rw [hs] at h
    · simp [Builder.finish, Builder.within] at h
    obtain ⟨blank, hblank⟩ := hs ▸ skip_suffix d.flags s
    by_cases hclose : c = ')' ∧ d.outer = []
    · obtain ⟨rfl, houter⟩ := hclose
      rw [← hblank] at hs
      exact ⟨blank, t, d, hblank.symm, .done (skip_before (hs.trans (List.nil_append _).symm)), houter⟩
    have hc : c = ')' → d.outer ≠ [] := fun hc houter => hclose ⟨hc, houter⟩
    obtain ⟨⟨_, rest⟩, hwithin, hread⟩ := Option.bind_eq_some_iff.1 h
    rw [step_within hc] at hwithin
    obtain ⟨⟨d', rest⟩, hstep, heq⟩ := Option.map_eq_some_iff.1 hwithin
    cases heq
    obtain ⟨u, w, e, rfl, hpath, houter⟩ := exists_path hread
    obtain ⟨used, rfl⟩ := leaves_step d c t _ _ hstep
    -- the step has read `used`, so the text in the group is all up to there with `u` after it
    have hsplit : s = (blank ++ c :: (used ++ u)) ++ ')' :: w := by
      rw [← hblank]
      simp
    rw [← List.append_assoc] at hs hstep
    rw [hsplit] at hs
    have hskip := skip_before (hs.trans (List.cons_append ..).symm)
    exact ⟨_, w, e, hsplit, .step hskip hc (step_before hpath hstep) hpath, houter⟩

/-! ## Expressions in groups -/

/-- The expression that a text writes, however deep or large. -/
def expression? (s : List Char) : Option Regex :=
  readOn (s.length + 1) {} s

theorem parse?_eq (s : List Char) : parse? s =
    (expression? s).filter fun r => r.nesting ≤ nestingLimit && r.expandedSize ≤ sizeLimit := rfl

namespace Path

variable {e : Builder} {u : List Char}

theorem expression? (h : Path {} u e) (he : e.outer = []) : expression? u = some e.body := by
  obtain ⟨k, hk, hread⟩ := h.readOn
  have hend := hread [] [] closing_nil (u.length - k + 1)
  rw [List.append_nil, Builder.within_nil, Builder.within_nil, ← Nat.add_assoc, Nat.add_sub_cancel' hk] at hend
  rw [Regex.expression?, hend, Regex.readOn, skip_nil]
  simp [Builder.finish, he]

/-- A text that closes a group it has not opened is no expression. -/
theorem unopened (h : Path {} u e) (he : e.outer = []) (w : List Char) :
    Regex.expression? (u ++ ')' :: w) = none := by
  obtain ⟨k, hk, hread⟩ := h.readOn
  have hend := hread [] (')' :: w) (closing_paren w) (u.length - k + (w.length + 1) + 1)
  have hsteps : k + (u.length - k + (w.length + 1) + 1) = (u ++ ')' :: w).length + 1 := by
    simp only [List.length_append, List.length_cons]
    omega
  rw [hsteps, Builder.within_nil, Builder.within_nil] at hend
  rw [Regex.expression?, hend, Regex.readOn, skip_paren]
  simp [Regex.step, Builder.closeGroup, he]

/-- The parenthesis after the text closes the group that the text is in. -/
theorem closes (h : Path {} u e) (he : e.outer = []) (g : OpenGroup) (w : List Char) (steps : Nat) :
    ∃ more, Regex.readOn (u.length + (steps + 1)) (({} : Builder).within [g]) (u ++ ')' :: w) =
      Regex.readOn (more + steps)
        { items := group e.body :: g.items, branches := g.branches, flags := g.flags, names := e.names } w := by
  obtain ⟨k, hk, hread⟩ := h.readOn
  refine ⟨u.length - k, ?_⟩
  have hend := hread [g] (')' :: w) (closing_paren w) (u.length - k + steps + 1)
  have hsteps : k + (u.length - k + steps + 1) = u.length + (steps + 1) := by omega
  rw [hsteps] at hend
  have hclose : (e.within [g]).closeGroup =
      some { items := group e.body :: g.items, branches := g.branches, flags := g.flags, names := e.names } := by
    rw [Builder.closeGroup, Builder.within, he]
    rfl
  rw [hend, Regex.readOn, Builder.within_flags, skip_paren]
  simp [Regex.step, hclose]

end Path

/-! ## The reader is an engine -/

/-- The dialect of the reader. -/
def dialect : Dialect where
  IsExpression s := (expression? s.toList).isSome
  Spans s value i j := ∃ r, expression? s.toList = some r ∧ i ≤ value.length ∧ r.Matches value.toList i j

theorem compile?_eq_some {s : String} {accepts : String → Bool} (h : engine.compile? s = some accepts) :
    ∃ r, expression? s.toList = some r ∧ ∀ value, accepts value = r.accepts value.toList := by
  obtain ⟨r, hr, rfl⟩ := Option.map_eq_some_iff.1 h
  exact ⟨r, (Option.filter_eq_some_iff.1 (parse?_eq _ ▸ hr)).1, fun _ => rfl⟩

theorem spans_iff {s value : String} {r : Regex} (hr : expression? s.toList = some r) {i j : Nat} :
    dialect.Spans s value i j ↔ i ≤ value.length ∧ r.Matches value.toList i j := by
  simp [dialect, hr]

theorem not_isExpression {s : String} (h : expression? s.toList = none) : ¬dialect.IsExpression s := by
  simp [dialect, h]

/-- The group around a text, with the items before it. -/
def opening (items : List Regex) : OpenGroup :=
  ⟨items, [], {}⟩

theorem readOn_group (s : List Char) (steps : Nat) :
    readOn (steps + 1) {} ('(' :: '?' :: ':' :: s) = readOn steps (({} : Builder).within [opening []]) s := rfl

theorem readOn_caret (s : List Char) (steps : Nat) : readOn (steps + 2) {} ('^' :: '(' :: '?' :: ':' :: s) =
    readOn steps (({} : Builder).within [opening [look .textStart .word]]) s := rfl

theorem readOn_nil {d : Builder} (hd : d.outer = []) (steps : Nat) : readOn (steps + 1) d [] = some d.body := by
  rw [readOn, skip_nil]
  simp [Builder.finish, hd]

@[simp] theorem isSpace_dollar : Unicode.isSpace '$' = false := by decide

theorem readOn_dollar {d : Builder} (hd : d.outer = []) (hflags : d.flags = {}) (steps : Nat) :
    readOn (steps + 2) d ['$'] = some (d.add (look .textEnd .word)).body := by
  have hskip : d.flags.skip ['$'] = ['$'] := by simp [Flags.skip, dropBlank]
  have hadd : d.addAtom (.look d.flags.endAnchor) = d.add (look .textEnd .word) := by
    simp [Builder.addAtom, hflags, Flags.endAnchor]
  have hd' : (d.add (look .textEnd .word)).outer = [] := hd
  rw [readOn, hskip]
  simp only [step, hadd, Option.bind_some]
  exact readOn_nil hd' steps

theorem toList_group (u : String) : (Dialect.group u).toList = '(' :: '?' :: ':' :: (u.toList ++ [')']) := by
  simp [Dialect.group]

section Shapes

variable {u : String} {e : Builder}

theorem expression?_group (h : Path {} u.toList e) (he : e.outer = []) :
    expression? (Dialect.group u).toList = some (group e.body) := by
  obtain ⟨more, hmore⟩ := h.closes he (opening []) [] 3
  rw [expression?, toList_group]
  simp only [List.length_cons, List.length_append, List.length_nil]
  rw [readOn_group, hmore]
  exact readOn_nil rfl _

theorem expression?_caret (h : Path {} u.toList e) (he : e.outer = []) :
    expression? ("^" ++ Dialect.group u).toList = some (concat [look .textStart .word, group e.body]) := by
  obtain ⟨more, hmore⟩ := h.closes he (opening [look .textStart .word]) [] 3
  rw [expression?, String.toList_append, toList_group]
  simp only [String.reduceToList, List.cons_append, List.nil_append, List.length_cons, List.length_append,
    List.length_nil]
  rw [readOn_caret, hmore]
  exact readOn_nil rfl _

theorem expression?_dollar (h : Path {} u.toList e) (he : e.outer = []) :
    expression? ("^" ++ Dialect.group u ++ "$").toList =
      some (concat [look .textStart .word, group e.body, look .textEnd .word]) := by
  obtain ⟨more, hmore⟩ := h.closes he (opening [look .textStart .word]) ['$'] 4
  rw [expression?, String.toList_append, String.toList_append, toList_group]
  simp only [String.reduceToList, List.cons_append, List.nil_append, List.append_assoc, List.length_cons,
    List.length_append, List.length_nil]
  rw [readOn_caret, hmore]
  exact readOn_dollar rfl rfl _

end Shapes

/-- **A text is an expression in a group as well as by itself just if there is a path through it.** -/
theorem isBody_iff {u : String} : dialect.IsBody u ↔ ∃ e, Path {} u.toList e ∧ e.outer = [] := by
  constructor
  · rintro ⟨halone, hgrouped⟩
    obtain ⟨r, hr⟩ := Option.isSome_iff_exists.1 hgrouped
    rw [expression?, toList_group, List.length_cons, readOn_group] at hr
    obtain ⟨u', w, e, hsplit, hpath, he⟩ := exists_path hr
    rcases List.eq_nil_or_concat w with rfl | ⟨w, c, rfl⟩
    · rw [List.append_cancel_right_eq] at hsplit
      exact ⟨e, hsplit ▸ hpath, he⟩
    · -- the text closes the group that it is put in
      rw [List.concat_eq_append, ← List.cons_append, ← List.append_assoc] at hsplit
      have hu := (List.append_inj' hsplit rfl).1
      have hnone : expression? u.toList = none := by rw [hu, hpath.unopened he]
      exact absurd halone (not_isExpression hnone)
  · rintro ⟨e, hpath, he⟩
    exact ⟨Option.isSome_of_eq_some (hpath.expression? he), Option.isSome_of_eq_some (expression?_group hpath he)⟩

/-- **The reader follows the documented rules.** -/
theorem engine_documented : engine.Documented dialect where
  compiled h := by
    obtain ⟨accepts, haccepts⟩ := Option.isSome_iff_exists.1 h
    obtain ⟨r, hr, -⟩ := compile?_eq_some haccepts
    exact Option.isSome_of_eq_some hr
  search h value := by
    obtain ⟨r, hr, haccepts⟩ := compile?_eq_some h
    simp only [haccepts, accepts_iff, spans_iff hr, String.length_toList, exists_and_left]
  closes {s} h := by
    obtain ⟨r, hr⟩ := Option.isSome_iff_exists.1 h
    have hlist : ("^(?:" ++ s).toList = '^' :: '(' :: '?' :: ':' :: s.toList := by simp
    rw [hlist, expression?, List.length_cons, List.length_cons, Nat.add_assoc, readOn_caret] at hr
    obtain ⟨u, w, e, hsplit, hpath, he⟩ := exists_path hr
    refine ⟨.ofList u, .ofList w, String.toList_injective (by simp [hsplit]), isBody_iff.2 ⟨e, ?_, he⟩⟩
    rwa [String.toList_ofList]
  unopened {u w} hu h := by
    obtain ⟨e, hpath, he⟩ := isBody_iff.1 hu
    have hlist : (u ++ ")" ++ w).toList = u.toList ++ ')' :: w.toList := by simp
    exact not_isExpression (by rw [hlist, hpath.unopened he]) h
  grouped hu value i j := by
    obtain ⟨e, hpath, he⟩ := isBody_iff.1 hu
    rw [spans_iff (hpath.expression? he), spans_iff (expression?_group hpath he)]
    rfl
  caret hu value i j := by
    obtain ⟨e, hpath, he⟩ := isBody_iff.1 hu
    rw [spans_iff (expression?_group hpath he), spans_iff (expression?_caret hpath he), matches_caret]
    exact and_left_comm
  dollar hu value i j := by
    obtain ⟨e, hpath, he⟩ := isBody_iff.1 hu
    rw [spans_iff (expression?_caret hpath he), spans_iff (expression?_dollar hpath he), matches_dollar,
      String.length_toList, and_assoc]

end Regex
end LayeredParse
