import LayeredParse.Proofs.Parse.Repetition
/-!
# FirstMatch — one or more and zero or more after a match

`oneOrMore` makes its first attempt before the repetition, which begins where that match ends.  If the match takes a token,
the repetition is the rest of the run that `zeroOrMore` goes through, and both end alike (`onward_concludes`).  If it takes
none, `zeroOrMore` stops with it, while `oneOrMore` has only begun and finds it again (`idle_twice`).
-/
namespace LayeredParse
namespace Grammar

variable {g : Grammar} {input : Input} {m : Matcher} {s t : State} {ns before : Forest} {i last : Nat} {is : List Nat}
  {r r' : Answer Forest × State}

/-- Whether two attempts end alike: with the same answer, at the same index and with as many rules open. -/
def Coincide (r r' : Answer Forest × State) : Prop :=
  r.1 = r'.1 ∧ State.Unmoved r.2 r'.2

/-- How a repetition ends after a run is one answer and one index. -/
theorem Concludes.unique (h : g.Concludes input m s before is last r) (h' : g.Concludes input m s before is last r') :
    r.1 = r'.1 ∧ r'.2.index = r.2.index := by
  by_cases hfatal : ∃ e t, g.attemptAt input m (s.goTo last) = (.fatal e, t)
  · obtain ⟨e, t, he⟩ := hfatal
    obtain ⟨hanswer, hindex⟩ := h.fatal e t he
    obtain ⟨hanswer', hindex'⟩ := h'.fatal e t he
    exact ⟨hanswer.trans hanswer'.symm, hindex'.trans hindex.symm⟩
  · simp only [not_exists] at hfatal
    obtain ⟨hanswer, hindex⟩ := h.matched hfatal
    obtain ⟨hanswer', hindex'⟩ := h'.matched hfatal
    exact ⟨hanswer.trans hanswer'.symm, hindex'.trans hindex.symm⟩

/-- What is matched first may be counted to the run or to what comes before it. -/
theorem Concludes.first (h : g.Concludes input m s before (i :: is) last r) :
    g.Concludes input m s (before ++ g.yield input m s i) is last r where
  fatal := h.fatal
  matched hlast := by
    rw [List.append_assoc, ← List.append_assoc (g.yield input m s i), ← List.flatMap_cons]
    exact h.matched hlast

/-- Attempts leave as many rules open as there were, so that answers and indices are all there is to compare. -/
theorem coincide_of {one two : Matcher}
    (h : (g.attemptAt input one s).1 = (g.attemptAt input two s).1 ∧
      (g.attemptAt input two s).2.index = (g.attemptAt input one s).2.index) :
    Coincide (g.attemptAt input one s) (g.attemptAt input two s) := by
  have hone := (g.attemptAt_balanced input one s).depth_eq
  have htwo := (g.attemptAt_balanced input two s).depth_eq
  exact ⟨h.1, htwo.trans hone.symm, h.2⟩

/-- **After a match that takes a token both repetitions conclude with the rest of the run**, and so they end alike. -/
theorem onward_concludes (h : g.attemptAt input m s = (.matched ns, t)) (hmoved : t.index ≠ s.index) :
    Coincide (g.attemptAt input (.oneOrMore m) s) (g.attemptAt input (.zeroOrMore m) s) ∧
      ∃ is last, g.Runs input m s t.index is last ∧
        g.Concludes input m s ns is last (g.attemptAt input (.oneOrMore m) s) ∧
        g.Concludes input m s ns is last (g.attemptAt input (.zeroOrMore m) s) := by
  have hlt : s.index < t.index := Nat.lt_of_le_of_ne (attemptAt_progress (i := s.index) h).1 (Ne.symm hmoved)
  obtain ⟨is, last, hrun⟩ := g.exists_runs input m s t.index
  have hone := (hrun.oneOrMore h).2
  have hzero := (Runs.go h hlt hrun).zeroOrMore.2.first
  rw [List.nil_append, yield_eq h] at hzero
  exact ⟨coincide_of (hone.unique hzero), is, last, hrun, hone, hzero⟩

/-- **A match that takes no token is the only one of `zeroOrMore`, and `oneOrMore` finds it twice.** -/
theorem idle_twice (h : g.attemptAt input m s = (.matched ns, t)) (hidle : t.index = s.index) :
    (∃ u, g.attemptAt input (.zeroOrMore m) s = (.matched ns, u) ∧ u.index = s.index) ∧
      ∃ u, g.attemptAt input (.oneOrMore m) s = (.matched (ns ++ ns), u) ∧ u.index = s.index := by
  have hstop : g.Runs input m s s.index [] s.index := .stop fun ns' t' h' => by
    cases h.symm.trans h'
    exact hidle
  have hlast : ∀ e t', g.attemptAt input m (s.goTo s.index) ≠ (.fatal e, t') := by
    rintro e t' h'
    cases h.symm.trans h'
  have hyield : g.yield input m s s.index = ns := yield_eq h
  obtain ⟨hzero, hzero'⟩ := hstop.zeroOrMore.2.matched hlast
  have hagain : g.Runs input m s t.index [] s.index := by
    rw [hidle]
    exact hstop
  obtain ⟨hone, hone'⟩ := (hagain.oneOrMore h).2.matched hlast
  rw [List.flatMap_nil, List.nil_append, hyield] at hzero hone
  exact ⟨⟨_, Prod.ext hzero rfl, hzero'⟩, ⟨_, Prod.ext hone rfl, hone'⟩⟩

/-- **One or more and zero or more, where there is a match.**  If the match takes a token, they end alike: with what it
has matched and the rest of the run, or with the fatal error at the end of the run.  If it takes none, `zeroOrMore` has
matched just that and `oneOrMore` has matched it twice, both where they began.  So they end alike exactly if the match
takes a token or adds nothing to the tree. -/
theorem attemptAt_oneOrMore (h : g.attemptAt input m s = (.matched ns, t)) :
    (t.index ≠ s.index →
      Coincide (g.attemptAt input (.oneOrMore m) s) (g.attemptAt input (.zeroOrMore m) s) ∧
      ∃ is last, g.Runs input m s t.index is last ∧
        g.Concludes input m s ns is last (g.attemptAt input (.oneOrMore m) s) ∧
        g.Concludes input m s ns is last (g.attemptAt input (.zeroOrMore m) s)) ∧
    (t.index = s.index →
      (∃ u, g.attemptAt input (.zeroOrMore m) s = (.matched ns, u) ∧ u.index = s.index) ∧
      ∃ u, g.attemptAt input (.oneOrMore m) s = (.matched (ns ++ ns), u) ∧ u.index = s.index) ∧
    (Coincide (g.attemptAt input (.oneOrMore m) s) (g.attemptAt input (.zeroOrMore m) s) ↔
      t.index ≠ s.index ∨ ns = []) := by
  refine ⟨onward_concludes h, idle_twice h, fun hsame => ?_, ?_⟩
  · by_cases hidle : t.index = s.index
    · obtain ⟨⟨u, hu, -⟩, v, hv, -⟩ := idle_twice h hidle
      have htwice : ns ++ ns = ns := by
        have hanswer := hsame.1
        rw [hu, hv] at hanswer
        exact Answer.matched.inj hanswer
      exact .inr (List.append_right_eq_self.1 htwice)
    · exact .inl hidle
  · intro hor
    by_cases hidle : t.index = s.index
    · obtain rfl := hor.resolve_left (not_not_intro hidle)
      obtain ⟨⟨u, hu, hindex⟩, v, hv, hindex'⟩ := idle_twice h hidle
      refine coincide_of ?_
      rw [hu, hv]
      exact ⟨rfl, hindex.trans hindex'.symm⟩
    · exact (onward_concludes h hidle).1

/-- An item is a letter or nothing.  From the letter on both repetitions have two items, the last of them empty.  Behind it
`zeroOrMore` has one empty item and `oneOrMore` has two. -/
theorem attemptAt_oneOrMore_items : ∃ (g : Grammar) (input : Input) (m : Matcher) (s t s' t' : State) (item empty : Node),
    g.attemptAt input m s = (.matched [item], t) ∧ s.index = 0 ∧ t.index = 1 ∧
      Coincide (g.attemptAt input (.oneOrMore m) s) (g.attemptAt input (.zeroOrMore m) s) ∧
    g.attemptAt input m s' = (.matched [empty], t') ∧ s'.index = 1 ∧ t'.index = 1 ∧
      (∃ u, g.attemptAt input (.zeroOrMore m) s' = (.matched [empty], u)) ∧
      (∃ u, g.attemptAt input (.oneOrMore m) s' = (.matched [empty, empty], u)) ∧
      ¬Coincide (g.attemptAt input (.oneOrMore m) s') (g.attemptAt input (.zeroOrMore m) s') := by
  let g : Grammar := ⟨#[⟨"item", .optional (.literal "a"), .never⟩], 0⟩
  let input : Input := { tokens := #[⟨"a", TokenType.identifier, 1, 0, ⟨0, 1⟩⟩] }
  have hfirst : g.attemptAt input (.rule 0) { index := 0 } = (.matched [_], _) := rfl
  have hempty : g.attemptAt input (.rule 0) { index := 1 } = (.matched [_], _) := rfl
  obtain ⟨hsame, -, -⟩ := attemptAt_oneOrMore hfirst
  obtain ⟨-, htwice, hiff⟩ := attemptAt_oneOrMore hempty
  obtain ⟨⟨u, hu, -⟩, v, hv, -⟩ := htwice rfl
  refine ⟨g, input, .rule 0, _, _, _, _, _, _, hfirst, rfl, rfl, (hsame (by decide)).1, hempty, rfl, rfl, ⟨u, hu⟩, ⟨v, hv⟩,
    fun hcoincide => ?_⟩
  rcases hiff.1 hcoincide with hmoved | hnone
  · exact hmoved rfl
  · cases hnone

end Grammar
end LayeredParse
