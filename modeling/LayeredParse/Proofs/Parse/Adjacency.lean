import LayeredParse.Proofs.Lex.Neighbours
import LayeredParse.Proofs.Parse.Room
/-!
# Adjacency — tokens that touch

Whether two tokens touch is told from the lines and columns at which they begin and from the length of the first.  For a
token of a source and the next one that is whether nothing lies between them, unless a line ends in the first: the next one
is on a later line then, and does not count as touching wherever it is (`touches_iff`).
-/
namespace LayeredParse

/-- **The next token touches exactly if nothing lies between**, no line ends in the first token, and columns are told apart
as far as that of the next one. -/
theorem touches_iff {source : String} {before after : List Token} {t next : Token}
    (h : lex source = before ++ t :: next :: after) : Attempt.touches t next = true ↔
      t.range.stop = next.range.start ∧ t.breaksLine = false ∧ next.column ≤ Token.columnLimit := by
  have ht : t ∈ lex source := h ▸ List.mem_append_right before List.mem_cons_self
  have hlength := length_value ht
  have hnonempty := (lex_inOrder source).nonempty t ht
  have horder := (lex_inOrder source).stop_le (Nat.lt_succ_self before.length) (a := t) (b := next)
    (by rw [h]; simp) (by rw [h]; simp)
  rw [Attempt.touches, Bool.and_eq_true, beq_iff_eq, decide_eq_true_iff, Token.endColumn, Token.length, hlength]
  rcases lex_next_line h with ⟨hbreaks, hline, hcolumn⟩ | ⟨hline, hapart⟩
  · simp only [hline, hbreaks, true_and]
    omega
  · refine ⟨fun htouch => absurd htouch.1 (Nat.ne_of_gt hline), ?_⟩
    rintro ⟨hstop, hbreaks, -⟩
    rcases hapart with hbreaks' | hgap
    · cases hbreaks.symm.trans hbreaks'
    · exact absurd hstop (Nat.ne_of_lt hgap)

namespace Grammar

variable {source : String} {before after : List Token} {p n : Token} {input : Input} {s : State}

/-- Adjacency is decided by the two tokens, and then it is up to the matcher. -/
theorem attemptAt_adjacent_eq (g : Grammar) (m : Matcher) (hprevious : s.previous input = some p)
    (hnext : input.read s.index = some n) : g.attemptAt input (.adjacent m) s =
      if Attempt.touches p n then Attempt.wrapped "adjacent" (g.attemptAt input m) s
      else (.backtrack .mismatch, s.miss (.matching (.adjacent m))) := by
  show Attempt.adjacent input m (g.attemptAt input m) s = _
  unfold Attempt.adjacent
  rw [hprevious, hnext]

/-- The next token in a node of its own. -/
theorem wrapped_anyToken (g : Grammar) (name : String) (hnext : input.read s.index = some n) :
    Attempt.wrapped name (g.attemptAt input .anyToken) s =
      (.matched [.branch name [.leaf n s.index (s.index + 1)] s.index (s.index + 1) false], s.goTo (s.index + 1)) := by
  show Attempt.wrapped name (Attempt.leaf input .anyToken fun _ => true) s = _
  unfold Attempt.wrapped Attempt.leaf
  rw [hnext]
  rfl

/-- **Adjacency on the tokens of a source.**  Tried between a token of a source and the next one, adjacency matches exactly
if nothing lies between them and no line ends in the first, and backtracks otherwise; columns that are too large to be told
apart count as not touching, and a source has them only if it is longer than that.  Where a line ends in the first, that
is a string with an escaped carriage return, closed or not: the next token does not match however close it is. -/
theorem attemptAt_adjacent (h : lex source = before ++ p :: n :: after) (g : Grammar)
    (hprevious : s.previous input = some p) (hnext : input.read s.index = some n) :
    ((g.attemptAt input (.adjacent .anyToken) s).1.isMatch = true ↔
      p.range.stop = n.range.start ∧ p.breaksLine = false ∧ n.column ≤ Token.columnLimit) ∧
    ((g.attemptAt input (.adjacent .anyToken) s).1.isMatch = true →
      g.attemptAt input (.adjacent .anyToken) s =
        (.matched [.branch "adjacent" [.leaf n s.index (s.index + 1)] s.index (s.index + 1) false],
          s.goTo (s.index + 1))) ∧
    ((g.attemptAt input (.adjacent .anyToken) s).1.isMatch = false →
      ∃ t, g.attemptAt input (.adjacent .anyToken) s = (.backtrack .mismatch, t) ∧ t.index = s.index) ∧
    (source.length ≤ Token.columnLimit → n.column ≤ Token.columnLimit) ∧
    (p.breaksLine = true → (p.type = TokenType.string ∨ p.type = TokenType.error) ∧
      (∃ mark body, (mark = '"' ∨ mark = '\'') ∧ p.value.toList = mark :: body) ∧ ['\\', '\r'] <:+: p.value.toList) := by
  have htouches := touches_iff h
  have hattempt := attemptAt_adjacent_eq g .anyToken hprevious hnext
  rw [wrapped_anyToken g _ hnext] at hattempt
  have hcolumn : source.length ≤ Token.columnLimit → n.column ≤ Token.columnLimit := by
    intro hsource
    have hn : n ∈ lex source := h ▸ List.mem_append_right before (List.mem_cons_of_mem p List.mem_cons_self)
    have hstart := column_le_start hn
    have hnonempty := (lex_inOrder source).nonempty n hn
    have hstop := stop_le_length hn
    omega
  by_cases htouch : Attempt.touches p n = true
  · rw [if_pos htouch] at hattempt
    rw [hattempt]
    exact ⟨⟨fun _ => htouches.1 htouch, fun _ => rfl⟩, fun _ => rfl, nofun, hcolumn, breaksLine_token h⟩
  · rw [if_neg htouch] at hattempt
    rw [hattempt]
    exact ⟨⟨nofun, fun hcond => absurd (htouches.2 hcond) htouch⟩, nofun, fun _ => ⟨_, rfl, rfl⟩, hcolumn, breaksLine_token h⟩

/-- A string with an escaped carriage return, a semicolon and a letter, with nothing between them.  The semicolon is on line
2, where the string ends, and is not taken for adjacent to it; the letter is adjacent to the semicolon. -/
theorem attemptAt_adjacent_escaped : ∃ (g : Grammar) (input : Input) (quoted mark letter : Token),
    lex "'\\\r';x" = [quoted, mark, letter] ∧ input.tokens = #[quoted, mark, letter] ∧
    quoted.type = TokenType.string ∧ quoted.line = 1 ∧ mark.line = 2 ∧ quoted.range.stop = mark.range.start ∧
    quoted.breaksLine = true ∧
      (g.attemptAt input (.adjacent .anyToken) { index := 1 }).1.isMatch = false ∧
    mark.range.stop = letter.range.start ∧ mark.breaksLine = false ∧
      (g.attemptAt input (.adjacent .anyToken) { index := 2 }).1.isMatch = true := by
  have hlex : lex "'\\\r';x" = [⟨"'\\\r'", TokenType.string, 1, 0, ⟨0, 4⟩⟩, ⟨";", TokenType.punctuator, 2, 1, ⟨4, 5⟩⟩,
      ⟨"x", TokenType.identifier, 2, 2, ⟨5, 6⟩⟩] := by
    decide +kernel
  let g : Grammar := ⟨#[], 0⟩
  let input : Input := { tokens := (lex "'\\\r';x").toArray }
  have hinput : input.tokens = #[⟨"'\\\r'", TokenType.string, 1, 0, ⟨0, 4⟩⟩, ⟨";", TokenType.punctuator, 2, 1, ⟨4, 5⟩⟩,
      ⟨"x", TokenType.identifier, 2, 2, ⟨5, 6⟩⟩] := congrArg List.toArray hlex
  have hbreaks : Token.breaksLine ⟨"'\\\r'", TokenType.string, 1, 0, ⟨0, 4⟩⟩ = true := by decide +kernel
  have hkeeps : Token.breaksLine ⟨";", TokenType.punctuator, 2, 1, ⟨4, 5⟩⟩ = false := by decide +kernel
  have hread : ∀ i, input.read i = [Token.mk "'\\\r'" TokenType.string 1 0 ⟨0, 4⟩,
      ⟨";", TokenType.punctuator, 2, 1, ⟨4, 5⟩⟩, ⟨"x", TokenType.identifier, 2, 2, ⟨5, 6⟩⟩][i]? := by
    intro i
    rw [Input.read, hinput, List.getElem?_toArray]
  obtain ⟨hquoted, -⟩ := @attemptAt_adjacent _ [] _ _ _ input { index := 1 } hlex g (hread 0) (hread 1)
  obtain ⟨hmark, -⟩ := @attemptAt_adjacent _ [_] _ _ _ input { index := 2 } hlex g (hread 1) (hread 2)
  refine ⟨g, input, _, _, _, hlex, hinput, rfl, rfl, rfl, rfl, hbreaks, ?_, rfl, hkeeps,
    hmark.2 ⟨rfl, hkeeps, by decide⟩⟩
  rw [← Bool.not_eq_true, hquoted]
  rintro ⟨-, hnot, -⟩
  cases hbreaks.symm.trans hnot

end Grammar
end LayeredParse
