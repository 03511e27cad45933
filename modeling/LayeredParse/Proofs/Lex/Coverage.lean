import LayeredParse.Proofs.Lex.Positions
import LayeredParse.Proofs.Lex.Spelling
/-!
# Coverage — tokens and trivia are all of a source

Every lexeme of a source has a range of characters (`Lexeme.placed`), in which it stands as it is (`placed_sits`), and
these ranges leave none out (`exists_placed`).  The tokens are the lexemes that are not trivia, with their ranges
(`lex_placed`).  So what is in no token is trivia, and what is not recognized is in a token of its own (`lex_accounts`).
-/
namespace LayeredParse

namespace Span

/-- Whether an index is in the range. -/
def Has (r : Span) (i : Nat) : Prop :=
  r.start ≤ i ∧ i < r.stop

/-- The characters in the range. -/
def slice (r : Span) (s : List Char) : List Char :=
  (s.drop r.start).take (r.stop - r.start)

end Span

namespace Lexeme

/-- Each lexeme with the range of characters that it covers, the first from `start` on. -/
def placed (start : Nat) : List Lexeme → List (Lexeme × Span)
  | [] => []
  | l :: rest => (l, ⟨start, start + l.chars.length⟩) :: placed (start + l.chars.length) rest

/-- The lexeme that a source has in a range: what is in front of it, and its first character and what follows that. -/
structure Sits (source behind : List Char) (c : Char) (rest : List Char) (l : Lexeme) (r : Span) : Prop where
  source_eq : source = behind ++ c :: rest
  lexeme_eq : l = next c rest
  range_eq : r = ⟨behind.length, behind.length + l.chars.length⟩

namespace Sits

variable {source behind rest : List Char} {c : Char} {l : Lexeme} {r : Span}

theorem drop_start (h : Sits source behind c rest l r) : source.drop r.start = c :: rest := by
  rw [h.source_eq, h.range_eq]
  exact List.drop_left

theorem chars_append (h : Sits source behind c rest l r) : l.chars ++ after c rest = c :: rest := by
  rw [h.lexeme_eq, chars_append_after]

theorem drop_stop (h : Sits source behind c rest l r) : source.drop r.stop = after c rest := by
  have hstop : r.stop = r.start + l.chars.length := by rw [h.range_eq]
  rw [hstop, ← List.drop_drop, h.drop_start, ← h.chars_append]
  exact List.drop_left

theorem slice_eq (h : Sits source behind c rest l r) : r.slice source = l.chars := by
  have hlength : r.stop - r.start = l.chars.length := by
    rw [h.range_eq]
    exact Nat.add_sub_cancel_left _ _
  rw [Span.slice, hlength, h.drop_start, ← h.chars_append]
  exact List.take_left

theorem stop_le (h : Sits source behind c rest l r) : r.stop ≤ source.length := by
  rw [h.range_eq, h.source_eq, ← h.chars_append, List.length_append, List.length_append]
  show behind.length + l.chars.length ≤ _
  omega

theorem trivial (h : Sits source behind c rest l r) (htrivia : l.isTrivia = true) :
    ∃ kind, l.kind = some kind ∧ Trivial kind (r.slice source) := by
  rw [h.slice_eq, h.lexeme_eq]
  exact next_trivial (h.lexeme_eq ▸ htrivia)

end Sits

/-- **Every lexeme stands in its range as it is.** -/
theorem placed_sits (s : List Char) : ∀ {behind : List Char} {l : Lexeme} {r : Span},
    (l, r) ∈ placed behind.length (ofChars s) → ∃ behind' c rest, Sits (behind ++ s) behind' c rest l r := by
  induction s using ofChars.induct with
  | case1 =>
    intro behind l r h
    rw [ofChars_nil] at h
    cases h
  | case2 c rest ih =>
    intro behind l r h
    rw [ofChars_cons, placed] at h
    rcases List.mem_cons.1 h with heq | h
    · obtain ⟨rfl, rfl⟩ := Prod.mk.inj heq
      exact ⟨behind, c, rest, rfl, rfl, rfl⟩
    · rw [← List.length_append] at h
      obtain ⟨behind', c', rest', hsits⟩ := ih h
      rw [List.append_assoc, chars_append_after] at hsits
      exact ⟨behind', c', rest', hsits⟩

theorem ofSource_sits {source : String} {l : Lexeme} {r : Span} (h : (l, r) ∈ placed 0 (ofSource source)) :
    ∃ behind c rest, Sits source.toList behind c rest l r :=
  @placed_sits source.toList [] l r h

/-- **The ranges of lexemes leave no character out.** -/
theorem exists_placed : ∀ {ls : List Lexeme} {start i : Nat}, start ≤ i → i < start + (ls.flatMap chars).length →
    ∃ l r, (l, r) ∈ placed start ls ∧ r.Has i
  | [], start, i, hle, hlt => absurd hlt (Nat.not_lt.2 hle)
  | l :: ls, start, i, hle, hlt => by
    by_cases hin : i < start + l.chars.length
    · exact ⟨l, _, List.mem_cons_self, hle, hin⟩
    · rw [List.flatMap_cons, List.length_append, ← Nat.add_assoc] at hlt
      obtain ⟨l', r, hmem, hhas⟩ := exists_placed (Nat.le_of_not_lt hin) hlt
      exact ⟨l', r, List.mem_cons_of_mem _ hmem, hhas⟩

end Lexeme

/-- **The tokens are the lexemes that are not trivia**, in their ranges. -/
theorem Lex.tokensFrom_placed : ∀ (ls : List Lexeme) (p : Position) (gap : List Char),
    (tokensFrom p gap ls).map (fun t => (t.value, t.type, t.range)) =
      ((Lexeme.placed (p.offset + gap.length) ls).filter fun q => !q.1.isTrivia).map
        fun q => (q.1.text, q.1.tokenType, q.2)
  | [], _, _ => rfl
  | l :: ls, p, gap => by
    rw [Lexeme.placed]
    cases htoken : l.isTrivia with
    | true =>
      have hstart : p.offset + gap.length + l.chars.length = p.offset + (gap ++ l.chars).length := by
        rw [List.length_append, Nat.add_assoc]
      rw [tokensFrom_trivia htoken, List.filter_cons_of_neg (by simp [htoken]), hstart, tokensFrom_placed ls]
    | false =>
      have hstart := advance_offset gap p
      have hstop := advance_offset l.chars (p.advance gap)
      rw [tokensFrom_token htoken, List.filter_cons_of_pos (by simp [htoken]), List.map_cons, List.map_cons,
        tokensFrom_placed ls, tokenAt, hstop, hstart]
      rfl

section Coverage

variable {source : String} {t : Token} {l : Lexeme} {r : Span}

theorem lex_placed (source : String) : (lex source).map (fun t => (t.value, t.type, t.range)) =
    ((Lexeme.placed 0 (Lexeme.ofSource source)).filter fun q => !q.1.isTrivia).map
      fun q => (q.1.text, q.1.tokenType, q.2) :=
  Lex.tokensFrom_placed (Lexeme.ofSource source) .origin []

theorem exists_token (hl : (l, r) ∈ Lexeme.placed 0 (Lexeme.ofSource source)) (htoken : l.isTrivia = false) :
    ∃ t ∈ lex source, t.value = l.text ∧ t.type = l.tokenType ∧ t.range = r := by
  have hmem : (l.text, l.tokenType, r) ∈ (lex source).map fun t => (t.value, t.type, t.range) := by
    rw [lex_placed]
    exact List.mem_map.2 ⟨(l, r), List.mem_filter.2 ⟨hl, by simp [htoken]⟩, rfl⟩
  obtain ⟨t, ht, heq⟩ := List.mem_map.1 hmem
  obtain ⟨hvalue, hrest⟩ := Prod.mk.inj heq
  obtain ⟨htype, hrange⟩ := Prod.mk.inj hrest
  exact ⟨t, ht, hvalue, htype, hrange⟩

theorem exists_lexeme (ht : t ∈ lex source) : ∃ behind c rest, Lex.IsLexemeAfter behind c rest t ∧
    Lexeme.Sits source.toList behind c rest (Lexeme.next c rest) t.range := by
  obtain ⟨behind, c, rest, hsource, hlexeme⟩ := exists_lexemeAfter ht
  exact ⟨behind, c, rest, hlexeme, hsource, rfl, hlexeme.range_eq⟩

/-- **A token is the characters in its range.** -/
theorem toList_value (ht : t ∈ lex source) : t.value.toList = t.range.slice source.toList := by
  obtain ⟨behind, c, rest, hlexeme, hsits⟩ := exists_lexeme ht
  rw [hlexeme.toList_value, hsits.slice_eq]

theorem stop_le_length (ht : t ∈ lex source) : t.range.stop ≤ source.length := by
  obtain ⟨behind, c, rest, -, hsits⟩ := exists_lexeme ht
  exact String.length_toList ▸ hsits.stop_le

theorem length_value (ht : t ∈ lex source) : t.value.length = t.range.stop - t.range.start := by
  have hstop := stop_le_length ht
  rw [← String.length_toList, toList_value ht, Span.slice, List.length_take, List.length_drop, String.length_toList]
  omega

/-- **What is in no token is white space or in a comment.** -/
theorem exists_trivia {i : Nat} (hi : i < source.length) (hnone : ∀ t ∈ lex source, ¬t.range.Has i) :
    ∃ l r kind, (l, r) ∈ Lexeme.placed 0 (Lexeme.ofSource source) ∧ r.Has i ∧ l.kind = some kind ∧
      Lexeme.Trivial kind (r.slice source.toList) := by
  have hlength : i < 0 + ((Lexeme.ofSource source).flatMap Lexeme.chars).length := by
    rw [Lexeme.ofSource, Lexeme.flatMap_chars, String.length_toList, Nat.zero_add]
    exact hi
  obtain ⟨l, r, hplaced, hhas⟩ := Lexeme.exists_placed (Nat.zero_le i) hlength
  obtain ⟨behind, c, rest, hsits⟩ := Lexeme.ofSource_sits hplaced
  cases htoken : l.isTrivia with
  | true =>
    obtain ⟨kind, hkind, htrivial⟩ := hsits.trivial htoken
    exact ⟨l, r, kind, hplaced, hhas, hkind, htrivial⟩
  | false =>
    obtain ⟨t, ht, -, -, rfl⟩ := exists_token hplaced htoken
    exact absurd hhas (hnone t ht)

theorem Lexeme.tokenType_eq_error (htoken : l.isTrivia = false) : l.tokenType = TokenType.error ↔ l.kind = none := by
  unfold isTrivia at htoken
  unfold tokenType
  split at htoken
  · rename_i kind hkind
    rw [hkind]
    cases kind with
    | whitespace | lineComment | blockComment => cases htoken
    | identifier | number | string | punctuator => decide
  · rename_i hkind
    rw [hkind]
    decide

/-- **The tokens that are errors are those that are not recognized.** -/
theorem type_eq_error_iff (ht : t ∈ lex source) :
    t.type = TokenType.error ↔ Lexeme.Unrecognized t.value.toList (source.toList.drop t.range.stop) := by
  obtain ⟨behind, c, rest, hlexeme, hsits⟩ := exists_lexeme ht
  rw [hlexeme.type_eq, Lexeme.tokenType_eq_error hlexeme.isTrivia_eq, hlexeme.toList_value, hsits.drop_stop]
  constructor
  · exact Lexeme.next_unrecognized
  · intro h
    rw [h.next_eq hsits.chars_append.symm]

/-- **What is not recognized is a token of its own**, wherever a lexeme begins with it. -/
theorem exists_error (hl : (l, r) ∈ Lexeme.placed 0 (Lexeme.ofSource source)) {taken follow : List Char}
    (hdrop : source.toList.drop r.start = taken ++ follow) (h : Lexeme.Unrecognized taken follow) :
    ∃ t ∈ lex source, t.type = TokenType.error ∧ t.range = ⟨r.start, r.start + taken.length⟩ := by
  obtain ⟨behind, c, rest, hsits⟩ := Lexeme.ofSource_sits hl
  have hlexeme : l = ⟨none, taken⟩ := by
    rw [hsits.lexeme_eq]
    exact h.next_eq (hsits.drop_start.symm.trans hdrop)
  obtain ⟨t, ht, -, htype, hrange⟩ := exists_token hl (by rw [hlexeme]; rfl)
  refine ⟨t, ht, by rw [htype, hlexeme]; rfl, ?_⟩
  rw [hrange, hsits.range_eq, hlexeme]

/-- **The tokens and the trivia of a source are all of it.**  Its tokens have characters, each token before those of the
next, and are what the source has there; their length is that of their range, as far as lengths are told apart.  A
character that is in no token is white space or in a comment that ends.  A token is an error exactly if it is a piece that
is not recognized: a character that nothing begins with, a string that breaks off or a comment that is not closed; and
wherever a lexeme begins with such a piece, it is a token. -/
theorem lex_accounts (source : String) :
    InOrder (lex source) ∧
    (∀ t ∈ lex source, t.range.stop ≤ source.length ∧ t.value.toList = t.range.slice source.toList ∧
      t.length = min (t.range.stop - t.range.start) Token.columnLimit) ∧
    (source.length ≤ Token.columnLimit → ∀ t ∈ lex source, t.length = t.range.stop - t.range.start) ∧
    (∀ i < source.length, (∀ t ∈ lex source, ¬t.range.Has i) →
      ∃ l r kind, (l, r) ∈ Lexeme.placed 0 (Lexeme.ofSource source) ∧ r.Has i ∧ l.kind = some kind ∧
        Lexeme.Trivial kind (r.slice source.toList)) ∧
    (∀ t ∈ lex source, t.type = TokenType.error ↔
      Lexeme.Unrecognized t.value.toList (source.toList.drop t.range.stop)) ∧
    ∀ l r, (l, r) ∈ Lexeme.placed 0 (Lexeme.ofSource source) → ∀ taken follow,
      source.toList.drop r.start = taken ++ follow → Lexeme.Unrecognized taken follow →
        ∃ t ∈ lex source, t.type = TokenType.error ∧ t.range = ⟨r.start, r.start + taken.length⟩ := by
  have length_eq : ∀ t ∈ lex source, t.length = min (t.range.stop - t.range.start) Token.columnLimit :=
    fun t ht => congrArg (min · Token.columnLimit) (length_value ht)
  refine ⟨lex_inOrder source, fun t ht => ⟨stop_le_length ht, toList_value ht, length_eq t ht⟩, fun hsource t ht => ?_,
    fun i hi hnone => exists_trivia hi hnone, fun t ht => type_eq_error_iff ht,
    fun l r hl taken follow hdrop h => exists_error hl hdrop h⟩
  have hstop := stop_le_length ht
  rw [length_eq t ht]
  omega

/-- After a letter and a comment come a character that nothing begins with and a string that is not closed: they are
errors, and what is in the comment is in no token. -/
theorem lex_accounts_broken : ∃ source : String, source = "a/* b */é \"x" ∧
    lex source = [⟨"a", TokenType.identifier, 1, 0, ⟨0, 1⟩⟩, ⟨"é", TokenType.error, 1, 8, ⟨8, 9⟩⟩,
      ⟨"\"x", TokenType.error, 1, 10, ⟨10, 12⟩⟩] ∧
    (∃ l r kind, (l, r) ∈ Lexeme.placed 0 (Lexeme.ofSource source) ∧ r.Has 4 ∧ l.kind = some kind ∧
      Lexeme.Trivial kind (r.slice source.toList)) ∧
    (∀ t ∈ lex source, t.length = t.range.stop - t.range.start) ∧
    (∃ t ∈ lex source, t.type = TokenType.error ∧ t.range = ⟨8, 9⟩) ∧
    ∃ t ∈ lex source, t.range = ⟨10, 12⟩ ∧ Lexeme.Unrecognized t.value.toList (source.toList.drop t.range.stop) := by
  have hlex : lex "a/* b */é \"x" = [⟨"a", TokenType.identifier, 1, 0, ⟨0, 1⟩⟩, ⟨"é", TokenType.error, 1, 8, ⟨8, 9⟩⟩,
      ⟨"\"x", TokenType.error, 1, 10, ⟨10, 12⟩⟩] := by
    decide +kernel
  obtain ⟨-, -, lengths, trivia, errors, unrecognized⟩ := lex_accounts "a/* b */é \"x"
  refine ⟨_, rfl, hlex, trivia 4 (by decide +kernel) ?_, lengths (by decide +kernel), ?_, ?_⟩
  · rw [hlex]
    unfold Span.Has
    decide
  · have strange : Lexeme.Strange 'é' := by constructor <;> decide
    exact unrecognized ⟨none, ['é']⟩ ⟨8, 9⟩ (by decide +kernel) ['é'] [' ', '"', 'x'] (by decide +kernel)
      (.character strange)
  · have ht : ⟨"\"x", TokenType.error, 1, 10, ⟨10, 12⟩⟩ ∈ lex "a/* b */é \"x" := by
      rw [hlex]
      decide
    exact ⟨_, ht, rfl, (errors _ ht).1 rfl⟩

end Coverage
end LayeredParse
