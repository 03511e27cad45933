import LayeredParse.Lex
import LayeredParse.Proofs.Lex.Lexemes
import LayeredParse.Text.Cursor
/-!
# Positions — where tokens are and where the text has them

The position of a token is counted piece by piece: the gap before it, then the token, each as a text of its own.  The
text finds places over all of its characters.  The two agree on columns; a line is counted twice wherever a token ends
between a carriage return and a line feed (`Ahead.advance`), and nowhere else (`lex_location`).
-/
namespace LayeredParse

/-- Whether the token ends between a carriage return and a line feed of the source. -/
def Token.splitsBreak (source : List Char) (t : Token) : Bool :=
  LayeredParse.splitsBreak t.value.toList (source.drop t.range.stop)

namespace Lex

variable {n : Nat} {c : Char} {u follow rest : List Char} {p : Position} {q : Place}

theorem advance_cons (p : Position) (c : Char) (rest : List Char) :
    p.advance (c :: rest) = if endsLine c rest then Position.advance ⟨p.offset + 1, p.line + 1, 0⟩ rest
      else Position.advance ⟨p.offset + 1, p.line, p.column + 1⟩ rest := rfl

theorem advance_offset : ∀ (u : List Char) (p : Position), (p.advance u).offset = p.offset + u.length
  | [], _ => rfl
  | c :: u, p => by
    rw [advance_cons, List.length_cons]
    split
    · rw [advance_offset u, Nat.add_assoc, Nat.add_comm 1]
    · rw [advance_offset u, Nat.add_assoc, Nat.add_comm 1]

/-- The position is so many lines ahead of the place, and in its column unless a line feed is about to end the line. -/
structure Ahead (n : Nat) (follow : List Char) (p : Position) (q : Place) : Prop where
  line_eq : p.line = q.line + n
  column_eq : p.column + 1 = q.column ∨ follow.head? = some '\n'

/-- Both begin a line. -/
theorem Ahead.ends (h : Ahead n (c :: rest) p q) :
    Ahead n rest ⟨p.offset + 1, p.line + 1, 0⟩ ⟨q.origin, q.line + 1, 1⟩ where
  line_eq := by rw [h.line_eq, Nat.add_right_comm]
  column_eq := .inl rfl

/-- Both stay on their line. -/
theorem Ahead.stays (h : Ahead n (c :: rest) p q) (hc : c ≠ '\n') :
    Ahead n rest ⟨p.offset + 1, p.line, p.column + 1⟩ ⟨q.origin, q.line, q.column + 1⟩ where
  line_eq := h.line_eq
  column_eq := .inl (congrArg (· + 1) (h.column_eq.resolve_right (fun e => hc (Option.some.inj e))))

/-- A carriage return that the piece ends in begins a line for the position, but not for the place. -/
theorem Ahead.splits (h : Ahead n (c :: rest) p q) (hrest : rest.head? = some '\n') :
    Ahead (n + 1) rest ⟨p.offset + 1, p.line + 1, 0⟩ ⟨q.origin, q.line, q.column + 1⟩ where
  line_eq := congrArg (· + 1) h.line_eq
  column_eq := .inr hrest

/-- **Over a piece, the position gets one line further ahead if the piece splits a line break.** -/
theorem Ahead.advance : ∀ (u : List Char) {n : Nat} {p : Position} {q : Place}, Ahead n (u ++ follow) p q →
    Ahead (n + (splitsBreak u follow).toNat) follow (p.advance u) (q.after follow u)
  | [], _, _, _, h => h
  | [c], n, p, q, h => by
    rw [advance_cons, Place.after_cons, List.nil_append]
    by_cases hlf : c = '\n'
    · subst hlf
      exact h.ends
    · by_cases hcr : c = '\r'
      · subst hcr
        by_cases hhead : follow.head? = some '\n'
        · have hs : splitsBreak ['\r'] follow = true := by simp [splitsBreak, hhead]
          have he : endsLine '\r' follow = false := by simp [endsLine, hhead]
          rw [hs, he]
          exact h.splits hhead
        · have hs : splitsBreak ['\r'] follow = false := by simp [splitsBreak, hhead]
          have he : endsLine '\r' follow = true := by simp [endsLine, hhead]
          rw [hs, he]
          exact h.ends
      · have hs : splitsBreak [c] follow = false := by simp [splitsBreak, hcr]
        have he : ∀ rest, endsLine c rest = false := by simp [endsLine, hlf, hcr]
        rw [hs, he, he]
        exact h.stays hlf
  | c :: d :: u, n, p, q, h => by
    rw [advance_cons, Place.after_cons]
    have he : endsLine c (d :: u ++ follow) = endsLine c (d :: u) := rfl
    have hs : splitsBreak (c :: d :: u) follow = splitsBreak (d :: u) follow := rfl
    rw [he, hs]
    cases hends : endsLine c (d :: u) with
    | true => exact Ahead.advance (d :: u) h.ends
    | false =>
      refine Ahead.advance (d :: u) (h.stays (fun e => ?_))
      rw [e] at hends
      cases hends

/-- What is behind and what is in front of a position in a source, whose first character sits at line 1 and column 1. -/
structure Stands (source : List Char) (n : Nat) (behind front : List Char) (p : Position) : Prop where
  source_eq : source = behind ++ front
  offset_eq : p.offset = behind.length
  ahead : Ahead n front p (Place.after ⟨none, 1, 1⟩ front behind)

variable {source behind : List Char}

theorem Stands.origin (source : List Char) : Stands source 0 [] source .origin :=
  ⟨rfl, rfl, ⟨rfl, .inl rfl⟩⟩

theorem Stands.advance (h : Stands source n behind (u ++ follow) p) :
    Stands source (n + (splitsBreak u follow).toNat) (behind ++ u) follow (p.advance u) where
  source_eq := by rw [h.source_eq, List.append_assoc]
  offset_eq := by rw [advance_offset, h.offset_eq, List.length_append]
  ahead := by
    rw [Place.after_append]
    exact h.ahead.advance u

/-- The token of a lexeme that begins at a position. -/
def tokenAt (p : Position) (l : Lexeme) : Token :=
  ⟨l.text, l.tokenType, p.line, p.column, ⟨p.offset, (p.advance l.chars).offset⟩⟩

theorem tokensFrom_trivia {l : Lexeme} (h : l.isTrivia = true) (p : Position) (gap : List Char) (ls : List Lexeme) :
    tokensFrom p gap (l :: ls) = tokensFrom p (gap ++ l.chars) ls := by
  rw [tokensFrom, if_pos h]

theorem tokensFrom_token {l : Lexeme} (h : l.isTrivia = false) (p : Position) (gap : List Char) (ls : List Lexeme) :
    tokensFrom p gap (l :: ls) =
      tokenAt (p.advance gap) l :: tokensFrom ((p.advance gap).advance l.chars) [] ls := by
  rw [tokensFrom, if_neg (by rw [h]; exact Bool.false_ne_true)]
  rfl

/-- The token is the lexeme that follows the first characters of the source. -/
structure IsLexemeAfter (behind : List Char) (c : Char) (rest : List Char) (t : Token) : Prop where
  value_eq : t.value = (Lexeme.next c rest).text
  type_eq : t.type = (Lexeme.next c rest).tokenType
  range_eq : t.range = ⟨behind.length, behind.length + (Lexeme.next c rest).chars.length⟩
  isTrivia_eq : (Lexeme.next c rest).isTrivia = false

theorem IsLexemeAfter.toList_value {t : Token} (h : IsLexemeAfter behind c rest t) :
    t.value.toList = (Lexeme.next c rest).chars := by
  rw [h.value_eq, Lexeme.text, String.toList_ofList]

theorem IsLexemeAfter.splitsBreak_eq {t : Token} (h : IsLexemeAfter behind c rest t)
    (hs : source = behind ++ c :: rest) :
    t.splitsBreak source = splitsBreak (Lexeme.next c rest).chars (Lexeme.after c rest) := by
  have hdrop : source.drop t.range.stop = Lexeme.after c rest := by
    rw [hs, h.range_eq, List.drop_append, ← Lexeme.chars_append_after, List.drop_append]
    simp
  rw [Token.splitsBreak, hdrop, h.toList_value]

/-- **Every token is a lexeme that the position stands at**, and the position is as many lines ahead of the text as
earlier tokens split line breaks. -/
theorem tokensFrom_stands (s : List Char) : ∀ {p : Position} {gap behind : List Char} {n : Nat},
    Stands source n behind (gap ++ s) p → ∀ {before after : List Token} {t : Token},
      tokensFrom p gap (Lexeme.ofChars s) = before ++ t :: after →
        ∃ behind c rest, Stands source (n + before.countP (Token.splitsBreak source)) behind (c :: rest)
          ⟨t.range.start, t.line, t.column⟩ ∧ IsLexemeAfter behind c rest t := by
  induction s using Lexeme.ofChars.induct with
  | case1 =>
    intro p gap behind n _ before after t h
    rw [Lexeme.ofChars_nil, tokensFrom] at h
    exact (List.append_ne_nil_of_right_ne_nil before (List.cons_ne_nil t after) h.symm).elim
  | case2 c rest ih =>
    intro p gap behind n hp before after t h
    have hs := Lexeme.chars_append_after c rest
    rw [Lexeme.ofChars_cons] at h
    cases htoken : (Lexeme.next c rest).isTrivia with
    | true =>
      have hp' : Stands source n behind ((gap ++ (Lexeme.next c rest).chars) ++ Lexeme.after c rest) p := by
        rw [List.append_assoc, hs]
        exact hp
      rw [tokensFrom_trivia htoken] at h
      exact ih hp' h
    | false =>
      rw [tokensFrom_token htoken] at h
      -- the token does not begin with a line feed, so the gap in front of it splits no line break
      have hgap : splitsBreak gap (c :: rest) = false := by
        have hc := Lexeme.ne_newline_of_token htoken
        simp [splitsBreak, hc]
      have hstart := hp.advance
      rw [hgap, Bool.toNat_false, Nat.add_zero] at hstart
      have hstop : Stands source n (behind ++ gap) ((Lexeme.next c rest).chars ++ Lexeme.after c rest)
          (p.advance gap) := by
        rw [hs]
        exact hstart
      have hlexeme : IsLexemeAfter (behind ++ gap) c rest (tokenAt (p.advance gap) (Lexeme.next c rest)) := by
        refine ⟨rfl, rfl, ?_, htoken⟩
        rw [tokenAt, advance_offset _ (p.advance gap), hstart.offset_eq]
      cases before with
      | nil =>
        obtain ⟨rfl, -⟩ := List.cons.inj h
        exact ⟨behind ++ gap, c, rest, hstart, hlexeme⟩
      | cons first before =>
        obtain ⟨hfirst, hrest⟩ := List.cons.inj h
        obtain ⟨behind', c', rest', hstands, ht⟩ := @ih _ [] _ _ hstop.advance _ _ _ hrest
        refine ⟨behind', c', rest', ?_, ht⟩
        have hcount : (first :: before).countP (Token.splitsBreak source) =
            (splitsBreak (Lexeme.next c rest).chars (Lexeme.after c rest)).toNat +
              before.countP (Token.splitsBreak source) := by
          rw [List.countP_cons, ← hfirst, hlexeme.splitsBreak_eq hstart.source_eq, Nat.add_comm]
          cases splitsBreak (Lexeme.next c rest).chars (Lexeme.after c rest) <;> rfl
        rw [hcount, ← Nat.add_assoc]
        exact hstands

/-- Each token begins at the position or after it, and ends before the next one begins. -/
theorem tokensFrom_ascending (s : List Char) : ∀ (p : Position) (gap : List Char),
    (∀ t ∈ tokensFrom p gap (Lexeme.ofChars s), p.offset ≤ t.range.start ∧ t.range.start < t.range.stop) ∧
      (tokensFrom p gap (Lexeme.ofChars s)).Pairwise (fun a b => a.range.stop ≤ b.range.start) := by
  induction s using Lexeme.ofChars.induct with
  | case1 =>
    intro p gap
    rw [Lexeme.ofChars_nil, tokensFrom]
    exact ⟨List.forall_mem_nil _, .nil⟩
  | case2 c rest ih =>
    intro p gap
    rw [Lexeme.ofChars_cons]
    cases htoken : (Lexeme.next c rest).isTrivia with
    | true =>
      rw [tokensFrom_trivia htoken]
      exact ih p (gap ++ (Lexeme.next c rest).chars)
    | false =>
      rw [tokensFrom_token htoken]
      obtain ⟨hlater, hpairs⟩ := ih ((p.advance gap).advance (Lexeme.next c rest).chars) []
      have hstart := advance_offset gap p
      have hstop := advance_offset (Lexeme.next c rest).chars (p.advance gap)
      have hlength : 0 < (Lexeme.next c rest).chars.length := by
        rw [Lexeme.next_chars, List.length_cons]
        exact Nat.succ_pos _
      refine ⟨List.forall_mem_cons.2 ⟨?_, fun t ht => ⟨?_, (hlater t ht).2⟩⟩, .cons (fun t ht => (hlater t ht).1) hpairs⟩
      · dsimp only [tokenAt]
        omega
      · have := (hlater t ht).1
        omega

end Lex

/-- **Every token of a source is one of its lexemes**, and its line is as many lines ahead as tokens before it split line
breaks. -/
theorem lex_stands {source : String} {before after : List Token} {t : Token} (h : lex source = before ++ t :: after) :
    ∃ behind c rest, Lex.Stands source.toList (before.countP (Token.splitsBreak source.toList)) behind (c :: rest)
      ⟨t.range.start, t.line, t.column⟩ ∧ Lex.IsLexemeAfter behind c rest t := by
  obtain ⟨behind, c, rest, hstands, ht⟩ := @Lex.tokensFrom_stands source.toList source.toList _ [] _ _
    (Lex.Stands.origin source.toList) _ _ _ h
  rw [Nat.zero_add] at hstands
  exact ⟨behind, c, rest, hstands, ht⟩

theorem exists_lexemeAfter {source : String} {t : Token} (h : t ∈ lex source) :
    ∃ behind c rest, source.toList = behind ++ c :: rest ∧ Lex.IsLexemeAfter behind c rest t := by
  obtain ⟨before, after, hlex⟩ := List.append_of_mem h
  obtain ⟨behind, c, rest, hstands, ht⟩ := lex_stands hlex
  exact ⟨behind, c, rest, hstands.source_eq, ht⟩

/-- Every token has characters, all before those of the tokens after it. -/
structure InOrder (tokens : List Token) : Prop where
  nonempty : ∀ t ∈ tokens, t.range.start < t.range.stop
  ascending : tokens.Pairwise (fun a b => a.range.stop ≤ b.range.start)

theorem InOrder.stop_le {tokens : List Token} (h : InOrder tokens) {i j : Nat} (hij : i < j) {a b : Token}
    (hi : tokens[i]? = some a) (hj : tokens[j]? = some b) : a.range.stop ≤ b.range.start := by
  obtain ⟨hlt, rfl⟩ := List.getElem?_eq_some_iff.1 hi
  obtain ⟨hlt', rfl⟩ := List.getElem?_eq_some_iff.1 hj
  exact List.pairwise_iff_getElem.1 h.ascending i j hlt hlt' hij

theorem InOrder.le {tokens : List Token} (h : InOrder tokens) {i j : Nat} (hij : i ≤ j) {a b : Token}
    (hi : tokens[i]? = some a) (hj : tokens[j]? = some b) :
    a.range.start ≤ b.range.start ∧ a.range.stop ≤ b.range.stop := by
  rcases Nat.lt_or_eq_of_le hij with hlt | rfl
  · have hle := h.stop_le hlt hi hj
    have ha := h.nonempty a (List.mem_of_getElem? hi)
    have hb := h.nonempty b (List.mem_of_getElem? hj)
    omega
  · cases hi.symm.trans hj
    exact ⟨Nat.le_refl _, Nat.le_refl _⟩

theorem lex_inOrder (source : String) : InOrder (lex source) where
  nonempty t ht := ((Lex.tokensFrom_ascending source.toList .origin []).1 t ht).2
  ascending := (Lex.tokensFrom_ascending source.toList .origin []).2

/-- A walk that comes no further than 32 bits reach comes to the location. -/
theorem location_ofString {source : String} {behind follow : List Char} (h : source.toList = behind ++ follow)
    (hfits : behind.length + 1 < UInt32.size) : (Text.ofString source).location behind.length =
      some (.source (Place.after ⟨none, 1, 1⟩ follow behind)) := by
  obtain ⟨q, hq, -, hshows, -⟩ := @Plain.place?_eq (.ofChars source.toList none 1 1) behind follow h
  obtain ⟨hline, hcolumn⟩ := Place.scan_le ⟨none, 1, 1⟩ (behind ++ follow) behind.length
  rw [← Place.after_eq_scan, Nat.add_comm] at hline
  rw [← Place.after_eq_scan, Nat.max_self, Nat.add_comm] at hcolumn
  obtain rfl := hshows.eq ⟨Nat.lt_of_le_of_lt hline hfits, Nat.lt_of_le_of_lt hcolumn hfits⟩
  exact congrArg (Option.map Location.source) hq

/-- **Tokens and the text agree on columns, and on lines until a token splits a line break.**  The text has the first
character of a token in the column of the token, counted from 1, and as many lines above the line of the token as earlier
tokens end between a carriage return and a line feed.  So it has it on that line exactly if none does.  (This is of tokens
whose range fits into 32 bits, as ranges of tokens do.)  A token that ends there is a string that is not closed and ends in
an escaped carriage return. -/
theorem lex_location {source : String} {before after : List Token} {t : Token} (h : lex source = before ++ t :: after) :
    (t.range.stop < UInt32.size →
      (∃ line, (Text.ofString source).location t.range.start = some (.source ⟨none, line, t.column + 1⟩) ∧
        t.line = line + before.countP (Token.splitsBreak source.toList)) ∧
      ((Text.ofString source).location t.range.start = some (.source ⟨none, t.line, t.column + 1⟩) ↔
        ∀ earlier ∈ before, earlier.splitsBreak source.toList = false)) ∧
    (t.splitsBreak source.toList = true → t.type = TokenType.error ∧
      ∃ mark body, (mark = '"' ∨ mark = '\'') ∧ t.value.toList = mark :: body ++ ['\\', '\r']) := by
  obtain ⟨behind, c, rest, hstands, ht⟩ := lex_stands h
  refine ⟨fun hstop => ?_, fun hsplits => ?_⟩
  · have hstart : behind.length + 1 < UInt32.size := by
      have hoffset : t.range.start = behind.length := hstands.offset_eq
      rw [← hoffset]
      exact Nat.lt_of_le_of_lt ((lex_inOrder source).nonempty t (h ▸ List.mem_append_right _ List.mem_cons_self)) hstop
    have hlocation := location_ofString hstands.source_eq hstart
    have horigin := Place.after_origin (c :: rest) behind ⟨none, 1, 1⟩
    have hcolumn := hstands.ahead.column_eq.resolve_right
      (fun e => Lexeme.ne_newline_of_token ht.isTrivia_eq (Option.some.inj e))
    have hline := hstands.ahead.line_eq
    rw [← show t.range.start = behind.length from hstands.offset_eq] at hlocation
    generalize Place.after ⟨none, 1, 1⟩ (c :: rest) behind = q at horigin hcolumn hline hlocation
    obtain ⟨origin, line, column⟩ := q
    obtain rfl : origin = none := horigin
    obtain rfl : t.column + 1 = column := hcolumn
    have hline : t.line = line + before.countP (Token.splitsBreak source.toList) := hline
    refine ⟨⟨line, hlocation, hline⟩, ?_⟩
    have hzero : line = t.line ↔ before.countP (Token.splitsBreak source.toList) = 0 := by omega
    rw [hlocation, Option.some.injEq, Location.source.injEq, Place.mk.injEq]
    simp only [true_and, and_true]
    rw [hzero, List.countP_eq_zero]
    simp only [Bool.not_eq_true]
  · rw [ht.splitsBreak_eq hstands.source_eq] at hsplits
    obtain ⟨hkind, hquote, body, hbody⟩ := Lexeme.next_splitsBreak ht.isTrivia_eq hsplits
    refine ⟨?_, c, body, hquote, ?_⟩
    · rw [ht.type_eq, Lexeme.tokenType, hkind]
    · rw [ht.value_eq, Lexeme.text, String.toList_ofList, hbody]

/-- A string that is not closed ends between a carriage return and a line feed, which stand for one line break: the quote
after it is on line 2 of the text and has line 3 as a token. -/
theorem lex_location_escaped : ∃ first t : Token, lex "'\\\r\n'" = [first, t] ∧
    first.splitsBreak "'\\\r\n'".toList = true ∧ first.type = TokenType.error ∧ t.line = 3 ∧ t.column = 0 ∧
      (Text.ofString "'\\\r\n'").location t.range.start = some (.source ⟨none, 2, 1⟩) ∧
      (Text.ofString "'\\\r\n'").location t.range.start ≠ some (.source ⟨none, t.line, t.column + 1⟩) := by
  have hlex : lex "'\\\r\n'" = [⟨"'\\\r", TokenType.error, 1, 0, ⟨0, 3⟩⟩, ⟨"'", TokenType.error, 3, 0, ⟨4, 5⟩⟩] := by
    decide +kernel
  have hsplits : Token.splitsBreak "'\\\r\n'".toList ⟨"'\\\r", TokenType.error, 1, 0, ⟨0, 3⟩⟩ = true := by decide +kernel
  obtain ⟨hplaced, -⟩ := @lex_location _ [_] [] _ hlex
  obtain ⟨⟨line, hlocation, hline⟩, hiff⟩ := hplaced (by decide)
  obtain ⟨-, herror⟩ := @lex_location _ [] [_] _ hlex
  refine ⟨_, _, hlex, hsplits, (herror hsplits).1, rfl, rfl, ?_, fun h => ?_⟩
  · have hone : [Token.mk "'\\\r" TokenType.error 1 0 ⟨0, 3⟩].countP (Token.splitsBreak "'\\\r\n'".toList) = 1 := by
      rw [List.countP_singleton, if_pos hsplits]
    rw [hone] at hline
    obtain rfl : 2 = line := Nat.succ.inj hline
    exact hlocation
  · have hnone := hiff.1 h _ List.mem_cons_self
    rw [hsplits] at hnone
    cases hnone

end LayeredParse
