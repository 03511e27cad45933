import LayeredParse.Proofs.Lex.Coverage
/-!
# Neighbours — how far a token is from the one before it

The position of a token is that of the token before it, advanced over that token and the trivia behind it (`lex_next`).  As
long as no line ends on the way, columns grow like offsets do; where one ends, the line is a later one.  A line ends in a
token with a token after it only if that is a string with an escaped carriage return (`Lexeme.next_breaks`).
-/
namespace LayeredParse

/-- Whether a line ends in the characters, taken as a text of their own. -/
def breaksLine : List Char → Bool
  | [] => false
  | c :: rest => endsLine c rest || breaksLine rest

theorem Lexeme.isInLine_eq_false {c : Char} : isInLine c = false ↔ c = '\r' ∨ c = '\n' := by
  simp only [isInLine, Bool.and_eq_false_iff, bne_eq_false_iff_eq]

theorem exists_of_breaksLine : ∀ {s : List Char}, breaksLine s = true → ∃ c ∈ s, Lexeme.isInLine c = false
  | [], h => by cases h
  | c :: rest, h => by
    rw [breaksLine, Bool.or_eq_true] at h
    rcases h with hends | hrest
    · simp only [endsLine, Bool.or_eq_true, Bool.and_eq_true, beq_iff_eq] at hends
      exact ⟨c, List.mem_cons_self, Lexeme.isInLine_eq_false.2 (hends.symm.imp_left And.left)⟩
    · obtain ⟨d, hd, hline⟩ := exists_of_breaksLine hrest
      exact ⟨d, List.mem_cons_of_mem c hd, hline⟩

namespace Token

/-- Whether a line ends in the token. -/
def breaksLine (t : Token) : Bool :=
  LayeredParse.breaksLine t.value.toList

/-- Where the token begins. -/
def position (t : Token) : Lex.Position :=
  ⟨t.range.start, t.line, t.column⟩

end Token

namespace Lex

variable {p : Position} {u gap : List Char}

/-- Without the end of a line columns grow like offsets. -/
theorem advance_inLine : ∀ {u : List Char} (p : Position), LayeredParse.breaksLine u = false →
    p.advance u = ⟨p.offset + u.length, p.line, p.column + u.length⟩
  | [], _, _ => rfl
  | c :: u, p, h => by
    rw [LayeredParse.breaksLine, Bool.or_eq_false_iff] at h
    rw [advance_cons, h.1, if_neg Bool.false_ne_true, advance_inLine _ h.2, List.length_cons, Nat.add_assoc, Nat.add_assoc,
      Nat.add_comm 1]

theorem line_le_advance : ∀ (u : List Char) (p : Position), p.line ≤ (p.advance u).line
  | [], _ => Nat.le_refl _
  | c :: u, p => by
    rw [advance_cons]
    split
    · exact Nat.le_of_succ_le (line_le_advance u ⟨p.offset + 1, p.line + 1, 0⟩)
    · exact line_le_advance u ⟨p.offset + 1, p.line, p.column + 1⟩

/-- Where a line ends, the position gets to a later one. -/
theorem line_lt_advance : ∀ {u : List Char} (p : Position), LayeredParse.breaksLine u = true → p.line < (p.advance u).line
  | [], _, h => by cases h
  | c :: u, p, h => by
    rw [advance_cons]
    split
    · exact line_le_advance u ⟨p.offset + 1, p.line + 1, 0⟩
    · rename_i hstays
      rw [LayeredParse.breaksLine, Bool.or_eq_true] at h
      exact line_lt_advance ⟨p.offset + 1, p.line, p.column + 1⟩ (h.resolve_left hstays)

/-- There are as many characters in front of a position as its column says, at least. -/
theorem column_le_advance : ∀ (u : List Char) {p : Position}, p.column ≤ p.offset → (p.advance u).column ≤ (p.advance u).offset
  | [], _, h => h
  | c :: u, p, h => by
    rw [advance_cons]
    split
    · exact column_le_advance u (Nat.zero_le _)
    · exact column_le_advance u (Nat.succ_le_succ h)

/-- The first token is where the position gets to over the gap and the trivia that follow it. -/
theorem tokensFrom_first : ∀ (ls : List Lexeme) {p : Position} {gap : List Char} {t : Token} {after : List Token},
    tokensFrom p gap ls = t :: after → ∃ trivia, t.position = p.advance (gap ++ trivia)
  | [], _, _, _, _, h => by cases h
  | l :: ls, p, gap, t, after, h => by
    cases htoken : l.isTrivia with
    | true =>
      rw [tokensFrom_trivia htoken] at h
      obtain ⟨trivia, ht⟩ := tokensFrom_first ls h
      exact ⟨l.chars ++ trivia, by rw [← List.append_assoc, ht]⟩
    | false =>
      rw [tokensFrom_token htoken] at h
      obtain ⟨rfl, -⟩ := List.cons.inj h
      exact ⟨[], by rw [List.append_nil]; rfl⟩

theorem tokensFrom_next : ∀ (ls : List Lexeme) {p : Position} {gap : List Char} {before after : List Token}
    {t next : Token}, tokensFrom p gap ls = before ++ t :: next :: after →
      ∃ trivia, next.position = (t.position.advance t.value.toList).advance trivia
  | [], _, _, before, after, t, next, h => by
    exact (List.append_ne_nil_of_right_ne_nil before (List.cons_ne_nil t _) h.symm).elim
  | l :: ls, p, gap, before, after, t, next, h => by
    cases htoken : l.isTrivia with
    | true =>
      rw [tokensFrom_trivia htoken] at h
      exact tokensFrom_next ls h
    | false =>
      rw [tokensFrom_token htoken] at h
      cases before with
      | nil =>
        obtain ⟨rfl, hrest⟩ := List.cons.inj h
        obtain ⟨trivia, hnext⟩ := tokensFrom_first ls hrest
        refine ⟨trivia, ?_⟩
        rw [hnext, List.nil_append, tokenAt, Lexeme.text, String.toList_ofList]
        rfl
      | cons first before =>
        obtain ⟨-, hrest⟩ := List.cons.inj h
        exact tokensFrom_next ls hrest

theorem tokensFrom_column : ∀ (ls : List Lexeme) {p : Position} {gap : List Char}, p.column ≤ p.offset →
    ∀ t ∈ tokensFrom p gap ls, t.column ≤ t.range.start
  | [], _, _, _, _, ht => by cases ht
  | l :: ls, p, gap, h, t, ht => by
    cases htoken : l.isTrivia with
    | true =>
      rw [tokensFrom_trivia htoken] at ht
      exact tokensFrom_column ls h t ht
    | false =>
      rw [tokensFrom_token htoken] at ht
      have hstart := column_le_advance gap h
      rcases List.mem_cons.1 ht with rfl | ht
      · exact hstart
      · exact tokensFrom_column ls (column_le_advance l.chars hstart) t ht

end Lex

/-! ## Tokens in which a line ends -/

namespace Lexeme

variable {c x mark : Char} {s rest : List Char}

theorem isBlank_of_not_isInLine (h : isInLine x = false) : isBlank x = true := by
  rcases isInLine_eq_false.1 h with rfl | rfl <;> rfl

/-- The end of a line is in a string only if it is an escaped carriage return. -/
theorem stringEnd_breaks (hmark : isInLine mark = true) (s : List Char) : ∀ n closed, stringEnd mark s = (n, closed) →
    x ∈ s.take n → isInLine x = false → ['\\', '\r'] <:+: s.take n := by
  fun_induction stringEnd mark s with
  | case1 | case7 =>
    rintro n closed h hx
    cases h
    cases hx
  | case2 | case4 =>
    rintro n closed h hx hline
    cases h
    obtain rfl := List.mem_singleton.1 hx
    cases hline
  | case3 c rest hc m closed hm ih =>
    rintro n closed' h hx hline
    cases h
    rw [List.take_succ_cons, List.take_succ_cons] at hx ⊢
    rcases List.mem_cons.1 hx with rfl | hx
    · cases hline
    · rcases List.mem_cons.1 hx with rfl | hx
      · obtain rfl := (isInLine_eq_false.1 hline).resolve_right hc
        exact ⟨[], rest.take m, rfl⟩
      · exact ((ih m closed hm hx hline).trans (List.suffix_cons c _).isInfix).trans (List.suffix_cons _ _).isInfix
  | case5 rest =>
    rintro n closed h hx hline
    cases h
    obtain rfl := List.mem_singleton.1 hx
    cases hmark.symm.trans hline
  | case6 c rest h₁ h₂ hne hin m closed hm ih =>
    rintro n closed' h hx hline
    cases h
    rw [List.take_succ_cons] at hx ⊢
    rcases List.mem_cons.1 hx with rfl | hx
    · cases hin.symm.trans hline
    · exact (ih m closed hm hx hline).trans (List.suffix_cons c _).isInfix

/-- The end of a line is in what is measured only if that is trivia, all that is left, or a string. -/
theorem measure_breaks (c : Char) (rest : List Char) : x ∈ rest.take (measure c rest).2 → isInLine x = false →
    (∃ kind, (measure c rest).1 = some kind ∧ kind.isTrivia = true) ∨ rest.drop (measure c rest).2 = [] ∨
      ((measure c rest).1 = some .string ∨ (measure c rest).1 = none) ∧ (c = '"' ∨ c = '\'') ∧
        ['\\', '\r'] <:+: rest.take (measure c rest).2 := by
  fun_cases measure c rest with
  | case1 | case5 | case6 => exact fun _ _ => .inl ⟨_, rfl, rfl⟩
  | case2 =>
    intro hx hline
    have hpart := List.mem_take_takeWhile hx
    rcases isInLine_eq_false.1 hline with rfl | rfl <;> exact absurd hpart (by decide)
  | case3 =>
    intro hx hline
    have hdigit := mem_take_number hx
    rcases isInLine_eq_false.1 hline with rfl | rfl <;> exact absurd hdigit (by decide)
  | case4 _ _ _ _ _ hquote n closed hend =>
    intro hx hline
    have hmark : isInLine c = true := by rcases hquote with rfl | rfl <;> rfl
    refine .inr (.inr ⟨?_, hquote, stringEnd_breaks hmark rest n closed hend hx hline⟩)
    cases closed with
    | true => exact .inl rfl
    | false => exact .inr rfl
  | case7 body =>
    intro _ _
    refine .inr (.inl (List.drop_eq_nil_of_le ?_))
    rw [List.length_cons, Nat.add_comm]
  | case8 _ second tail _ _ hpair =>
    intro hx hline
    obtain rfl := List.mem_singleton.1 hx
    rcases isInLine_eq_false.1 hline with rfl | rfl <;> simp [isOperatorPair] at hpair
  | case9 | case10 | case11 | case12 => exact fun hx => by cases hx

/-- **A line ends in a token only if that is a string with an escaped carriage return**, closed or not, or all that is
left. -/
theorem next_breaks (htoken : (next c rest).isTrivia = false) (hafter : after c rest ≠ [])
    (h : breaksLine (next c rest).chars = true) : ((next c rest).kind = some .string ∨ (next c rest).kind = none) ∧
      (c = '"' ∨ c = '\'') ∧ ['\\', '\r'] <:+: (next c rest).chars := by
  obtain ⟨x, hx, hline⟩ := exists_of_breaksLine h
  rw [next_chars] at hx ⊢
  rcases List.mem_cons.1 hx with rfl | hx
  · rw [isTrivia_next_of_isBlank (isBlank_of_not_isInLine hline)] at htoken
    cases htoken
  · rcases measure_breaks c rest hx hline with ⟨kind, hkind, htrivia⟩ | hnil | ⟨hkind, hquote, hescape⟩
    · have hkind' : (next c rest).kind = some kind := hkind
      rw [isTrivia, hkind'] at htoken
      cases htrivia.symm.trans htoken
    · exact absurd hnil hafter
    · exact ⟨hkind, hquote, hescape.trans (List.suffix_cons c _).isInfix⟩

end Lexeme

section Neighbours

variable {source : String} {before after : List Token} {t next : Token}

/-- **A token is where the position gets to over the token before it and the trivia between them.** -/
theorem lex_next (h : lex source = before ++ t :: next :: after) :
    ∃ trivia, next.position = (t.position.advance t.value.toList).advance trivia :=
  Lex.tokensFrom_next _ h

theorem column_le_start (ht : t ∈ lex source) : t.column ≤ t.range.start :=
  Lex.tokensFrom_column _ (Nat.zero_le _) t ht

/-- A token ends where the position gets to over it. -/
theorem stop_eq_advance (ht : t ∈ lex source) : t.range.stop = (t.position.advance t.value.toList).offset := by
  have hnonempty := (lex_inOrder source).nonempty t ht
  have hlength := length_value ht
  rw [Lex.advance_offset, String.length_toList, hlength]
  exact (Nat.add_sub_cancel' (Nat.le_of_lt hnonempty)).symm

/-- **The next token is as many columns further on as it is characters, unless it is on a later line**: then a line ends in
the token, or something lies between. -/
theorem lex_next_line (h : lex source = before ++ t :: next :: after) :
    (t.breaksLine = false ∧ next.line = t.line ∧ next.column + t.range.start = t.column + next.range.start) ∨
      (t.line < next.line ∧ (t.breaksLine = true ∨ t.range.stop < next.range.start)) := by
  have hstop := stop_eq_advance (h ▸ List.mem_append_right before List.mem_cons_self : t ∈ lex source)
  obtain ⟨trivia, hnext⟩ := lex_next h
  have hline : next.line = ((t.position.advance t.value.toList).advance trivia).line := congrArg Lex.Position.line hnext
  have hstart : next.range.start = ((t.position.advance t.value.toList).advance trivia).offset :=
    congrArg Lex.Position.offset hnext
  cases hbreaks : t.breaksLine with
  | true =>
    have hlater := Lex.line_lt_advance t.position hbreaks
    exact .inr ⟨hline ▸ Nat.lt_of_lt_of_le hlater (Lex.line_le_advance trivia _), .inl rfl⟩
  | false =>
    have hover := Lex.advance_inLine t.position hbreaks
    cases hgap : breaksLine trivia with
    | true =>
      have hlater := Lex.line_lt_advance (t.position.advance t.value.toList) hgap
      have hlength : 0 < trivia.length := List.length_pos_iff.2 (by rintro rfl; cases hgap)
      rw [hover] at hlater
      rw [Lex.advance_offset, ← hstop] at hstart
      exact .inr ⟨by rw [hline, hover]; exact hlater, .inr (by omega)⟩
    | false =>
      rw [hover, Lex.advance_inLine _ hgap, Token.position, Token.position, Lex.Position.mk.injEq] at hnext
      obtain ⟨hoffset, hsame, hcolumn⟩ := hnext
      dsimp only at hoffset hcolumn
      exact .inl ⟨rfl, hsame, by omega⟩

/-- **A line ends in a token with a token after it only if that is a string with an escaped carriage return**, closed or
not. -/
theorem breaksLine_token (h : lex source = before ++ t :: next :: after) (hbreaks : t.breaksLine = true) :
    (t.type = TokenType.string ∨ t.type = TokenType.error) ∧
      (∃ mark body, (mark = '"' ∨ mark = '\'') ∧ t.value.toList = mark :: body) ∧ ['\\', '\r'] <:+: t.value.toList := by
  have hin : ∀ u ∈ [t, next], u ∈ lex source := by
    intro u hu
    rw [h]
    exact List.mem_append_right before ((List.sublist_append_left [t, next] after).subset hu)
  have ht := hin t List.mem_cons_self
  have hnext := hin next (List.mem_cons_of_mem t List.mem_cons_self)
  obtain ⟨behind, c, rest, hlexeme, hsits⟩ := exists_lexeme ht
  have hafter : Lexeme.after c rest ≠ [] := by
    -- the next token has characters, and they are behind those of the token
    rw [← hsits.drop_stop]
    intro hnil
    have hstop := List.drop_eq_nil_iff.1 hnil
    rw [String.length_toList] at hstop
    have hle := stop_le_length hnext
    have hnonempty := (lex_inOrder source).nonempty next hnext
    have horder := (lex_inOrder source).stop_le (Nat.lt_succ_self before.length) (a := t) (b := next)
      (by rw [h]; simp) (by rw [h]; simp)
    omega
  rw [Token.breaksLine, hlexeme.toList_value] at hbreaks
  obtain ⟨hkind, hquote, hescape⟩ := Lexeme.next_breaks hlexeme.isTrivia_eq hafter hbreaks
  rw [hlexeme.type_eq, hlexeme.toList_value, Lexeme.tokenType]
  refine ⟨?_, ⟨c, _, hquote, rfl⟩, hescape⟩
  rcases hkind with hkind | hkind <;> rw [hkind]
  · exact .inl rfl
  · exact .inr rfl

end Neighbours
end LayeredParse
