import LayeredParse.Proofs.Lex.Coverage
/-!
# Respacing — tokens are read again as they are

How the lexemes that become tokens are written (`Spelled`), beside those that are not recognized (`Unrecognized`).  None of
them can go on over a line feed, so in front of one, or at the end, they are cut off as they are (`next_again`); only a
comment that is not closed has to be the last.  So the tokens of a source, with a line feed between each and the next, are
its tokens again, and each of them is a token by itself (`lex_respaced`).
-/
namespace LayeredParse
namespace Lexeme

variable {c mark : Char} {rest taken follow : List Char} {kind : LexemeKind}

/-! ## How tokens are written -/

/-- What a quoted string has after its opening mark. -/
inductive Quoted (mark : Char) : List Char → Prop
  | close : Quoted mark [mark]
  | escape {c : Char} {taken : List Char} (hc : c ≠ '\n') (h : Quoted mark taken) : Quoted mark ('\\' :: c :: taken)
  | plain {c : Char} {taken : List Char} (hc : c ≠ '\\') (hmark : c ≠ mark) (hline : isInLine c = true)
      (h : Quoted mark taken) : Quoted mark (c :: taken)

/-- How the lexemes are written that become tokens of a type of their own. -/
inductive Spelled : LexemeKind → List Char → Prop
  | identifier {c : Char} {part : List Char} (hc : isWordStart c = true) (h : ∀ d ∈ part, isWordPart d = true) :
      Spelled .identifier (c :: part)
  | integer {c : Char} {digits : List Char} (hc : c.isDigit = true) (h : ∀ d ∈ digits, d.isDigit = true) :
      Spelled .number (c :: digits)
  | decimal {c : Char} {digits fraction : List Char} (hc : c.isDigit = true) (h : ∀ d ∈ digits, d.isDigit = true)
      (hne : fraction ≠ []) (hf : ∀ d ∈ fraction, d.isDigit = true) : Spelled .number (c :: (digits ++ '.' :: fraction))
  | string {mark : Char} {taken : List Char} (hmark : mark = '"' ∨ mark = '\'') (h : Quoted mark taken) :
      Spelled .string (mark :: taken)
  | pair {c d : Char} (h : isOperatorPair c d = true) : Spelled .punctuator [c, d]
  | single {c : Char} (h : isPunctuation c = true) : Spelled .punctuator [c]

theorem stringEnd_quoted (mark : Char) (s : List Char) : ∀ n, stringEnd mark s = (n, true) → Quoted mark (s.take n) := by
  fun_induction stringEnd mark s with
  | case1 | case2 | case4 | case7 => rintro n ⟨⟩
  | case3 c rest hc m closed hm ih =>
    rintro n h
    cases h
    exact .escape hc (ih m hm)
  | case5 rest =>
    rintro n h
    cases h
    exact .close
  | case6 c rest h₁ h₂ hmark hline m closed hm ih =>
    rintro n h
    cases h
    have hc : c ≠ '\\' := by
      intro e
      cases rest with
      | nil => exact h₂ e rfl
      | cons d rest => exact h₁ d rest e rfl
    exact .plain hc hmark hline (ih m hm)

theorem Quoted.stringEnd_eq (hmark : mark ≠ '\\') (follow : List Char) (h : Quoted mark taken) :
    stringEnd mark (taken ++ follow) = (taken.length, true) := by
  induction h with
  | close => rw [List.singleton_append, stringEnd_cons mark hmark, if_pos rfl, List.length_singleton]
  | escape hc _ ih =>
    rw [List.cons_append, List.cons_append, stringEnd, if_neg hc, ih]
    rfl
  | plain hc hne hline _ ih =>
    rw [List.cons_append, stringEnd_cons mark hc, if_neg hne, if_pos hline, ih]
    rfl

theorem number_spelled (hc : c.isDigit = true) (rest : List Char) :
    Spelled .number (c :: rest.take ((rest.takeWhile Char.isDigit).length +
      fractionLength (rest.drop (rest.takeWhile Char.isDigit).length))) := by
  have hdigits : ∀ d ∈ rest.takeWhile Char.isDigit, d.isDigit = true := fun d hd => List.mem_takeWhile_imp hd
  rw [List.take_add, List.take_takeWhile_length]
  generalize rest.drop (rest.takeWhile Char.isDigit).length = fraction
  unfold fractionLength
  split
  · rename_i line
    split
    · rw [List.take_zero, List.append_nil]
      exact .integer hc hdigits
    · rename_i n hn
      have htake : line.take (n + 1) = line.takeWhile Char.isDigit := by
        rw [← Nat.succ_eq_add_one, ← hn, List.take_takeWhile_length]
      rw [List.take_succ_cons, htake]
      refine .decimal hc hdigits ?_ (fun d hd => List.mem_takeWhile_imp hd)
      intro hnil
      rw [hnil] at hn
      cases hn
  · rw [List.take_zero, List.append_nil]
    exact .integer hc hdigits

theorem measure_spelled (c : Char) (rest : List Char) : ∀ kind, (measure c rest).1 = some kind → kind.isTrivia = false →
    Spelled kind (c :: rest.take (measure c rest).2) := by
  fun_cases measure c rest with
  | case1 | case5 | case6 => rintro _ ⟨⟩ ⟨⟩
  | case2 _ _ _ hword =>
    rintro _ ⟨⟩ -
    exact .identifier hword (fun d hd => List.mem_take_takeWhile hd)
  | case3 _ _ _ _ hdigit =>
    rintro _ ⟨⟩ -
    exact number_spelled hdigit _
  | case4 _ _ _ _ _ hquote n closed hend =>
    intro kind hkind _
    cases closed with
    | true =>
      cases hkind
      exact .string hquote (stringEnd_quoted c rest n hend)
    | false => cases hkind
  | case7 | case10 | case12 => rintro _ ⟨⟩
  | case8 _ _ _ _ _ hpair =>
    rintro _ ⟨⟩ -
    exact .pair hpair
  | case9 _ _ _ _ _ _ hpunctuation =>
    rintro _ ⟨⟩ -
    exact .single hpunctuation
  | case11 _ hpunctuation =>
    rintro _ ⟨⟩ -
    exact .single hpunctuation

/-! ## What a lexeme begins with -/

theorem not_isBlank_of {p : Char → Bool} (hp : [' ', '\t', '\r', '\n', '\x0c'].any p = false) (h : p c = true) :
    ¬isBlank c = true := by
  intro hblank
  have hmem : c ∈ [' ', '\t', '\r', '\n', '\x0c'] := by simpa [isBlank, or_assoc] using hblank
  exact Bool.false_ne_true (hp.symm.trans (List.any_eq_true.2 ⟨c, hmem, h⟩))

theorem not_isWordStart_of_isDigit (h : c.isDigit = true) : ¬isWordStart c = true := by
  intro hword
  have hnine : c.val.toNat ≤ 57 := of_decide_eq_true (Bool.and_eq_true_iff.1 h).2
  rcases Bool.or_eq_true_iff.1 hword with halpha | hunder
  · rcases Bool.or_eq_true_iff.1 halpha with hupper | hlower
    · have hle : 65 ≤ c.val.toNat := (of_decide_eq_true hupper).1
      omega
    · have hle : 97 ≤ c.val.toNat := of_decide_eq_true (Bool.and_eq_true_iff.1 hlower).1
      omega
  · obtain rfl : c = '_' := by simpa using hunder
    cases h

/-- Punctuation begins nothing but operators and comments. -/
theorem not_other_of_isPunctuation (h : isPunctuation c = true) :
    ¬isBlank c = true ∧ ¬isWordStart c = true ∧ ¬c.isDigit = true ∧ ¬(c = '"' ∨ c = '\'') := by
  unfold isPunctuation at h
  rw [List.contains_iff_mem] at h
  have hall : List.all "-+*/%=<>!&|^~?:;,.()\x7b\x7d[]#@$".toList (fun c =>
      decide (¬isBlank c = true ∧ ¬isWordStart c = true ∧ ¬c.isDigit = true ∧ ¬(c = '"' ∨ c = '\''))) = true := by
    decide
  exact of_decide_eq_true (List.all_eq_true.1 hall c h)

theorem measure_word (h : isWordStart c = true) (rest : List Char) :
    measure c rest = (some .identifier, (rest.takeWhile isWordPart).length) := by
  unfold measure
  rw [if_neg (not_isBlank_of (by decide) h), if_pos h]

theorem measure_digit (h : c.isDigit = true) (rest : List Char) :
    measure c rest = (some .number, (rest.takeWhile Char.isDigit).length +
      fractionLength (rest.drop (rest.takeWhile Char.isDigit).length)) := by
  unfold measure
  rw [if_neg (not_isBlank_of (by decide) h), if_neg (not_isWordStart_of_isDigit h), if_pos h]

theorem measure_pair {d : Char} (h : isOperatorPair c d = true) (rest : List Char) :
    measure c (d :: rest) = (some .punctuator, 1) := by
  have hc := isPunctuation_of_isOperatorPair h
  obtain ⟨hblank, hword, hdigit, hquote⟩ := not_other_of_isPunctuation hc
  unfold measure
  rw [if_neg hblank, if_neg hword, if_neg hdigit, if_neg hquote]
  split
  · cases h
  · cases h
  · rename_i heq
    obtain ⟨rfl, rfl⟩ := List.cons.inj heq
    rw [if_pos h]
  · rename_i heq
    cases heq

/-! ## In front of a line feed, and at the end -/

/-- Whether no lexeme can go on there: a line feed follows, or nothing. -/
def Breaks (follow : List Char) : Prop :=
  ∀ c, follow.head? = some c → c = '\n'

theorem breaks_nil : Breaks [] := fun _ h => nomatch h

theorem breaks_newline (s : List Char) : Breaks ('\n' :: s) := fun _ h => (Option.some.inj h).symm

theorem Breaks.takeWhile_append {p : Char → Bool} (hf : Breaks follow) (hp : p '\n' = false)
    (h : ∀ d ∈ taken, p d = true) : (taken ++ follow).takeWhile p = taken := by
  rw [List.takeWhile_append_of_pos h]
  cases follow with
  | nil => exact List.append_nil taken
  | cons d s =>
    obtain rfl := hf d rfl
    rw [List.takeWhile_cons_of_neg (by rw [hp]; exact Bool.false_ne_true), List.append_nil]

theorem measure_single (h : isPunctuation c = true) (hf : Breaks follow) : measure c follow = (some .punctuator, 0) := by
  obtain ⟨hblank, hword, hdigit, hquote⟩ := not_other_of_isPunctuation h
  unfold measure
  rw [if_neg hblank, if_neg hword, if_neg hdigit, if_neg hquote]
  split
  · cases hf _ rfl
  · cases hf _ rfl
  · rename_i second _ _ _
    obtain rfl := hf second rfl
    have hpair : ¬isOperatorPair c '\n' = true := by simp [isOperatorPair]
    rw [if_neg hpair, if_pos h]
  · rw [if_pos h]

/-- **A lexeme of a kind of its own is cut off as it is written**, where nothing can go on. -/
theorem Spelled.next_eq (h : Spelled kind (c :: taken)) (hf : Breaks follow) :
    next c (taken ++ follow) = ⟨some kind, c :: taken⟩ := by
  have cut : measure c (taken ++ follow) = (some kind, taken.length) →
      next c (taken ++ follow) = ⟨some kind, c :: taken⟩ := by
    intro hm
    rw [next, hm]
    exact congrArg (Lexeme.mk (some kind) <| c :: ·) List.take_left
  cases h with
  | identifier hc h =>
    refine cut ?_
    rw [measure_word hc, hf.takeWhile_append rfl h]
  | integer hc h =>
    refine cut ?_
    have hfraction : fractionLength follow = 0 := by
      unfold fractionLength
      split
      · cases hf '.' rfl
      · rfl
    rw [measure_digit hc, hf.takeWhile_append rfl h, List.drop_left, hfraction, Nat.add_zero]
  | @decimal _ digits fraction hc h hne hfraction =>
    refine cut ?_
    have hdigits : (digits ++ '.' :: (fraction ++ follow)).takeWhile Char.isDigit = digits := by
      rw [List.takeWhile_append_of_pos h, List.takeWhile_cons_of_neg (by decide), List.append_nil]
    have hlength : fractionLength ('.' :: (fraction ++ follow)) = fraction.length + 1 := by
      rw [fractionLength, hf.takeWhile_append rfl hfraction]
      cases fraction with
      | nil => exact absurd rfl hne
      | cons d fraction => rfl
    rw [List.append_assoc, List.cons_append, measure_digit hc, hdigits, List.drop_left, hlength, List.length_append,
      List.length_cons]
  | string hmark h =>
    refine cut ?_
    have hescape : c ≠ '\\' := by rcases hmark with rfl | rfl <;> decide
    rw [measure_quote hmark, h.stringEnd_eq hescape]
    rfl
  | pair h => exact cut (measure_pair h follow)
  | single h => exact cut (measure_single h hf)

/-- What breaks off in front of something breaks off in front of a line feed. -/
theorem Unclosed.again {follow' : List Char} (h : Unclosed mark taken follow) (hf : Breaks follow') :
    Unclosed mark taken follow' := by
  induction h with
  | stops =>
    refine .stops (fun c hc => ?_)
    rw [hf c hc]
    rfl
  | halfEscape => exact .halfEscape hf
  | escape hc _ ih => exact .escape hc ih
  | plain hc hmark hline _ ih => exact .plain hc hmark hline ih

theorem Unrecognized.again {follow' : List Char} (h : Unrecognized taken follow) (hf : Breaks follow')
    (hend : follow' = [] ∨ follow ≠ []) : Unrecognized taken follow' := by
  cases h with
  | character h => exact .character h
  | string hmark h => exact .string hmark (h.again hf)
  | comment h =>
    obtain rfl := hend.resolve_right (fun hne => hne rfl)
    exact .comment h

/-- **A token is cut off again where nothing can go on**, except that a comment that is not closed has to be the last. -/
theorem next_again (htoken : (next c rest).isTrivia = false) (hf : Breaks follow)
    (hend : follow = [] ∨ after c rest ≠ []) : ∃ part, (next c rest).chars = c :: part ∧
      next c (part ++ follow) = next c rest ∧ after c (part ++ follow) = follow := by
  let part := rest.take (measure c rest).2
  have hnext : next c (part ++ follow) = next c rest := by
    cases hkind : (next c rest).kind with
    | none =>
      have hagain : Unrecognized (c :: part) follow := (next_unrecognized hkind).again hf hend
      have hcut : next c (part ++ follow) = ⟨none, c :: part⟩ := hagain.next_eq rfl
      rw [hcut, ← hkind]
      rfl
    | some kind =>
      have htrivia : kind.isTrivia = false := by
        unfold isTrivia at htoken
        rwa [hkind] at htoken
      have hspelled : Spelled kind (c :: part) := measure_spelled c rest kind hkind htrivia
      rw [hspelled.next_eq hf, ← hkind]
      rfl
  have happend : (next c rest).chars ++ after c (part ++ follow) = (next c rest).chars ++ follow := by
    rw [← hnext, chars_append_after, hnext]
    rfl
  exact ⟨part, rfl, hnext, List.append_cancel_left happend⟩

/-! ## The lexemes that become tokens -/

/-- The lexemes of a text that become tokens. -/
def significant (s : List Char) : List Lexeme :=
  (ofChars s).filter fun l => !l.isTrivia

/-- The lexemes with a line feed between each and the next. -/
def onLines (ls : List Lexeme) : List Char :=
  ['\n'].intercalate (ls.map chars)

theorem significant_nil : significant [] = [] := by
  rw [significant, ofChars_nil, List.filter_nil]

theorem significant_trivia (h : (next c rest).isTrivia = true) : significant (c :: rest) = significant (after c rest) := by
  rw [significant, ofChars_cons, List.filter_cons_of_neg (by simp [h]), significant]

theorem significant_token (h : (next c rest).isTrivia = false) :
    significant (c :: rest) = next c rest :: significant (after c rest) := by
  rw [significant, ofChars_cons, List.filter_cons_of_pos (by simp [h]), significant]

theorem exists_next_of_mem (s : List Char) : ∀ {l : Lexeme}, l ∈ significant s →
    ∃ c rest, l = next c rest ∧ (next c rest).isTrivia = false := by
  induction s using ofChars.induct with
  | case1 =>
    intro l h
    rw [significant_nil] at h
    cases h
  | case2 c rest ih =>
    intro l h
    cases htoken : (next c rest).isTrivia with
    | true =>
      rw [significant_trivia htoken] at h
      exact ih h
    | false =>
      rw [significant_token htoken] at h
      rcases List.mem_cons.1 h with rfl | h
      · exact ⟨c, rest, rfl, htoken⟩
      · exact ih h

/-- A line feed in front of a lexeme that is no white space is white space by itself. -/
theorem significant_newline {s : List Char} (h : ∀ c, s.head? = some c → ¬isBlank c = true) :
    significant ('\n' :: s) = significant s := by
  have hafter : after '\n' s = s := by
    have hnone : s.takeWhile isBlank = [] := by
      cases s with
      | nil => rfl
      | cons c s => exact List.takeWhile_cons_of_neg (h c rfl)
    show s.drop (s.takeWhile isBlank).length = s
    rw [hnone]
    rfl
  rw [significant_trivia (isTrivia_next_of_isBlank rfl), hafter]

/-- Lines of tokens do not begin with white space. -/
theorem onLines_not_blank {s : List Char} {l : Lexeme} {ls : List Lexeme} (h : significant s = l :: ls) {d : Char}
    (hd : (onLines (l :: ls)).head? = some d) : ¬isBlank d = true := by
  intro hblank
  obtain ⟨c, rest, rfl, htoken⟩ := exists_next_of_mem s (h ▸ List.mem_cons_self)
  have hfirst : (onLines (next c rest :: ls)).head? = some c := by
    rw [onLines]
    cases ls <;> simp [next_chars]
  obtain rfl : c = d := Option.some.inj (hfirst.symm.trans hd)
  rw [isTrivia_next_of_isBlank hblank] at htoken
  cases htoken

/-- A lexeme that becomes a token becomes it by itself. -/
theorem significant_chars {s : List Char} {l : Lexeme} (h : l ∈ significant s) : significant l.chars = [l] := by
  obtain ⟨c, rest, rfl, htoken⟩ := exists_next_of_mem s h
  obtain ⟨part, hchars, hnext, hafter⟩ := next_again htoken breaks_nil (.inl rfl)
  rw [List.append_nil] at hnext hafter
  rw [hchars, significant_token (hnext ▸ htoken), hnext, hafter, significant_nil]

/-- **The tokens of a text, each on a line of its own, are its tokens again.** -/
theorem significant_onLines (s : List Char) : significant (onLines (significant s)) = significant s := by
  induction s using ofChars.induct with
  | case1 => rw [significant_nil, onLines, List.map_nil, List.intercalate_nil, significant_nil]
  | case2 c rest ih =>
    cases htoken : (next c rest).isTrivia with
    | true => rw [significant_trivia htoken, ih]
    | false =>
      rw [significant_token htoken]
      cases hls : significant (after c rest) with
      | nil =>
        rw [onLines, List.map_singleton, List.intercalate_singleton]
        exact significant_chars (s := c :: rest) (by rw [significant_token htoken]; exact List.mem_cons_self)
      | cons l ls =>
        rw [hls] at ih
        have hmore : after c rest ≠ [] := by
          intro hnil
          rw [hnil, significant_nil] at hls
          cases hls
        obtain ⟨part, hchars, hnext, hafter⟩ := next_again htoken (breaks_newline (onLines (l :: ls))) (.inr hmore)
        have hlines : onLines (next c rest :: l :: ls) = c :: (part ++ '\n' :: onLines (l :: ls)) := by
          rw [onLines, List.map_cons, List.map_cons, List.intercalate_cons_cons, ← List.map_cons, ← onLines, hchars,
            List.append_assoc]
          rfl
        -- the rest begins with a token, so the line feed is cut off by itself
        have hnewline := significant_newline fun _ => onLines_not_blank hls
        rw [hlines, significant_token (hnext ▸ htoken), hnext, hafter, hnewline, ih]

end Lexeme

/-- The type and the value, without where the token is. -/
def Token.spelling (t : Token) : TokenType × String :=
  (t.type, t.value)

theorem Lex.tokensFrom_spelling : ∀ (ls : List Lexeme) (p : Position) (gap : List Char),
    (tokensFrom p gap ls).map Token.spelling = (ls.filter fun l => !l.isTrivia).map fun l => (l.tokenType, l.text)
  | [], _, _ => rfl
  | l :: ls, p, gap => by
    cases htoken : l.isTrivia with
    | true => rw [tokensFrom_trivia htoken, List.filter_cons_of_neg (by simp [htoken]), tokensFrom_spelling ls]
    | false =>
      rw [tokensFrom_token htoken, List.filter_cons_of_pos (by simp [htoken]), List.map_cons, List.map_cons,
        tokensFrom_spelling ls]
      rfl

theorem lex_spelling (source : String) :
    (lex source).map Token.spelling = (Lexeme.significant source.toList).map fun l => (l.tokenType, l.text) :=
  Lex.tokensFrom_spelling (Lexeme.ofSource source) .origin []

theorem lex_values (source : String) : (lex source).map Token.value = (Lexeme.significant source.toList).map Lexeme.text := by
  have hvalues := congrArg (List.map Prod.snd) (lex_spelling source)
  rw [List.map_map, List.map_map] at hvalues
  exact hvalues

/-- **Tokens are read again as they are.**  The values of the tokens of a source, with a line feed between each and the
next, have tokens of the same types and values in the same order, and the value of each token by itself has that token
alone, whether it is an error or not. -/
theorem lex_respaced (source : String) :
    (lex ("\n".intercalate ((lex source).map Token.value))).map Token.spelling = (lex source).map Token.spelling ∧
    ∀ t ∈ lex source, (lex t.value).map Token.spelling = [t.spelling] := by
  constructor
  · have hlines : ("\n".intercalate ((lex source).map Token.value)).toList =
        Lexeme.onLines (Lexeme.significant source.toList) := by
      rw [String.toList_intercalate, lex_values, List.map_map, Lexeme.onLines]
      congr 2
      funext l
      exact String.toList_ofList
    rw [lex_spelling, hlines, Lexeme.significant_onLines, lex_spelling]
  · intro t ht
    have hmem : t.spelling ∈ (lex source).map Token.spelling := List.mem_map_of_mem ht
    rw [lex_spelling] at hmem
    obtain ⟨l, hl, hspelling⟩ := List.mem_map.1 hmem
    obtain ⟨-, hvalue⟩ := Prod.mk.inj hspelling
    have hchars : t.value.toList = l.chars := by
      rw [← show l.text = t.value from hvalue]
      exact String.toList_ofList
    rw [lex_spelling, hchars, Lexeme.significant_chars hl, List.map_singleton, hspelling]

/-- Operators and a number that nothing separates, a string that breaks off in a line break after an escaped carriage
return, a character that nothing begins with, and a comment that is not closed: the same on seven lines, and the string by
itself. -/
theorem lex_respaced_broken :
    let spellings := [(TokenType.identifier, "a"), (TokenType.punctuator, "--"), (TokenType.punctuator, ">"),
      (TokenType.number, "1.5"), (TokenType.error, "'\\\r"), (TokenType.error, "`"), (TokenType.error, "/* b\n")]
    (lex "a-->1.5'\\\r\n`/* b\n").map Token.spelling = spellings ∧
    (lex "a\n--\n>\n1.5\n'\\\r\n`\n/* b\n").map Token.spelling = spellings ∧
    (lex "'\\\r").map Token.spelling = [(TokenType.error, "'\\\r")] := by
  intro spellings
  have hlex : (lex "a-->1.5'\\\r\n`/* b\n").map Token.spelling = spellings := by decide +kernel
  have hlines : "\n".intercalate ((lex "a-->1.5'\\\r\n`/* b\n").map Token.value) =
      "a\n--\n>\n1.5\n'\\\r\n`\n/* b\n" := by
    decide +kernel
  obtain ⟨lines, single⟩ := lex_respaced "a-->1.5'\\\r\n`/* b\n"
  rw [hlines, hlex] at lines
  refine ⟨hlex, lines, ?_⟩
  have hstring : (⟨"'\\\r", TokenType.error, 1, 7, ⟨7, 10⟩⟩ : Token) ∈ lex "a-->1.5'\\\r\n`/* b\n" := by decide +kernel
  exact single _ hstring

end LayeredParse
