import LayeredParse.Proofs.Lex.Lexemes
/-!
# Spelling — how trivia and what is not recognized are written

White space and comments (`Trivial`), and the pieces that are no lexeme of any kind (`Unrecognized`): characters that
nothing begins with, strings that break off, and comments that are not closed.  A piece is not recognized exactly if it is
one of these, as far as it goes (`next_unrecognized`, `Unrecognized.next_eq`).
-/
namespace LayeredParse
namespace Lexeme

variable {c mark : Char} {s rest taken follow : List Char}

/-- How trivia is written. -/
inductive Trivial : LexemeKind → List Char → Prop
  | whitespace {blanks : List Char} (hne : blanks ≠ []) (h : ∀ c ∈ blanks, isBlank c = true) : Trivial .whitespace blanks
  | lineComment {line : List Char} (h : ∀ c ∈ line, isInLine c = true) : Trivial .lineComment ('/' :: '/' :: line)
  /-- The first closing mark ends it. -/
  | blockComment {body : List Char} (h : ¬['*', '/'] <:+: body) :
      Trivial .blockComment ('/' :: '*' :: (body ++ ['*', '/']))

/-- **No lexeme begins with the character.** -/
structure Strange (c : Char) : Prop where
  not_blank : ¬isBlank c = true
  not_word : ¬isWordStart c = true
  not_digit : ¬c.isDigit = true
  not_quote : ¬(c = '"' ∨ c = '\'')
  not_punctuation : ¬isPunctuation c = true

/-- **A string that breaks off**: what there is of it after its opening quote, and what follows instead of the rest. -/
inductive Unclosed (mark : Char) : List Char → List Char → Prop
  /-- At the end of the text, or of the line. -/
  | stops {follow : List Char} (h : ∀ c, follow.head? = some c → isInLine c = false) : Unclosed mark [] follow
  /-- In an escape, since a line feed cannot be escaped. -/
  | halfEscape {follow : List Char} (h : ∀ c, follow.head? = some c → c = '\n') : Unclosed mark ['\\'] follow
  | escape {c : Char} {taken follow : List Char} (hc : c ≠ '\n') (h : Unclosed mark taken follow) :
      Unclosed mark ('\\' :: c :: taken) follow
  | plain {c : Char} {taken follow : List Char} (hc : c ≠ '\\') (hmark : c ≠ mark) (hline : isInLine c = true)
      (h : Unclosed mark taken follow) : Unclosed mark (c :: taken) follow

/-- **A piece that is not recognized**, and what follows it. -/
inductive Unrecognized : List Char → List Char → Prop
  | character {c : Char} {follow : List Char} (h : Strange c) : Unrecognized [c] follow
  | string {mark : Char} {taken follow : List Char} (hmark : mark = '"' ∨ mark = '\'') (h : Unclosed mark taken follow) :
      Unrecognized (mark :: taken) follow
  | comment {body : List Char} (h : ¬['*', '/'] <:+: body) : Unrecognized ('/' :: '*' :: body) []

/-! ## Comments -/

theorem closing_infix_cons : ['*', '/'] <:+: c :: rest ↔ (c = '*' ∧ rest.head? = some '/') ∨ ['*', '/'] <:+: rest := by
  rw [List.infix_cons_iff, List.cons_prefix_cons, eq_comm]
  cases rest with
  | nil => simp
  | cons d rest => rw [List.cons_prefix_cons, List.head?_cons, Option.some.injEq, eq_comm (a := d)]; simp

theorem commentEnd_eq_none : commentEnd s = none ↔ ¬['*', '/'] <:+: s := by
  fun_induction commentEnd s with
  | case1 rest =>
    rw [closing_infix_cons]
    simp
  | case2 c rest hclosing ih =>
    have hhere : ¬(c = '*' ∧ rest.head? = some '/') := by
      rintro ⟨rfl, hhead⟩
      obtain ⟨rest', rfl⟩ := List.head?_eq_some_iff.1 hhead
      exact hclosing rest' rfl rfl
    rw [Option.map_eq_none_iff, ih, closing_infix_cons, or_iff_right hhere]
  | case3 => simp

theorem commentEnd_eq_some (s : List Char) : ∀ n, commentEnd s = some n →
    ∃ body, s.take n = body ++ ['*', '/'] ∧ ¬['*', '/'] <:+: body := by
  fun_induction commentEnd s with
  | case1 rest =>
    rintro n h
    cases h
    exact ⟨[], rfl, by simp⟩
  | case2 c rest hclosing ih =>
    rintro n h
    obtain ⟨m, hm, rfl⟩ := Option.map_eq_some_iff.1 h
    obtain ⟨body, htake, hbody⟩ := ih m hm
    refine ⟨c :: body, by rw [List.take_succ_cons, htake, List.cons_append], ?_⟩
    rw [closing_infix_cons]
    rintro (⟨rfl, hhead⟩ | hin)
    · obtain ⟨body', rfl⟩ := List.head?_eq_some_iff.1 hhead
      have hrest := List.take_append_drop m rest
      rw [htake] at hrest
      exact hclosing _ rfl hrest.symm
    · exact hbody hin
  | case3 => rintro n ⟨⟩

/-! ## Strings -/

theorem stringEnd_unclosed (mark : Char) (s : List Char) : ∀ n, stringEnd mark s = (n, false) →
    Unclosed mark (s.take n) (s.drop n) := by
  fun_induction stringEnd mark s with
  | case1 =>
    rintro n h
    cases h
    refine .stops ?_
    rintro _ ⟨⟩
  | case2 rest =>
    rintro n h
    cases h
    exact .halfEscape (fun c h => (Option.some.inj h).symm)
  | case3 c rest hc m closed hm ih =>
    rintro n h
    cases h
    exact .escape hc (ih m hm)
  | case4 =>
    rintro n h
    cases h
    refine .halfEscape ?_
    rintro _ ⟨⟩
  | case5 => rintro n ⟨⟩
  | case6 c rest h₁ h₂ hmark hline m closed hm ih =>
    rintro n h
    cases h
    have hc : c ≠ '\\' := by
      intro e
      cases rest with
      | nil => exact h₂ e rfl
      | cons d rest => exact h₁ d rest e rfl
    exact .plain hc hmark hline (ih m hm)
  | case7 c rest h₁ h₂ hmark hline =>
    rintro n h
    cases h
    exact .stops (fun d h => by cases h; simpa using hline)

theorem stringEnd_cons (mark : Char) (hc : c ≠ '\\') (rest : List Char) : stringEnd mark (c :: rest) =
    if c = mark then (1, true)
    else if isInLine c then ((stringEnd mark rest).1 + 1, (stringEnd mark rest).2)
    else (0, false) := by
  rw [stringEnd]
  · exact fun _ _ e => absurd e hc
  · exact fun e => absurd e hc

theorem Unclosed.stringEnd_eq (hmark : isInLine mark = true) (h : Unclosed mark taken follow) :
    stringEnd mark (taken ++ follow) = (taken.length, false) := by
  induction h with
  | @stops follow h =>
    cases follow with
    | nil => rfl
    | cons c rest =>
      have hline := h c rfl
      have hc : c ≠ '\\' := by
        rintro rfl
        cases hline
      have hne : c ≠ mark := by
        rintro rfl
        cases hline.symm.trans hmark
      rw [List.nil_append, stringEnd_cons mark hc, if_neg hne, hline]
      rfl
  | @halfEscape follow h =>
    cases follow with
    | nil => rfl
    | cons c rest =>
      obtain rfl := h c rfl
      rfl
  | escape hc _ ih =>
    rw [List.cons_append, List.cons_append, stringEnd, if_neg hc, ih]
    rfl
  | plain hc hne hline _ ih =>
    rw [List.cons_append, stringEnd_cons mark hc, if_neg hne, if_pos hline, ih]
    rfl

/-! ## Lexemes -/

theorem isPunctuation_of_isOperatorPair {second : Char} (h : isOperatorPair c second = true) : isPunctuation c = true := by
  unfold isOperatorPair at h
  rw [List.contains_iff_mem] at h
  refine List.all_eq_true.1 (?_ : List.all _ (fun pair : Char × Char => isPunctuation pair.1) = true) _ h
  decide

theorem take_one_add (c : Char) (rest : List Char) (n : Nat) : (c :: rest).take (1 + n) = c :: rest.take n := by
  rw [Nat.add_comm, List.take_succ_cons]

theorem drop_one_add (c : Char) (rest : List Char) (n : Nat) : (c :: rest).drop (1 + n) = rest.drop n := by
  rw [Nat.add_comm, List.drop_succ_cons]

theorem measure_trivial (c : Char) (rest : List Char) : ∀ kind, (measure c rest).1 = some kind → kind.isTrivia = true →
    Trivial kind (c :: rest.take (measure c rest).2) := by
  fun_cases measure c rest with
  | case1 _ _ hblank =>
    rintro _ ⟨⟩ -
    exact .whitespace (List.cons_ne_nil _ _) (List.forall_mem_cons.2 ⟨hblank, fun d hd => List.mem_take_takeWhile hd⟩)
  | case2 | case3 | case8 | case9 | case11 => rintro _ ⟨⟩ ⟨⟩
  | case4 _ _ _ _ _ _ n closed =>
    rintro kind hkind htrivia
    cases closed <;> cases hkind
    cases htrivia
  | case5 line =>
    rintro _ ⟨⟩ -
    rw [take_one_add]
    exact .lineComment (fun d hd => List.mem_take_takeWhile hd)
  | case6 body n hend =>
    rintro _ ⟨⟩ -
    obtain ⟨inner, htake, hinner⟩ := commentEnd_eq_some body n hend
    rw [take_one_add, htake]
    exact .blockComment hinner
  | case7 | case10 | case12 => rintro _ ⟨⟩

theorem measure_unrecognized (c : Char) (rest : List Char) : (measure c rest).1 = none →
    Unrecognized (c :: rest.take (measure c rest).2) (rest.drop (measure c rest).2) := by
  fun_cases measure c rest with
  | case1 | case2 | case3 | case5 | case6 | case8 | case9 | case11 => rintro ⟨⟩
  | case4 _ _ _ _ _ hquote n closed hend =>
    intro h
    cases closed with
    | true => cases h
    | false => exact .string hquote (stringEnd_unclosed c rest n hend)
  | case7 body hend =>
    intro _
    rw [take_one_add, drop_one_add, List.take_length, List.drop_length]
    exact .comment (commentEnd_eq_none.1 hend)
  | case10 _ _ _ _ _ _ hpunctuation hblank hword hdigit hquote =>
    exact fun _ => .character ⟨hblank, hword, hdigit, hquote, hpunctuation⟩
  | case12 _ hpunctuation hblank hword hdigit hquote =>
    exact fun _ => .character ⟨hblank, hword, hdigit, hquote, hpunctuation⟩

theorem Strange.measure_eq (h : Strange c) (rest : List Char) : measure c rest = (none, 0) := by
  fun_cases measure c rest with
  | case1 _ _ hblank => exact absurd hblank h.not_blank
  | case2 _ _ _ hword => exact absurd hword h.not_word
  | case3 _ _ _ _ hdigit => exact absurd hdigit h.not_digit
  | case4 _ _ _ _ _ hquote => exact absurd hquote h.not_quote
  | case5 | case6 | case7 => exact absurd rfl h.not_punctuation
  | case8 _ _ _ _ _ hpair => exact absurd (isPunctuation_of_isOperatorPair hpair) h.not_punctuation
  | case9 _ _ _ _ _ _ hpunctuation => exact absurd hpunctuation h.not_punctuation
  | case10 => rfl
  | case11 _ hpunctuation => exact absurd hpunctuation h.not_punctuation
  | case12 => rfl

theorem measure_quote (hmark : mark = '"' ∨ mark = '\'') (rest : List Char) :
    measure mark rest = (if (stringEnd mark rest).2 then some .string else none, (stringEnd mark rest).1) := by
  rcases hmark with rfl | rfl <;> rfl

theorem measure_comment {body : List Char} (h : ¬['*', '/'] <:+: body) :
    measure '/' ('*' :: body) = (none, 1 + body.length) := by
  unfold measure
  rw [if_neg (by decide), if_neg (by decide), if_neg (by decide), if_neg (by decide)]
  simp only [commentEnd_eq_none.2 h]

/-- A piece that is not recognized, as far as it goes. -/
theorem next_unrecognized (h : (next c rest).kind = none) : Unrecognized (next c rest).chars (after c rest) :=
  measure_unrecognized c rest h

/-- **What is not recognized is cut off as it stands.** -/
theorem Unrecognized.next_eq (h : Unrecognized taken follow) (hs : c :: rest = taken ++ follow) :
    next c rest = ⟨none, taken⟩ := by
  cases h with
  | character hc =>
    obtain ⟨rfl, rfl⟩ := List.cons.inj hs
    rw [next, hc.measure_eq]
    rfl
  | @string _ taken _ hmark htaken =>
    rw [List.cons_append] at hs
    obtain ⟨rfl, rfl⟩ := List.cons.inj hs
    have hline : isInLine c = true := by rcases hmark with rfl | rfl <;> rfl
    rw [next, measure_quote hmark, htaken.stringEnd_eq hline]
    exact congrArg (Lexeme.mk none <| c :: ·) List.take_left
  | @comment body hbody =>
    rw [List.append_nil] at hs
    obtain ⟨rfl, rfl⟩ := List.cons.inj hs
    rw [next, measure_comment hbody]
    show Lexeme.mk none ('/' :: ('*' :: body).take (1 + body.length)) = _
    rw [take_one_add, List.take_length]

theorem next_trivial (h : (next c rest).isTrivia = true) :
    ∃ kind, (next c rest).kind = some kind ∧ Trivial kind (next c rest).chars := by
  unfold isTrivia at h
  split at h
  · rename_i kind hkind
    exact ⟨kind, hkind, measure_trivial c rest kind hkind h⟩
  · cases h

end Lexeme
end LayeredParse
