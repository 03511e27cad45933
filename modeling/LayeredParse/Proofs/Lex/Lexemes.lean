import LayeredParse.Lexeme
import LayeredParse.Proofs.Lists
import LayeredParse.Proofs.Text.Lines
/-!
# Lexemes — where the pieces of a source text begin and end

The lexemes of a text put together give it back (`flatMap_chars`).  No token begins with a line feed, and a token ends
between a carriage return and a line feed only if it is a string that is not closed and ends in an escaped carriage
return (`next_splitsBreak`).
-/
namespace LayeredParse
namespace Lexeme

variable {c : Char} {rest : List Char}

theorem ofChars_nil : ofChars [] = [] := by
  rw [ofChars]

theorem ofChars_cons (c : Char) (rest : List Char) : ofChars (c :: rest) = next c rest :: ofChars (after c rest) := by
  rw [ofChars]

theorem next_chars (c : Char) (rest : List Char) : (next c rest).chars = c :: rest.take (measure c rest).2 := rfl

theorem chars_append_after (c : Char) (rest : List Char) : (next c rest).chars ++ after c rest = c :: rest := by
  rw [next_chars, after, List.cons_append, List.take_append_drop]

/-- **The lexemes put together give the text back.** -/
theorem flatMap_chars (s : List Char) : (ofChars s).flatMap chars = s := by
  induction s using ofChars.induct with
  | case1 => rw [ofChars_nil, List.flatMap_nil]
  | case2 c rest ih => rw [ofChars_cons, List.flatMap_cons, ih, chars_append_after]

theorem isTrivia_next_of_isBlank (h : isBlank c = true) : (next c rest).isTrivia = true := by
  unfold next measure
  rw [if_pos h]
  rfl

theorem ne_newline_of_token (h : (next c rest).isTrivia = false) : c ≠ '\n' := by
  rintro rfl
  rw [isTrivia_next_of_isBlank rfl] at h
  cases h

/-! ## What lexemes end in -/

theorem mem_take_fraction {x : Char} {s : List Char} (h : x ∈ s.take (fractionLength s)) :
    x.isDigit = true ∨ x = '.' := by
  unfold fractionLength at h
  split at h
  · rename_i line
    split at h
    · cases h
    · rename_i n hn
      rw [List.take_succ_cons, ← Nat.succ_eq_add_one, ← hn] at h
      rcases List.mem_cons.1 h with rfl | h
      · exact .inr rfl
      · exact .inl (List.mem_take_takeWhile h)
  · cases h

theorem mem_take_number {x : Char} (h : x ∈ rest.take ((rest.takeWhile Char.isDigit).length +
      fractionLength (rest.drop (rest.takeWhile Char.isDigit).length))) : x.isDigit = true ∨ x = '.' := by
  rw [List.take_add] at h
  rcases List.mem_append.1 h with h | h
  · exact .inl (List.mem_take_takeWhile h)
  · exact mem_take_fraction h

theorem getLast?_cons_eq_some {x last : Char} : ∀ {s : List Char}, (x :: s).getLast? = some last →
    s = [] ∧ x = last ∨ s.getLast? = some last
  | [], h => .inl ⟨rfl, Option.some.inj h⟩
  | y :: s, h => by
    rw [List.getLast?_cons_cons] at h
    exact .inr h

/-- A string that is closed ends in its mark. -/
theorem stringEnd_closed (mark : Char) (s : List Char) : ∀ n, stringEnd mark s = (n, true) →
    (s.take n).getLast? = some mark := by
  fun_induction stringEnd mark s with
  | case1 | case2 | case4 | case7 => exact fun _ h => nomatch h
  | case3 c rest hc m closed hm ih =>
    rintro n h
    cases h
    have hl := ih m hm
    rw [List.take_succ_cons, List.take_succ_cons, List.getLast?_cons, List.getLast?_cons, hl]
    rfl
  | case5 rest =>
    rintro n h
    cases h
    rfl
  | case6 c rest h₁ h₂ hmark hline m closed hm ih =>
    rintro n h
    cases h
    rw [List.take_succ_cons, List.getLast?_cons, ih m hm]
    rfl

/-- A string that ends in a carriage return ends in an escape. -/
theorem stringEnd_return {mark : Char} (hmark : mark ≠ '\r') (s : List Char) : ∀ n closed,
    stringEnd mark s = (n, closed) → (s.take n).getLast? = some '\r' → ∃ body, s.take n = body ++ ['\\', '\r'] := by
  fun_induction stringEnd mark s with
  | case1 | case7 =>
    rintro n closed h hl
    cases h
    cases hl
  | case2 rest =>
    rintro n closed h hl
    cases h
    exact nomatch hl
  | case4 =>
    rintro n closed h hl
    cases h
    exact nomatch hl
  | case3 c rest hc m closed hm ih =>
    rintro n closed' h hl
    cases h
    rw [List.take_succ_cons, List.take_succ_cons, List.getLast?_cons_cons] at hl
    rw [List.take_succ_cons, List.take_succ_cons]
    rcases getLast?_cons_eq_some hl with ⟨hnil, rfl⟩ | hl
    · rw [hnil]
      exact ⟨[], rfl⟩
    · obtain ⟨body, hbody⟩ := ih m closed hm hl
      rw [hbody]
      exact ⟨'\\' :: c :: body, rfl⟩
  | case5 rest =>
    rintro n closed h hl
    cases h
    exact absurd (Option.some.inj hl) hmark
  | case6 c rest h₁ h₂ hne hline m closed hm ih =>
    rintro n closed' h hl
    cases h
    rw [List.take_succ_cons] at hl ⊢
    rcases getLast?_cons_eq_some hl with ⟨-, rfl⟩ | hl
    · cases hline
    · obtain ⟨body, hbody⟩ := ih m closed hm hl
      rw [hbody]
      exact ⟨c :: body, rfl⟩

/-- What is measured as a token ends in a carriage return that is not its first character only if it is a string that is
not closed, or a comment that is not. -/
theorem measure_return (c : Char) (rest : List Char) : (rest.take (measure c rest).2).getLast? = some '\r' →
    (∃ kind, (measure c rest).1 = some kind ∧ kind.isTrivia = true) ∨ rest.drop (measure c rest).2 = [] ∨
      (measure c rest).1 = none ∧ (c = '"' ∨ c = '\'') ∧ ∃ body, rest.take (measure c rest).2 = body ++ ['\\', '\r'] := by
  fun_cases measure c rest with
  | case1 => exact fun _ => .inl ⟨_, rfl, rfl⟩
  | case2 =>
    intro h
    exact absurd (List.mem_take_takeWhile (List.mem_of_getLast? h)) (by decide)
  | case3 =>
    intro h
    exact absurd (mem_take_number (List.mem_of_getLast? h)) (by decide)
  | case4 _ _ _ _ _ hquote n closed hend =>
    intro h
    have hmark : c ≠ '\r' := by rcases hquote with rfl | rfl <;> decide
    cases closed with
    | true => exact absurd (Option.some.inj ((stringEnd_closed c rest n hend).symm.trans h)) hmark
    | false => exact .inr (.inr ⟨rfl, hquote, stringEnd_return hmark rest n false hend h⟩)
  | case5 => exact fun _ => .inl ⟨_, rfl, rfl⟩
  | case6 => exact fun _ => .inl ⟨_, rfl, rfl⟩
  | case7 body =>
    intro _
    refine .inr (.inl (List.drop_eq_nil_of_le ?_))
    rw [List.length_cons, Nat.add_comm]
  | case8 _ second tail _ _ hpair =>
    intro h
    obtain rfl : second = '\r' := Option.some.inj h
    simp [isOperatorPair] at hpair
  | case9 | case10 | case11 | case12 => exact fun h => nomatch h

/-- **A token that ends between a carriage return and a line feed is a string that is not closed**, and the carriage
return is escaped. -/
theorem next_splitsBreak (htoken : (next c rest).isTrivia = false)
    (h : splitsBreak (next c rest).chars (after c rest) = true) :
    (next c rest).kind = none ∧ (c = '"' ∨ c = '\'') ∧ ∃ body, (next c rest).chars = c :: body ++ ['\\', '\r'] := by
  unfold splitsBreak at h
  rw [Bool.and_eq_true, beq_iff_eq, beq_iff_eq, next_chars, after] at h
  obtain ⟨hcr, hlf⟩ := h
  have hc : c ≠ '\r' := by
    rintro rfl
    rw [isTrivia_next_of_isBlank rfl] at htoken
    cases htoken
  rcases getLast?_cons_eq_some hcr with ⟨-, rfl⟩ | hcr
  · exact absurd rfl hc
  · rcases measure_return c rest hcr with ⟨kind, hkind, htrivia⟩ | hnil | ⟨hkind, hquote, body, hbody⟩
    · have : (next c rest).isTrivia = true := by
        unfold isTrivia next
        simp only [hkind]
        exact htrivia
      rw [this] at htoken
      cases htoken
    · rw [hnil] at hlf
      cases hlf
    · refine ⟨hkind, hquote, body, ?_⟩
      rw [next_chars, hbody, List.cons_append]

end Lexeme
end LayeredParse
