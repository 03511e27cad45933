import LayeredParse.Text.Quoted
import Mathlib.Data.List.Basic
/-!
# Quoting — a quoted text tells the text

No escape is the beginning of another (`Quoted.escape_append`), so that what is between the quotes is read in one way
only, and different texts are quoted differently (`quote_injective`).  No escape has a line break in it either, so that a
quoted text is on one line (`lineBreak_not_mem_quote`).
-/
namespace LayeredParse

/-! ## Hexadecimal digits -/

theorem Nat.digitChar_of_lt : ∀ n < 16, n.digitChar ≠ '\x7d' ∧ ∀ m < 16, m.digitChar = n.digitChar → m = n := by
  decide

theorem mem_toDigits {b : Nat} (hb : 1 < b) {c : Char} {n : Nat} (h : c ∈ Nat.toDigits b n) :
    ∃ m < b, c = m.digitChar := by
  induction n using Nat.strongRecOn with
  | ind n ih =>
    by_cases hlt : n < b
    · rw [Nat.toDigits_of_lt_base hlt, List.mem_singleton] at h
      exact ⟨n, hlt, h⟩
    · rw [Nat.toDigits_of_base_le hb (Nat.le_of_not_lt hlt), List.mem_append, List.mem_singleton] at h
      rcases h with h | h
      · exact ih _ (Nat.div_lt_self (by omega) hb) h
      · exact ⟨n % b, Nat.mod_lt _ (by omega), h⟩

theorem not_mem_toDigits (n : Nat) : '\x7d' ∉ Nat.toDigits 16 n := by
  intro h
  obtain ⟨m, hm, heq⟩ := mem_toDigits (by decide) h
  exact (Nat.digitChar_of_lt m hm).1 heq.symm

theorem toDigits_injective {m n : Nat} (h : Nat.toDigits 16 m = Nat.toDigits 16 n) : m = n := by
  induction m using Nat.strongRecOn generalizing n with
  | ind m ih =>
    have short : ∀ {k l : Nat} {c : Char}, [c] ≠ Nat.toDigits 16 k ++ [l.digitChar] := by
      intro k l c heq
      have hnil : [] = Nat.toDigits 16 k := (List.append_inj' (show [] ++ [c] = _ from heq) rfl).1
      exact Nat.toDigits_ne_nil hnil.symm
    by_cases hm : m < 16
    · by_cases hn : n < 16
      · rw [Nat.toDigits_of_lt_base hm, Nat.toDigits_of_lt_base hn] at h
        exact (Nat.digitChar_of_lt n hn).2 m hm (List.cons.inj h).1
      · rw [Nat.toDigits_of_lt_base hm, Nat.toDigits_of_base_le (by decide) (Nat.le_of_not_lt hn)] at h
        exact absurd h short
    · rw [Nat.toDigits_of_base_le (by decide) (Nat.le_of_not_lt hm)] at h
      by_cases hn : n < 16
      · rw [Nat.toDigits_of_lt_base hn] at h
        exact absurd h.symm short
      · rw [Nat.toDigits_of_base_le (by decide) (Nat.le_of_not_lt hn)] at h
        obtain ⟨hhigh, hlow⟩ := List.append_inj' h rfl
        have hdiv := ih (m / 16) (by omega) hhigh
        have hmod := (Nat.digitChar_of_lt (n % 16) (by omega)).2 (m % 16) (by omega) (List.cons.inj hlow).1
        omega

/-! ## Escapes -/

namespace Quoted

/-- The characters that have an escape of their own, and what it is called. -/
def named : List (Char × Char) :=
  [('\x00', '0'), ('\t', 't'), ('\r', 'r'), ('\n', 'n'), ('"', '"'), ('\\', '\\')]

/-- How a character may be written. -/
inductive Written (c : Char) : List Char → Prop
  | plain (h : c ≠ '\\') : Written c [c]
  | named {d : Char} (h : (c, d) ∈ named) : Written c ['\\', d]
  | point : Written c (byCodePoint c)

theorem escape_written (c : Char) : Written c (escape c) := by
  unfold escape
  repeat' split
  all_goals first
    | exact .point
    | (subst_vars; exact .named (by decide))
    | exact .plain ‹_›

theorem named_unique : ∀ p ∈ named, p.2 ≠ 'u' ∧ ∀ q ∈ named, q.2 = p.2 → q.1 = p.1 := by
  decide

/-- Two characters written at the beginning of one text are the same, and written alike. -/
theorem Written.unique {c d : Char} {w v s t : List Char} (hw : Written c w) (hv : Written d v) (h : w ++ s = v ++ t) :
    c = d := by
  cases hw with
  | plain hc =>
    cases hv with
    | plain => exact (List.cons.inj h).1
    | named | point => exact absurd (List.cons.inj h).1 hc
  | named hc =>
    cases hv with
    | plain hd => exact absurd (List.cons.inj h).1.symm hd
    | named hd => exact (named_unique _ hd).2 _ hc (List.cons.inj (List.cons.inj h).2).1
    | point => exact absurd (List.cons.inj (List.cons.inj h).2).1 (named_unique _ hc).1
  | point =>
    cases hv with
    | plain hd => exact absurd (List.cons.inj h).1.symm hd
    | named hd => exact absurd (List.cons.inj (List.cons.inj h).2).1.symm (named_unique _ hd).1
    | point =>
      -- the digits go up to the closing brace
      have hdigits : ∀ (e : Char) (rest : List Char),
          ((byCodePoint e ++ rest).drop 3).takeWhile (· ≠ '\x7d') = Nat.toDigits 16 e.toNat := by
        intro e rest
        rw [byCodePoint, List.append_assoc, List.append_assoc]
        show (Nat.toDigits 16 e.toNat ++ '\x7d' :: rest).takeWhile (· ≠ '\x7d') = _
        rw [List.takeWhile_append_of_pos]
        · simp
        · intro c hc
          exact decide_eq_true fun heq => not_mem_toDigits _ (heq ▸ hc)
      have heq := (hdigits c s).symm.trans ((congrArg _ (congrArg _ h)).trans (hdigits d t))
      exact Char.toNat_inj.1 (toDigits_injective heq)

/-- **No escape is the beginning of another.** -/
theorem escape_append {c d : Char} {s t : List Char} (h : escape c ++ s = escape d ++ t) : c = d ∧ s = t := by
  obtain rfl := (escape_written c).unique (escape_written d) h
  exact ⟨rfl, List.append_cancel_left h⟩

theorem escape_ne_nil (c : Char) : escape c ≠ [] := by
  have h := escape_written c
  intro heq
  rw [heq] at h
  cases h

theorem body_injective : ∀ {s t : List Char}, body s = body t → s = t
  | [], [], _ => rfl
  | [], d :: t, h => absurd (List.append_eq_nil_iff.1 h.symm).1 (escape_ne_nil d)
  | c :: s, [], h => absurd (List.append_eq_nil_iff.1 h).1 (escape_ne_nil c)
  | c :: s, d :: t, h => by
    obtain ⟨rfl, hrest⟩ := escape_append (show escape c ++ body s = escape d ++ body t from h)
    rw [body_injective hrest]

end Quoted

/-- **Different texts are quoted differently.** -/
theorem quote_injective {v w : String} (h : quote v = quote w) : v = w := by
  have hchars : '"' :: Quoted.body v.toList ++ ['"'] = '"' :: Quoted.body w.toList ++ ['"'] := String.ofList_inj.1 h
  exact String.toList_inj.1 (Quoted.body_injective (List.cons.inj (List.append_cancel_right hchars)).2)

/-! ## Line breaks -/

section LineBreak

variable {x : Char} (hx : x = '\n' ∨ x = '\r')

include hx

theorem lineBreak_not_mem_toDigits {b : Nat} (hb : 1 < b) (hle : b ≤ 16) (n : Nat) : x ∉ Nat.toDigits b n := by
  have digits : ∀ m < 16, m.digitChar ≠ '\n' ∧ m.digitChar ≠ '\r' := by decide
  intro h
  obtain ⟨m, hm, rfl⟩ := mem_toDigits hb h
  have hdigit := digits m (Nat.lt_of_lt_of_le hm hle)
  exact hx.elim hdigit.1 hdigit.2

/-- **No escape has a line break in it.** -/
theorem Quoted.lineBreak_not_mem_escape (c : Char) : x ∉ escape c := by
  have names : ∀ p ∈ named, p.2 ≠ '\n' ∧ p.2 ≠ '\r' := by decide
  by_cases hc : c = '\n' ∨ c = '\r'
  · rcases hc with rfl | rfl <;> rcases hx with rfl | rfl <;> decide
  · have hwritten := escape_written c
    generalize escape c = w at hwritten ⊢
    have hslash : x ≠ '\\' := by rcases hx with rfl | rfl <;> decide
    cases hwritten with
    | plain =>
      rintro h
      exact hc (List.mem_singleton.1 h ▸ hx)
    | named h =>
      have hname := names _ h
      intro hmem
      rcases List.mem_pair.1 hmem with rfl | rfl
      · exact hslash rfl
      · exact hx.elim hname.1 hname.2
    | point =>
      have hdigits := lineBreak_not_mem_toDigits hx (by decide) (Nat.le_refl 16) c.toNat
      rw [byCodePoint, List.mem_append, List.mem_append]
      rintro ((h | h) | h)
      · rcases hx with rfl | rfl <;> exact absurd h (by decide)
      · exact hdigits h
      · rcases hx with rfl | rfl <;> exact absurd h (by decide)

/-- **A quoted text is on one line**, whatever the text. -/
theorem lineBreak_not_mem_quote (v : String) : x ∉ (quote v).toList := by
  rw [quote, String.toList_ofList, List.cons_append, List.mem_cons, List.mem_append, Quoted.body, List.mem_flatMap]
  rintro (rfl | ⟨c, -, h⟩ | h)
  · exact absurd hx (by decide)
  · exact Quoted.lineBreak_not_mem_escape hx c h
  · obtain rfl := List.mem_singleton.1 h
    exact absurd hx (by decide)

end LineBreak

theorem quote_head? (v : String) : (quote v).toList.head? = some '"' := by
  rw [quote, String.toList_ofList]
  rfl

theorem ne_quote {text : String} (h : text.toList.head? ≠ some '"') (v : String) : text ≠ quote v := by
  rintro rfl
  exact h (quote_head? v)

end LayeredParse
