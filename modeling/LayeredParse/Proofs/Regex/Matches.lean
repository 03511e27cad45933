import LayeredParse.Regex.Basic
import Mathlib.Logic.Function.Iterate
/-!
# Matches — what a regular expression matches

An expression matches a text from one position to another (`Regex.Matches`): the relation says for each kind of
expression what a match is, and knows of no sets of positions.  A map on sets of positions moves along a relation if it
takes a set to all that the relation leads to from there (`Regex.Moves`).  The ways in which expressions are put
together keep this, so `reach` moves along the matches (`moves_reach`); a repetition without end needs no more rounds
than the text has positions because a match never goes back.  So an expression accepts the texts in which it has a match
(`accepts_iff`).
-/
namespace LayeredParse
namespace Regex

/-- Whether `n` steps along a relation lead from one position to another. -/
def Repeats (R : Nat → Nat → Prop) : (n : Nat) → Nat → Nat → Prop
  | 0, i, j => i = j
  | n + 1, i, j => ∃ k, R i k ∧ Repeats R n k j

/-- The character before a position; `previous` stands before the first. -/
def charBefore (previous : Option Char) (text : List Char) : Nat → Option Char
  | 0 => previous
  | i + 1 => text[i]?

mutual

/-- Whether a match of the expression can begin at one position of the text and end at another.  Where a repetition has
bounds that cross, the least number counts. -/
def Matches (text : List Char) : Regex → Nat → Nat → Prop
  | empty, i, j => i = j
  | oneOf members, i, j => (∃ c, text[i]? = some c ∧ members.mem c = true) ∧ j = i + 1
  | look condition wordChars, i, j =>
    (i ≤ text.length ∧ condition.holds wordChars.mem (charBefore none text i) text[i]? = true) ∧ i = j
  | group body, i, j => Matches text body i j
  | concat parts, i, j => MatchesAll text parts i j
  | alternation branches, i, j => MatchesAny text branches i j
  | times body least most, i, j =>
    ∃ n, least ≤ n ∧ (∀ m ∈ most, n ≤ max least m) ∧ Repeats (Matches text body) n i j

def MatchesAll (text : List Char) : List Regex → Nat → Nat → Prop
  | [], i, j => i = j
  | r :: rest, i, j => ∃ k, Matches text r i k ∧ MatchesAll text rest k j

def MatchesAny (text : List Char) : List Regex → Nat → Nat → Prop
  | [], _, _ => False
  | r :: rest, i, j => Matches text r i j ∨ MatchesAny text rest i j

end

section Repeats

variable {R : Nat → Nat → Prop}

theorem repeats_add : ∀ {m n i j : Nat}, Repeats R (m + n) i j ↔ ∃ k, Repeats R m i k ∧ Repeats R n k j
  | 0, n, i, j => by simp [Repeats]
  | m + 1, n, i, j => by
    rw [Nat.succ_add]
    simp only [Repeats, repeats_add (m := m)]
    constructor
    · rintro ⟨l, hl, k, hk, hj⟩
      exact ⟨k, ⟨l, hl, hk⟩, hj⟩
    · rintro ⟨k, ⟨l, hl, hk⟩, hj⟩
      exact ⟨l, hl, k, hk, hj⟩

/-- Steps that may also stay where they are lead where fewer steps do. -/
theorem repeats_or_eq : ∀ {n i j : Nat}, Repeats (fun i j => i = j ∨ R i j) n i j ↔ ∃ m ≤ n, Repeats R m i j
  | 0, i, j => by simp [Repeats]
  | n + 1, i, j => by
    simp only [Repeats, repeats_or_eq (n := n)]
    constructor
    · rintro ⟨k, rfl | hk, m, hm, hj⟩
      · exact ⟨m, Nat.le_succ_of_le hm, hj⟩
      · exact ⟨m + 1, Nat.succ_le_succ hm, k, hk, hj⟩
    · rintro ⟨m, hm, hj⟩
      cases m with
      | zero => exact ⟨i, .inl rfl, 0, Nat.zero_le n, hj⟩
      | succ m =>
        obtain ⟨k, hk, hj⟩ := hj
        exact ⟨k, .inr hk, m, Nat.le_of_succ_le_succ hm, hj⟩

end Repeats

theorem exactly_eq_iterate (f : Positions → Positions) : ∀ n s, exactly f n s = f^[n] s
  | 0, _ => rfl
  | n + 1, s => by
    rw [exactly]
    split
    · rename_i h
      exact (Function.iterate_fixed h (n + 1)).symm
    · exact exactly_eq_iterate f n (f s)

theorem upTo_eq_exactly (f : Positions → Positions) : ∀ n s, upTo f n s = exactly (fun s => s ||| f s) n s
  | 0, _ => rfl
  | n + 1, s => by rw [upTo, exactly, upTo_eq_exactly f n]

/-- The map takes a set of positions up to `last` to the positions that the relation leads to, and the relation leads
neither back nor past `last`. -/
structure Moves (last : Nat) (f : Positions → Positions) (R : Nat → Nat → Prop) : Prop where
  inside : ∀ {i j}, i ≤ last → R i j → i ≤ j ∧ j ≤ last
  testBit : ∀ {s : Positions}, (∀ i, s.testBit i = true → i ≤ last) →
    ∀ j, (f s).testBit j = true ↔ ∃ i, s.testBit i = true ∧ R i j

namespace Moves

variable {last : Nat} {f g : Positions → Positions} {R S : Nat → Nat → Prop}

theorem congr (h : Moves last f R) (hR : ∀ i ≤ last, ∀ j, R i j ↔ S i j) : Moves last f S where
  inside hi hij := h.inside hi ((hR _ hi _).2 hij)
  testBit hs j := (h.testBit hs j).trans
    (exists_congr fun i => and_congr_right fun hi => hR i (hs i hi) j)

theorem stay : Moves last (fun s => s) Eq where
  inside hi hij := hij ▸ ⟨Nat.le_refl _, hi⟩
  testBit _ j := by simp

theorem nowhere : Moves last (fun _ => 0) (fun _ _ => False) where
  inside _ := False.elim
  testBit _ j := by simp

/-- From the positions of a set on by `n`, which does not lead past `last`. -/
theorem shift {p : Positions} (n : Nat) (hp : ∀ i, p.testBit i = true → i + n ≤ last) :
    Moves last (fun s => (s &&& p) <<< n) (fun i j => p.testBit i = true ∧ j = i + n) where
  inside _ h := h.2 ▸ ⟨Nat.le_add_right _ _, hp _ h.1⟩
  testBit {s} _ j := by
    simp only [Nat.testBit_shiftLeft, Nat.testBit_and, Bool.and_eq_true, decide_eq_true_eq]
    constructor
    · rintro ⟨hj, hs, hpj⟩
      exact ⟨j - n, hs, hpj, by omega⟩
    · rintro ⟨i, hi, hpi, rfl⟩
      simp [hi, hpi]

theorem andThen (hf : Moves last f R) (hg : Moves last g S) :
    Moves last (fun s => g (f s)) (fun i j => ∃ k, R i k ∧ S k j) where
  inside := fun hi ⟨_, hk, hj⟩ =>
    ⟨Nat.le_trans (hf.inside hi hk).1 (hg.inside (hf.inside hi hk).2 hj).1, (hg.inside (hf.inside hi hk).2 hj).2⟩
  testBit {s} hs j := by
    have hfs : ∀ k, (f s).testBit k = true → k ≤ last := by
      intro k hk
      obtain ⟨i, hi, hik⟩ := (hf.testBit hs k).1 hk
      exact (hf.inside (hs i hi) hik).2
    rw [hg.testBit hfs]
    simp only [hf.testBit hs]
    constructor
    · rintro ⟨k, ⟨i, hi, hik⟩, hj⟩
      exact ⟨i, hi, k, hik, hj⟩
    · rintro ⟨i, hi, k, hik, hj⟩
      exact ⟨k, ⟨i, hi, hik⟩, hj⟩

theorem either (hf : Moves last f R) (hg : Moves last g S) :
    Moves last (fun s => f s ||| g s) (fun i j => R i j ∨ S i j) where
  inside hi h := h.elim (hf.inside hi) (hg.inside hi)
  testBit hs j := by
    simp only [Nat.testBit_or, Bool.or_eq_true, hf.testBit hs, hg.testBit hs, ← exists_or, and_or_left]

theorem iterate (h : Moves last f R) : ∀ n, Moves last f^[n] (Repeats R n)
  | 0 => stay
  | n + 1 => h.andThen (h.iterate n)

/-- Steps that stay can be left out, as no step goes back. -/
theorem short (h : Moves last f R) :
    ∀ {n i j : Nat}, i ≤ last → Repeats R n i j → ∃ m ≤ j - i, Repeats R m i j
  | 0, _, _, _, hn => ⟨0, Nat.zero_le _, hn⟩
  | n + 1, i, j, hi, ⟨k, hk, hj⟩ => by
    obtain ⟨hik, hklast⟩ := h.inside hi hk
    obtain ⟨m, hm, hm'⟩ := h.short hklast hj
    have hkj : k ≤ j := ((h.iterate n).inside hklast hj).1
    rcases Nat.eq_or_lt_of_le hik with rfl | hlt
    · exact ⟨m, hm, hm'⟩
    · exact ⟨m + 1, by omega, k, hk, hm'⟩

theorem exactly (h : Moves last f R) (n : Nat) : Moves last (exactly f n) (Repeats R n) := by
  rw [funext (exactly_eq_iterate f n)]
  exact h.iterate n

theorem upTo (h : Moves last f R) (n : Nat) : Moves last (upTo f n) (fun i j => ∃ m ≤ n, Repeats R m i j) := by
  rw [funext (upTo_eq_exactly f n)]
  exact ((stay.either h).exactly n).congr fun _ _ _ => repeats_or_eq

/-- As many rounds as there are positions lead everywhere. -/
theorem upTo_closed (h : Moves last f R) : Moves last (Regex.upTo f (last + 1)) (fun i j => ∃ m, Repeats R m i j) := by
  refine (h.upTo (last + 1)).congr fun i hi j => ⟨fun ⟨m, _, hm⟩ => ⟨m, hm⟩, fun ⟨m, hm⟩ => ?_⟩
  have hj : j ≤ last := ((h.iterate m).inside hi hm).2
  obtain ⟨m', hle, hm'⟩ := h.short hi hm
  exact ⟨m', by omega, hm'⟩

end Moves

theorem testBit_one_succ (b : Bool) (i : Nat) : (if b = true then 1 else 0 : Nat).testBit (i + 1) = false := by
  cases b <;> simp [Nat.testBit_succ]

theorem testBit_before (p : Char → Bool) :
    ∀ (text : List Char) (i : Nat), (before p text).testBit i = true ↔ ∃ c, text[i]? = some c ∧ p c = true
  | [], i => by simp [before]
  | c :: rest, 0 => by cases hp : p c <;> simp [before, hp]
  | c :: rest, i + 1 => by
    simp [before, Nat.testBit_shiftLeft, testBit_one_succ, testBit_before p rest i]

theorem testBit_between (p : Option Char → Option Char → Bool) :
    ∀ (text : List Char) (previous : Option Char) (i : Nat), (between p previous text).testBit i = true ↔
      i ≤ text.length ∧ p (charBefore previous text i) text[i]? = true
  | [], previous, 0 => by cases hp : p previous none <;> simp [between, charBefore, hp]
  | [], previous, i + 1 => by
    simp [between, testBit_one_succ]
  | c :: rest, previous, 0 => by cases hp : p previous (some c) <;> simp [between, charBefore, hp]
  | c :: rest, previous, i + 1 => by
    have hbefore : charBefore previous (c :: rest) (i + 1) = charBefore (some c) rest i := by
      cases i <;> simp [charBefore]
    simp [between, Nat.testBit_shiftLeft, testBit_one_succ, hbefore, testBit_between p rest (some c) i]

theorem moves_oneOf (text : List Char) (members : CharClass) :
    Moves text.length (reach text (.oneOf members)) (Matches text (.oneOf members)) := by
  have hp : ∀ i, (before members.mem text).testBit i = true → i + 1 ≤ text.length := by
    intro i hi
    obtain ⟨c, hc, _⟩ := (testBit_before _ _ _).1 hi
    obtain ⟨hlt, _⟩ := List.getElem?_eq_some_iff.1 hc
    exact hlt
  exact (Moves.shift 1 hp).congr fun i _ j => and_congr_left' (testBit_before _ _ _)

theorem moves_look (text : List Char) (condition : Look) (wordChars : CharClass) :
    Moves text.length (reach text (.look condition wordChars)) (Matches text (.look condition wordChars)) := by
  have hp : ∀ i, (between (condition.holds wordChars.mem) none text).testBit i = true → i + 0 ≤ text.length :=
    fun i hi => ((testBit_between _ _ _ _).1 hi).1
  exact (Moves.shift 0 hp).congr fun i _ j => and_congr (testBit_between _ _ _ _) eq_comm

/-- A repetition with its bounds. -/
theorem moves_times {text : List Char} {body : Regex} (h : Moves text.length (reach text body) (Matches text body))
    (least : Nat) (most : Option Nat) :
    Moves text.length (reach text (.times body least most)) (Matches text (.times body least most)) := by
  cases most with
  | none =>
    refine ((h.exactly least).andThen h.upTo_closed).congr fun i _ j => ?_
    constructor
    · rintro ⟨k, hk, m, hm⟩
      exact ⟨least + m, Nat.le_add_right _ _, by simp, repeats_add.2 ⟨k, hk, hm⟩⟩
    · rintro ⟨n, hn, _, hrepeats⟩
      obtain ⟨m, rfl⟩ := Nat.exists_eq_add_of_le hn
      obtain ⟨k, hk, hm⟩ := repeats_add.1 hrepeats
      exact ⟨k, hk, m, hm⟩
  | some most =>
    refine ((h.exactly least).andThen (h.upTo (most - least))).congr fun i _ j => ?_
    constructor
    · rintro ⟨k, hk, m, hm, hj⟩
      refine ⟨least + m, Nat.le_add_right _ _, fun n hn => ?_, repeats_add.2 ⟨k, hk, hj⟩⟩
      cases hn
      omega
    · rintro ⟨n, hn, hmost, hrepeats⟩
      have hn' : n ≤ max least most := hmost most rfl
      obtain ⟨m, rfl⟩ := Nat.exists_eq_add_of_le hn
      obtain ⟨k, hk, hm⟩ := repeats_add.1 hrepeats
      exact ⟨k, hk, m, by omega, hm⟩

mutual

/-- **The positions that an expression reaches are those where its matches end.** -/
theorem moves_reach (text : List Char) : ∀ r : Regex, Moves text.length (reach text r) (Matches text r)
  | empty => Moves.stay
  | oneOf members => moves_oneOf text members
  | look condition wordChars => moves_look text condition wordChars
  | group body => moves_reach text body
  | concat parts => moves_reachAll text parts
  | alternation branches => moves_reachAny text branches
  | times body least most => moves_times (moves_reach text body) least most

theorem moves_reachAll (text : List Char) : ∀ parts : List Regex,
    Moves text.length (reachAll text parts) (MatchesAll text parts)
  | [] => Moves.stay
  | r :: rest => (moves_reach text r).andThen (moves_reachAll text rest)

theorem moves_reachAny (text : List Char) : ∀ branches : List Regex,
    Moves text.length (reachAny text branches) (MatchesAny text branches)
  | [] => Moves.nowhere
  | r :: rest => (moves_reach text r).either (moves_reachAny text rest)

end

/-- An expression accepts the texts in which it has a match. -/
theorem accepts_iff {r : Regex} {text : List Char} :
    r.accepts text = true ↔ ∃ i ≤ text.length, ∃ j, r.Matches text i j := by
  have hall : ∀ i, ((1 <<< (text.length + 1)) - 1 : Nat).testBit i = true ↔ i ≤ text.length := by
    intro i
    rw [Nat.one_shiftLeft, Nat.testBit_two_pow_sub_one, decide_eq_true_eq, Nat.lt_succ_iff]
  have hbit := (moves_reach text r).testBit fun i => (hall i).1
  rw [accepts, bne_iff_ne]
  constructor
  · intro hne
    obtain ⟨j, hj⟩ := Nat.exists_testBit_of_ne_zero hne
    obtain ⟨i, hi, hij⟩ := (hbit j).1 hj
    exact ⟨i, (hall i).1 hi, j, hij⟩
  · rintro ⟨i, hi, j, hij⟩ hzero
    have hj := (hbit j).2 ⟨i, (hall i).2 hi, hij⟩
    rw [hzero, Nat.zero_testBit] at hj
    cases hj

theorem matches_textStart {text : List Char} {w : CharClass} {i j : Nat} :
    (look .textStart w).Matches text i j ↔ i = 0 ∧ j = 0 := by
  cases i with
  | zero => simp [Matches, Look.holds, charBefore, eq_comm]
  | succ i =>
    refine iff_of_false (fun ⟨⟨hi, hlook⟩, _⟩ => ?_) (fun h => nomatch h.1)
    rw [Look.holds, Option.isNone_iff_eq_none, charBefore, List.getElem?_eq_none_iff] at hlook
    omega

theorem matches_textEnd {text : List Char} {w : CharClass} {i j : Nat} :
    (look .textEnd w).Matches text i j ↔ i = text.length ∧ j = text.length := by
  simp only [Matches, Look.holds, Option.isNone_iff_eq_none, List.getElem?_eq_none_iff]
  omega

theorem matches_caret {text : List Char} {r : Regex} {w : CharClass} {i j : Nat} :
    (concat [look .textStart w, r]).Matches text i j ↔ i = 0 ∧ r.Matches text i j := by
  constructor
  · rintro ⟨_, hstart, _, hr, rfl⟩
    obtain ⟨rfl, rfl⟩ := matches_textStart.1 hstart
    exact ⟨rfl, hr⟩
  · rintro ⟨rfl, hr⟩
    exact ⟨0, matches_textStart.2 ⟨rfl, rfl⟩, j, hr, rfl⟩

theorem matches_dollar {text : List Char} {r r' : Regex} {w : CharClass} {i j : Nat} :
    (concat [r, r', look .textEnd w]).Matches text i j ↔ (concat [r, r']).Matches text i j ∧ j = text.length := by
  constructor
  · rintro ⟨k, hr, l, hr', _, hend, rfl⟩
    obtain ⟨rfl, rfl⟩ := matches_textEnd.1 hend
    exact ⟨⟨k, hr, _, hr', rfl⟩, rfl⟩
  · rintro ⟨⟨k, hr, _, hr', rfl⟩, rfl⟩
    exact ⟨k, hr, _, hr', _, matches_textEnd.2 ⟨rfl, rfl⟩, rfl⟩

end Regex
end LayeredParse
