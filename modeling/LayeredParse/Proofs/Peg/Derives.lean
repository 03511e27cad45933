import LayeredParse.Proofs.Grammar.Closed
/-!
# Derives — parsing expression grammars

`Derives` is the big-step relation of parsing expression grammars: what an expression does at an index of the tokens,
without state, journal or limit.  What begins with itself derives nothing (`Derives.not_endless`).
-/
namespace LayeredParse

/-- Whether the form is made by an operator of parsing expression grammars. -/
def Form.isPegOperator {ρ : Type} : Form ρ → Bool
  | .longestOne _ | .strictOr _ | .adjacent _ | .till _ => false
  | _ => true

/-- Whether all rules keep to the operators of parsing expression grammars. -/
def Grammar.IsPeg (g : Grammar) : Prop :=
  ∀ key rule, g.rule? key = some rule → ∀ f ∈ rule.matcher.subforms, f.isPegOperator = true

/-- What a matcher accepts that takes a single token. -/
def Matcher.accepts? : Matcher → Option (Token → Bool)
  | .literal value => some fun token => token.value == value
  | .regex pattern => some fun token => pattern.accepts token.value
  | .tokenType name => some fun token => token.type == name
  | .anyToken => some fun _ => true
  | _ => none

/-- What an expression does: match up to an index, or fail. -/
inductive Outcome where
  | success (stop : Nat)
  | failure
  deriving DecidableEq, Repr

open Outcome (success failure)

/-- **The big-step relation of parsing expression grammars.**  A repetition also ends at its first match of no token. -/
inductive Derives (g : Grammar) (tokens : Array Token) : Matcher → Nat → Outcome → Prop where
  | token {m : Matcher} {accepts : Token → Bool} {i : Nat} {token : Token} : m.accepts? = some accepts →
      tokens[i]? = some token → accepts token = true → Derives g tokens m i (success (i + 1))
  | noToken {m : Matcher} {accepts : Token → Bool} {i : Nat} : m.accepts? = some accepts →
      (∀ token, tokens[i]? = some token → accepts token = false) → Derives g tokens m i failure
  | atEnd {i : Nat} : tokens[i]? = none → Derives g tokens .endOfInput i (success i)
  | notAtEnd {i : Nat} {token : Token} : tokens[i]? = some token → Derives g tokens .endOfInput i failure
  | noItems {i : Nat} : Derives g tokens (.sequence []) i (success i)
  | firstItem {m : Matcher} {ms : List Matcher} {i j : Nat} {o : Outcome} : Derives g tokens m i (success j) →
      Derives g tokens (.sequence ms) j o → Derives g tokens (.sequence (m :: ms)) i o
  | brokenItem {m : Matcher} {ms : List Matcher} {i : Nat} : Derives g tokens m i failure →
      Derives g tokens (.sequence (m :: ms)) i failure
  | noChoice {i : Nat} : Derives g tokens (.firstOf []) i failure
  | firstChoice {m : Matcher} {ms : List Matcher} {i j : Nat} : Derives g tokens m i (success j) →
      Derives g tokens (.firstOf (m :: ms)) i (success j)
  | laterChoice {m : Matcher} {ms : List Matcher} {i : Nat} {o : Outcome} : Derives g tokens m i failure →
      Derives g tokens (.firstOf ms) i o → Derives g tokens (.firstOf (m :: ms)) i o
  | present {m : Matcher} {i j : Nat} : Derives g tokens m i (success j) → Derives g tokens (.optional m) i (success j)
  | absent {m : Matcher} {i : Nat} : Derives g tokens m i failure → Derives g tokens (.optional m) i (success i)
  | noMore {m : Matcher} {i : Nat} : Derives g tokens m i failure → Derives g tokens (.zeroOrMore m) i (success i)
  | noProgress {m : Matcher} {i : Nat} : Derives g tokens m i (success i) →
      Derives g tokens (.zeroOrMore m) i (success i)
  | again {m : Matcher} {i j : Nat} {o : Outcome} : Derives g tokens m i (success j) → j ≠ i →
      Derives g tokens (.zeroOrMore m) j o → Derives g tokens (.zeroOrMore m) i o
  | oneAndMore {m : Matcher} {i j : Nat} {o : Outcome} : Derives g tokens m i (success j) →
      Derives g tokens (.zeroOrMore m) j o → Derives g tokens (.oneOrMore m) i o
  | notOne {m : Matcher} {i : Nat} : Derives g tokens m i failure → Derives g tokens (.oneOrMore m) i failure
  | ahead {m : Matcher} {i j : Nat} : Derives g tokens m i (success j) → Derives g tokens (.next m) i (success i)
  | notAhead {m : Matcher} {i : Nat} : Derives g tokens m i failure → Derives g tokens (.next m) i failure
  | unwanted {m : Matcher} {i j : Nat} : Derives g tokens m i (success j) → Derives g tokens (.not m) i failure
  | unseen {m : Matcher} {i : Nat} : Derives g tokens m i failure → Derives g tokens (.not m) i (success i)
  | rule {key : RuleKey} {rule : Rule} {i : Nat} {o : Outcome} : g.rule? key = some rule →
      Derives g tokens rule.matcher i o → Derives g tokens (.rule key) i o

/-- What a matcher begins with: the first thing that it tries, at the index where it is tried itself. -/
def Grammar.begins? (g : Grammar) : Matcher → Option Matcher
  | .sequence (m :: _) | .firstOf (m :: _) => some m
  | .optional m | .zeroOrMore m | .oneOrMore m | .next m | .not m => some m
  | .rule key => g.matcher? key
  | _ => none

theorem Grammar.begins?_leaf {g : Grammar} {m : Matcher} {accepts : Token → Bool} (h : m.accepts? = some accepts) :
    g.begins? m = none := by
  cases m <;> first | rfl | cases h

/-- **What begins with itself derives nothing**: neither does any of a set of matchers each of which begins with one of
them. -/
theorem Derives.not_endless {g : Grammar} {tokens : Array Token} {S : Matcher → Prop}
    (hS : ∀ m, S m → ∃ c, g.begins? m = some c ∧ S c) {m : Matcher} {i : Nat} {o : Outcome} (h : Derives g tokens m i o) :
    ¬S m := by
  induction h with
  | @token m _ _ _ h | @noToken m _ _ h =>
    intro hm
    obtain ⟨c, hc, -⟩ := hS m hm
    cases (g.begins?_leaf h).symm.trans hc
  | atEnd | notAtEnd | noItems | noChoice =>
    intro hm
    obtain ⟨c, hc, -⟩ := hS _ hm
    cases hc
  | rule hr _ ih =>
    intro hm
    obtain ⟨c, hc, hs⟩ := hS _ hm
    rw [Grammar.begins?, Grammar.matcher?, hr] at hc
    cases hc
    exact ih hs
  | firstItem _ _ ih _ | laterChoice _ _ ih _ | again _ _ _ ih _ | oneAndMore _ _ ih _ | brokenItem _ ih
  | firstChoice _ ih | present _ ih | absent _ ih | noMore _ ih | noProgress _ ih | notOne _ ih | ahead _ ih
  | notAhead _ ih | unwanted _ ih | unseen _ ih =>
    intro hm
    obtain ⟨c, hc, hs⟩ := hS _ hm
    cases hc
    exact ih hs

end LayeredParse
