import LayeredParse.Parse.Run
import LayeredParse.Proofs.Parse.Agreement
/-!
# Limits — a higher nesting limit changes no answer but a refusal

Two parses of the same tokens with different nesting limits are compared on equal states, with the refusals of the lower
limit set aside.  Rule by rule they agree (`enter_raised`), so that a parse that is not refused does the same at every
higher limit: the same tree or the same error, after the same journal (`run_raised`).
-/
namespace LayeredParse

namespace ParseError

/-- Rules nest too deep. -/
def IsLimit (e : ParseError) : Prop :=
  ∃ rule limit, e = .recursionLimit rule limit

end ParseError

theorem State.failure_not_limit {input : Input} {t : State} : ¬(t.failure input).IsLimit := by
  rintro ⟨rule, limit, h⟩
  unfold State.failure at h
  dsimp only at h
  split at h <;> cases h

namespace Comparison

/-- All states, each compared with itself; refusals are set aside. -/
abbrev raised : Comparison :=
  .same (fun _ => True) ParseError.IsLimit

variable {input input' : Input}

theorem raised_lawful (h : input.tokens = input'.tokens) : raised.Lawful input input' :=
  same_lawful ⟨fun _ _ => trivial, fun _ _ => trivial, fun _ _ => trivial⟩ h

theorem raised_nests (rule : Rule) : raised.Nests rule rule where
  enter := by rintro s _ ⟨rfl, _⟩; exact ⟨rfl, trivial⟩
  leave := by rintro s _ ⟨rfl, _⟩ matched; exact ⟨rfl, trivial⟩
  node := by rintro s _ t _ ns _ ⟨rfl, _⟩ ⟨rfl, _⟩ rfl; rfl

end Comparison

namespace Grammar

open Attempt (Agree)
open Comparison (raised raised_lawful raised_nests)

variable {g : Grammar} {input input' : Input} {key : RuleKey} {config : ParserConfig} {tokens : List Token} {d d' : Nat}

/-- **With more room a rule does the same**, unless there was too little. -/
theorem enter_raised (g : Grammar) (h : input.tokens = input'.tokens) : ∀ {room room' : Nat}, room ≤ room' →
    ∀ key, Agree raised Eq (g.enter input room key) (g.enter input' room' key)
  | 0, room', _, key => by
    rintro s _ ⟨rfl, -⟩
    cases hr : g.rule? key with
    | none =>
      rw [enter_foreign hr, enter_foreign hr]
      exact .fatal rfl ⟨rfl, trivial⟩
    | some rule =>
      rw [enter_zero hr]
      exact .aside ⟨_, _, rfl⟩
  | room + 1, 0, hle, _ => absurd hle (Nat.not_succ_le_zero room)
  | room + 1, room' + 1, hle, key => by
    cases hr : g.rule? key with
    | none =>
      rw [enter_foreign hr, enter_foreign hr]
      rintro s _ ⟨rfl, -⟩
      exact .fatal rfl ⟨rfl, trivial⟩
    | some rule =>
      have hcall : ∀ key, Agree raised Eq (.spliced (g.enter input room key)) (.spliced (g.enter input' room' key)) :=
        fun key => Attempt.spliced_agree (congrArg Node.spliced) (enter_raised g h (Nat.le_of_succ_le_succ hle) key)
      rw [enter_succ hr, enter_succ hr]
      exact Attempt.around_agree (raised_nests rule)
        (Matcher.attempt_linked (Attempt.agree_linked (raised_lawful h)) hcall rule.matcher)

theorem matchRule_raised (hle : d ≤ d') (s : State) :
    g.matchRule { tokens := tokens.toArray, config := { config with maxDepth := d } } key s =
        g.matchRule { tokens := tokens.toArray, config := { config with maxDepth := d' } } key s ∨
      ∃ e, (g.matchRule { tokens := tokens.toArray, config := { config with maxDepth := d } } key s).1 = .fatal e ∧
        e.IsLimit := by
  have hroom : d - s.depth ≤ d' - s.depth := Nat.sub_le_sub_right hle s.depth
  unfold matchRule
  exact Comparison.alike_same (enter_raised g (by rfl) hroom key s s ⟨rfl, trivial⟩)

/-- **A parse that is not refused is the same with a higher limit**, and so is what happened during it. -/
theorem run_raised (hle : d ≤ d') :
    g.run key { config with maxDepth := d } tokens = g.run key { config with maxDepth := d' } tokens ∨
      ∃ e, (g.run key { config with maxDepth := d } tokens).outcome = .error e ∧ e.IsLimit := by
  rcases @matchRule_raised g key config tokens d d' hle {} with heq | ⟨e, he, hlimit⟩
  · left
    dsimp only [run]
    rw [heq]
    rfl
  · right
    refine ⟨e, ?_, hlimit⟩
    dsimp only [run]
    generalize g.matchRule { tokens := tokens.toArray, config := { config with maxDepth := d } } key {} = r at he ⊢
    obtain ⟨answer, t⟩ := r
    obtain rfl : answer = .fatal e := he
    rfl

/-- Whether a parse is refused with the limit `d`. -/
def RefusedAt (g : Grammar) (key : RuleKey) (config : ParserConfig) (tokens : List Token) (d : Nat) : Prop :=
  ∃ rule limit, g.parseRule key { config with maxDepth := d } tokens = .error (.recursionLimit rule limit)

theorem parseRule_eq_or_refusedAt (hle : d ≤ d') :
    g.parseRule key { config with maxDepth := d } tokens = g.parseRule key { config with maxDepth := d' } tokens ∨
      g.RefusedAt key config tokens d := by
  rcases @run_raised g key config tokens d d' hle with heq | ⟨_, he, rule, limit, rfl⟩
  · exact .inl (congrArg Parse.outcome heq)
  · exact .inr ⟨rule, limit, he⟩

/-- **A higher limit changes no answer but a refusal.**  A parse that is not refused with a limit has the same tree or
the same error with every higher one.  So the limits that refuse it are all below the others, and with the others the
answer is always the same. -/
theorem parseRule_raised (g : Grammar) (key : RuleKey) (config : ParserConfig) (tokens : List Token) :
    (∀ d d', d ≤ d' → ¬ g.RefusedAt key config tokens d →
      g.parseRule key { config with maxDepth := d' } tokens = g.parseRule key { config with maxDepth := d } tokens) ∧
    (∀ d d', d ≤ d' → g.RefusedAt key config tokens d' → g.RefusedAt key config tokens d) ∧
    ∀ d d', ¬ g.RefusedAt key config tokens d → ¬ g.RefusedAt key config tokens d' →
      g.parseRule key { config with maxDepth := d } tokens = g.parseRule key { config with maxDepth := d' } tokens := by
  have raise : ∀ d d', d ≤ d' → ¬ g.RefusedAt key config tokens d →
      g.parseRule key { config with maxDepth := d' } tokens = g.parseRule key { config with maxDepth := d } tokens :=
    fun d d' hle hd => ((parseRule_eq_or_refusedAt hle).resolve_right hd).symm
  refine ⟨raise, fun d d' hle hd' => ?_, fun d d' hd hd' => ?_⟩
  · rcases @parseRule_eq_or_refusedAt g key config tokens d d' hle with heq | hd
    · obtain ⟨rule, limit, he⟩ := hd'
      exact ⟨rule, limit, heq.trans he⟩
    · exact hd
  · rcases Nat.le_total d d' with hle | hle
    · exact (raise d d' hle hd).symm
    · exact raise d' d hle hd'

/-- A letter in parentheses takes two rules, one in the other: it is refused with the limit 1, and parsed with the limit
2 and every higher one. -/
theorem parseRule_raised_parentheses : ∃ (g : Grammar) (tokens : List Token), g.RefusedAt 0 {} tokens 1 ∧
    g.RefusedAt 0 {} tokens 0 ∧ ¬ g.RefusedAt 0 {} tokens 2 ∧ ¬ g.RefusedAt 0 {} tokens 3 ∧
      (g.parseRule 0 { maxDepth := 512 } tokens).toOption.map Node.size = some 5 ∧
      g.parseRule 0 { maxDepth := 2 } tokens = g.parseRule 0 { maxDepth := 3 } tokens := by
  let letter : String → Token := fun value => ⟨value, TokenType.identifier, 1, 0, ⟨0, 1⟩⟩
  let body : Matcher := .firstOf [.literal "x", .sequence [.literal "(", .rule 0, .literal ")"]]
  let g : Grammar := ⟨#[⟨"group", body, .never⟩], 0⟩
  let tokens : List Token := [letter "(", letter "x", letter ")"]
  have refused : g.RefusedAt 0 {} tokens 1 := ⟨"group", 1, rfl⟩
  have parsed : ∀ d, (g.parseRule 0 { maxDepth := d } tokens).toOption.map Node.size = some 5 →
      ¬ g.RefusedAt 0 {} tokens d := by
    rintro d hsize ⟨rule, limit, he⟩
    rw [he] at hsize
    cases hsize
  have size : (g.parseRule 0 { maxDepth := 2 } tokens).toOption.map Node.size = some 5 := by decide +kernel
  have parsed₂ := parsed 2 size
  have parsed₃ := parsed 3 (by decide +kernel)
  obtain ⟨raise, lower, constant⟩ := parseRule_raised g 0 {} tokens
  refine ⟨g, tokens, refused, lower 0 1 (by decide) refused, parsed₂, parsed₃, ?_, constant 2 3 parsed₂ parsed₃⟩
  exact (congrArg (fun r => (Except.toOption r).map Node.size) (raise 2 512 (by decide) parsed₂)).trans size

end Grammar
end LayeredParse
