import LayeredParse.Proofs.Parse.Locality
import LayeredParse.Proofs.Peg.Derives
/-!
# Outcomes — what comes of an attempt

Of all that an attempt leaves, its outcome is only where the match ends, or that there is none, or why the parse failed
for good.  Here the outcome of each combinator is told by those of the attempts that it makes.  A repetition goes on from
where a match ends as it would begin there, so that its limit never makes a difference (`outcome_repeatedFrom`).
-/
namespace LayeredParse

open Outcome (success failure)

theorem State.atEnd_iff {s : State} {input : Input} : s.atEnd input = true ↔ input.tokens[s.index]? = none := by
  rw [Array.getElem?_eq_none_iff]
  exact decide_eq_true_iff

namespace Attempt

variable {α : Type} {input : Input} {a : Attempt Forest} {as : List (Attempt Forest)}

/-- What came of an attempt, or why the parse failed for good. -/
def outcome : Answer α × State → Except ParseError Outcome
  | (.matched _, t) => .ok (success t.index)
  | (.backtrack _, _) => .ok failure
  | (.fatal error, _) => .error error

theorem outcome_success {r : Answer α × State} {j : Nat} (h : outcome r = .ok (success j)) :
    ∃ v t, r = (.matched v, t) ∧ t.index = j := by
  rcases r with ⟨v | _ | _, t⟩
  · cases h
    exact ⟨v, t, rfl, rfl⟩
  · cases h
  · cases h

theorem outcome_failure {r : Answer α × State} (h : outcome r = .ok failure) : ∃ why t, r = (.backtrack why, t) := by
  rcases r with ⟨_ | why | _, t⟩
  · cases h
  · exact ⟨why, t, rfl⟩
  · cases h

theorem outcome_atomic (a : Attempt α) (s : State) : outcome (atomic a s) = outcome (a s) := by
  unfold atomic
  generalize a s = r
  rcases r with ⟨_ | _ | _, t⟩ <;> rfl

theorem outcome_chain_cons (s : State) : outcome (chain (a :: as) s) =
    match a s with
    | (.matched _, t) => outcome (chain as t)
    | failed => outcome failed := by
  rw [chain]
  generalize a s = r
  rcases r with ⟨_ | _ | _, t⟩
  · simp only
    generalize chain as t = r
    rcases r with ⟨_ | _ | _, u⟩ <;> rfl
  · rfl
  · rfl

theorem outcome_chain_singleton (s : State) : outcome (chain [a] s) = outcome (a s) := by
  rw [outcome_chain_cons]
  generalize a s = r
  rcases r with ⟨_ | _ | _, t⟩ <;> rfl

theorem outcome_firstOf_cons (s : State) : outcome (firstOf (a :: as) s) =
    match a s with
    | (.backtrack _, t) => outcome (firstOf as t)
    | settled => outcome settled := by
  rw [firstOf]
  generalize a s = r
  rcases r with ⟨_ | _ | _, t⟩ <;> rfl

theorem outcome_optional (s : State) : outcome (optional a s) =
    match a s with
    | (.backtrack _, t) => .ok (success t.index)
    | settled => outcome settled := by
  unfold optional
  generalize a s = r
  rcases r with ⟨_ | _ | _, t⟩ <;> rfl

theorem outcome_repeated_succ (limit : Nat) (s : State) : outcome (repeated a (limit + 1) s) =
    match a s with
    | (.matched _, t) => if t.index = s.index then .ok (success t.index) else outcome (repeated a limit t)
    | (.backtrack _, t) => .ok (success t.index)
    | (.fatal error, _) => .error error := by
  rw [repeated]
  generalize a s = r
  rcases r with ⟨_ | _ | _, t⟩
  · simp only
    split
    · rfl
    · generalize repeated a limit t = r
      rcases r with ⟨_ | _ | _, u⟩ <;> rfl
  · rfl
  · rfl

theorem outcome_next (s : State) : outcome (next a s) =
    match a s with
    | (.matched _, _) => .ok (success s.index)
    | failed => outcome failed := by
  unfold next trial
  generalize a s = r
  rcases r with ⟨_ | _ | _, t⟩ <;> rfl

theorem outcome_not (m : Matcher) (s : State) : outcome (not m a s) =
    match a s with
    | (.matched _, _) => .ok failure
    | (.backtrack _, _) => .ok (success s.index)
    | (.fatal error, _) => .error error := by
  unfold not trial
  generalize a s = r
  rcases r with ⟨_ | _ | _, t⟩ <;> rfl

theorem outcome_spliced (a : Attempt Node) (s : State) : outcome (spliced a s) = outcome (a s) := by
  unfold spliced
  generalize a s = r
  rcases r with ⟨_ | _ | _, t⟩ <;> rfl

theorem outcome_around (rule : Rule) (s : State) : outcome (rule.around a s) = outcome (a (s.enter rule.name)) := by
  unfold Rule.around
  generalize a (s.enter rule.name) = r
  rcases r with ⟨_ | _ | _, t⟩ <;> rfl

/-- Whether a match ends within the tokens or where it started, and not before. -/
def Within (input : Input) (a : Attempt Forest) : Prop :=
  ∀ s t ns, a s = (.matched ns, t) → s.index ≤ t.index ∧ t.index ≤ max s.index input.size

/-- A repetition does the same with any limit above the number of tokens left. -/
theorem repeated_eq (hw : Within input a) : ∀ {limit limit' : Nat} {s : State}, input.size - s.index < limit →
    input.size - s.index < limit' → repeated a limit s = repeated a limit' s
  | 0, _, _, h, _ => absurd h (Nat.not_lt_zero _)
  | _ + 1, 0, _, _, h => absurd h (Nat.not_lt_zero _)
  | limit + 1, limit' + 1, s, h, h' => by
    unfold repeated
    rcases ha : a s with ⟨ns | _ | _, t⟩
    · obtain ⟨hle, hmax⟩ := hw s t ns ha
      simp only
      split
      · rfl
      · rw [repeated_eq hw (show input.size - t.index < limit by omega) (show input.size - t.index < limit' by omega)]
    · rfl
    · rfl

/-- **A repetition goes on from where a match ends as it would begin there**: the limit never makes a difference. -/
theorem outcome_repeatedFrom (hw : Within input a) (s : State) : outcome (repeatedFrom input a s) =
    match a s with
    | (.matched _, t) => if t.index = s.index then .ok (success t.index) else outcome (repeatedFrom input a t)
    | (.backtrack _, t) => .ok (success t.index)
    | (.fatal error, _) => .error error := by
  unfold repeatedFrom
  rw [outcome_repeated_succ]
  rcases ha : a s with ⟨ns | _ | _, t⟩
  · obtain ⟨hle, hmax⟩ := hw s t ns ha
    simp only
    split
    · rfl
    · rw [@repeated_eq input a hw (input.size - s.index) (input.size - t.index + 1) t (by omega) (Nat.lt_succ_self _)]
  · rfl
  · rfl

end Attempt

variable {input : Input} {m : Matcher}

theorem attempt_inside (g : Grammar) (input : Input) (room : Nat) (m : Matcher) :
    Attempt.Within input (m.attempt input (g.enter input room)) := by
  intro s t ns h
  have hb := g.attempt_balanced input room m s
  rw [h] at hb
  exact ⟨hb.2.1, g.attempt_within input room m h⟩

theorem attempt_leaf {accepts : Token → Bool} (h : m.accepts? = some accepts) (call : RuleKey → Attempt Node) :
    m.attempt input call = .leaf input m accepts := by
  cases m <;> cases h <;> rfl

end LayeredParse
