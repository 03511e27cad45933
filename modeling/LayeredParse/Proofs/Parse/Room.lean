import LayeredParse.Proofs.Parse.Agreement
import LayeredParse.Proofs.Parse.Balance
/-!
# Room — rules may nest as deep as the depth leaves room for

`Grammar.attemptAt` attempts a matcher that enters rules from the state as it finds it.  Since every rule that is opened
is closed again, the depth counted up and the room handed down stay in step (`attemptAt_eq`), and a rule is refused
exactly if the depth of the state has reached the limit (`matchRule_eq`).  A failed match leaves no trace in index and
depth (`attemptAt_atomic`).
-/
namespace LayeredParse
namespace Grammar

open State (Unmoved Onward)
open Attempt (Agree Balanced Steady)

variable {g : Grammar} {input : Input} {key : RuleKey} {rule : Rule}

/-- The attempt of a matcher, each of whose rules is matched from the state that it is come to in. -/
def attemptAt (g : Grammar) (input : Input) (m : Matcher) : Attempt Forest :=
  m.attempt input (g.matchRule input)

theorem enter_balanced (g : Grammar) (input : Input) (room : Nat) (key : RuleKey) :
    (g.enter input room key).Balanced input := by
  cases hr : g.rule? key with
  | none =>
    rw [enter_foreign hr]
    exact fun _ => ⟨rfl, rfl⟩
  | some rule =>
    cases room with
    | zero =>
      rw [enter_zero hr]
      exact fun _ => ⟨rfl, rfl⟩
    | succ room =>
      rw [enter_succ hr]
      exact Attempt.around_balanced rule (g.attempt_balanced input room rule.matcher)

theorem depth_stable (input : Input) (depth : Nat) : Comparison.Stable input (fun t => t.depth = depth) where
  back _ h := h
  next h _ := h
  miss h _ := h

/-- **A matcher enters its rules with the room that the state leaves it**, wherever it enters them. -/
theorem attemptAt_eq (g : Grammar) (input : Input) (m : Matcher) (s : State) :
    g.attemptAt input m s = m.attempt input (g.enter input (input.config.maxDepth - s.depth)) s := by
  let C : Comparison := .same (fun t => t.depth = s.depth) (fun _ => False)
  have hC : C.Lawful input input := Comparison.same_lawful (depth_stable input s.depth) rfl
  have hcall : ∀ key, Agree C C.forests (.spliced (g.enter input (input.config.maxDepth - s.depth) key))
      (.spliced (g.matchRule input key)) := by
    intro key
    refine Attempt.spliced_agree (fun h => congrArg Node.spliced h) ?_
    rintro t _ ⟨rfl, ht⟩
    have hroom : g.matchRule input key t = g.enter input (input.config.maxDepth - s.depth) key t := by
      unfold matchRule
      rw [ht]
    rw [hroom]
    refine Comparison.same_agree (fun u hu => ?_) t t ⟨rfl, ht⟩
    exact (Steady.depth_eq (enter_balanced g input _ key u)).trans hu
  have h := Matcher.attempt_linked (Attempt.agree_linked hC) hcall m s s ⟨rfl, rfl⟩
  rcases Comparison.alike_same h with heq | ⟨_, _, hnever⟩
  · exact heq.symm
  · exact hnever.elim

/-- **A rule is refused exactly if the depth has reached the limit.**  Otherwise its matcher is attempted between
entering and leaving it. -/
theorem matchRule_eq (hr : g.rule? key = some rule) (s : State) :
    g.matchRule input key s =
      if input.config.maxDepth ≤ s.depth then (.fatal (.recursionLimit rule.name input.config.maxDepth), s)
      else rule.around (g.attemptAt input rule.matcher) s := by
  unfold matchRule
  split
  · rename_i hle
    rw [Nat.sub_eq_zero_of_le hle, enter_zero hr]
  · rename_i hlt
    have hroom : input.config.maxDepth - s.depth = input.config.maxDepth - (s.depth + 1) + 1 := by omega
    have hentered : g.attemptAt input rule.matcher (s.enter rule.name) =
        rule.matcher.attempt input (g.enter input (input.config.maxDepth - (s.depth + 1))) (s.enter rule.name) :=
      attemptAt_eq g input rule.matcher (s.enter rule.name)
    rw [hroom, enter_succ hr, Rule.around, Rule.around, hentered]

theorem attemptAt_balanced (g : Grammar) (input : Input) (m : Matcher) : (g.attemptAt input m).Balanced input := by
  intro s
  rw [attemptAt_eq]
  exact g.attempt_balanced input (input.config.maxDepth - s.depth) m s

theorem matchRule_balanced (g : Grammar) (input : Input) (key : RuleKey) : (g.matchRule input key).Balanced input :=
  fun s => enter_balanced g input (input.config.maxDepth - s.depth) key s

/-- **A failed match is atomic.**  From any state, an attempt of a matcher that backtracks or fails for good leaves index
and depth as they were; one that matches leaves the depth and moves the index forward, within the tokens.  The same holds
of a rule that is matched from a state.  A trial leaves both as they were in any case.  And a rule that is entered is
left with the depth one above what it was, so that there is always something to take off. -/
theorem attemptAt_atomic (g : Grammar) (input : Input) (s : State) :
    (∀ m : Matcher,
      (match g.attemptAt input m s with
        | (.matched _, t) => t.depth = s.depth ∧ s.index ≤ t.index ∧ (s.index ≤ input.size → t.index ≤ input.size)
        | (.backtrack _, t) | (.fatal _, t) => t.depth = s.depth ∧ t.index = s.index) ∧
      (Attempt.trial (g.attemptAt input m) s).2.depth = s.depth ∧
      (Attempt.trial (g.attemptAt input m) s).2.index = s.index) ∧
    (∀ key : RuleKey,
      match g.matchRule input key s with
        | (.matched _, t) => t.depth = s.depth ∧ s.index ≤ t.index ∧ (s.index ≤ input.size → t.index ≤ input.size)
        | (.backtrack _, t) | (.fatal _, t) => t.depth = s.depth ∧ t.index = s.index) ∧
    ∀ (key : RuleKey) (rule : Rule), g.rule? key = some rule → s.depth < input.config.maxDepth →
      g.matchRule input key s = rule.around (g.attemptAt input rule.matcher) s ∧
        (g.attemptAt input rule.matcher (s.enter rule.name)).2.depth = s.depth + 1 := by
  refine ⟨fun m => ⟨?_, Attempt.trial_unmoved (attemptAt_balanced g input m).advances s⟩, fun key => ?_,
    fun key rule hr hlt => ⟨?_, ?_⟩⟩
  · have h := attemptAt_balanced g input m s
    generalize g.attemptAt input m s = r at h ⊢
    rcases r with ⟨_ | _ | _, t⟩ <;> exact h
  · have h := matchRule_balanced g input key s
    generalize g.matchRule input key s = r at h ⊢
    rcases r with ⟨_ | _ | _, t⟩ <;> exact h
  · rw [matchRule_eq hr, if_neg (Nat.not_le.2 hlt)]
  · exact Steady.depth_eq (attemptAt_balanced g input rule.matcher (s.enter rule.name))

/-- A pair of letters whose second is a rule of its own: it matches the first two tokens, and gives back the third, which
it has taken, when the fourth is no match. -/
theorem attemptAt_atomic_pairs : ∃ (g : Grammar) (input : Input) (pair : Rule),
    g.rule? 0 = some pair ∧ 3 < input.config.maxDepth ∧ input.size = 4 ∧
      (g.matchRule input 0 { index := 0, depth := 3 }).1.isMatch = true ∧
      (g.matchRule input 0 { index := 0, depth := 3 }).2.index ≤ 4 ∧
      (g.matchRule input 0 { index := 2, depth := 3 }).1.isMatch = false ∧
      (g.matchRule input 0 { index := 2, depth := 3 }).2.furthest.index = 3 ∧
      (g.matchRule input 0 { index := 2, depth := 3 }).2.index = 2 ∧
      (g.attemptAt input pair.matcher (State.enter { index := 2, depth := 3 } pair.name)).2.depth = 4 := by
  let letter : String → Token := fun value => ⟨value, TokenType.identifier, 1, 0, ⟨0, 1⟩⟩
  let pair : Rule := ⟨"pair", .sequence [.literal "a", .rule 1], .never⟩
  let g : Grammar := ⟨#[pair, ⟨"second", .literal "b", .never⟩], 0⟩
  let input : Input := { tokens := #[letter "a", letter "b", letter "a", letter "c"] }
  have matched := (attemptAt_atomic g input { index := 0, depth := 3 }).2.1 0
  obtain ⟨_, failed, left⟩ := attemptAt_atomic g input { index := 2, depth := 3 }
  exact ⟨g, input, pair, rfl, by decide, rfl, rfl, matched.2.2 (by decide), rfl, rfl, (failed 0).2,
    (left 0 pair rfl (by decide)).2⟩

end Grammar
end LayeredParse
