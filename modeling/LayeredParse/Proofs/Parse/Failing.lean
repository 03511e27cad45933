import LayeredParse.Proofs.Peg.Outcomes
import Mathlib.Logic.Relation
/-!
# Failing — where each combinator fails for good

An attempt fails for good if it ends in a fatal error (`Attempt.Fails`).  For each combinator it is told here from which
of the attempts that it makes such an error comes: a list of attempts is gone through up to the one that fails
(`Comes`), a repetition or a skipping goes on for a number of rounds first (`Attempt.Round`, `Attempt.Skip`).  No
combinator looks at the error or writes anything down after it.
-/
namespace LayeredParse

/-- Coming to an element of a list with a state, if every element before it lets us go on from one state to the next. -/
inductive Comes {β σ : Type} (go : β → σ → σ → Prop) : List β → σ → β → σ → Prop
  | here {b : β} {bs : List β} {x : σ} : Comes go (b :: bs) x b x
  | later {b c : β} {bs : List β} {x y z : σ} (first : go b x y) (rest : Comes go bs y c z) : Comes go (b :: bs) x c z

namespace Comes

variable {β σ : Type} {go : β → σ → σ → Prop} {b c : β} {bs : List β} {x z : σ}

theorem mem (h : Comes go bs x c z) : c ∈ bs := by
  induction h with
  | here => exact List.mem_cons_self
  | later _ _ ih => exact List.mem_cons_of_mem _ ih

/-- What no step changes is the same when the element is come to. -/
theorem kept {τ : Type} (view : σ → τ) (hgo : ∀ b x y, go b x y → view y = view x) (h : Comes go bs x c z) :
    view z = view x := by
  induction h with
  | here => rfl
  | later first _ ih => exact ih.trans (hgo _ _ _ first)

/-- What goes wrong if it does so at the first element, or with the rest after it, goes wrong at one that is come to. -/
theorem of_cons (Wrong : List β → σ → Prop) {wrong : β → σ → Prop} (hnil : ∀ x, ¬Wrong [] x)
    (hcons : ∀ b bs x, Wrong (b :: bs) x ↔ wrong b x ∨ ∃ y, go b x y ∧ Wrong bs y) :
    ∀ (bs : List β) (x : σ), Wrong bs x ↔ ∃ c y, Comes go bs x c y ∧ wrong c y
  | [], x => by
    refine ⟨fun h => absurd h (hnil x), ?_⟩
    rintro ⟨c, y, hcomes, -⟩
    cases hcomes
  | b :: bs, x => by
    rw [hcons]
    constructor
    · rintro (h | ⟨y, hgo, h⟩)
      · exact ⟨b, x, .here, h⟩
      · obtain ⟨c, z, hcomes, hwrong⟩ := (of_cons Wrong hnil hcons bs y).1 h
        exact ⟨c, z, .later hgo hcomes, hwrong⟩
    · rintro ⟨c, z, hcomes | ⟨hgo, hcomes⟩, hwrong⟩
      · exact .inl hwrong
      · exact .inr ⟨_, hgo, (of_cons Wrong hnil hcons bs _).2 ⟨c, z, hcomes, hwrong⟩⟩

end Comes

namespace Attempt

variable {α β : Type} {input : Input} {a : Attempt α} {b : Attempt Forest} {s t : State} {e : ParseError} {j : Journal}

/-- What an attempt leaves that ends in the error, with what has happened by then. -/
def Ended (e : ParseError) (j : Journal) : Answer α × State → Prop
  | (.fatal error, t) => error = e ∧ t.journal = j
  | (.matched _, _) | (.backtrack _, _) => False

/-- **Whether an attempt fails for good from a state**: with what error, and what has happened by then. -/
def Fails (a : Attempt α) (s : State) (e : ParseError) (j : Journal) : Prop :=
  Ended e j (a s)

def Matches (a : Attempt α) (s t : State) : Prop :=
  ∃ v, a s = (.matched v, t)

def Backtracks (a : Attempt α) (s t : State) : Prop :=
  ∃ why, a s = (.backtrack why, t)

theorem fails_iff : a.Fails s e j ↔ ∃ t, a s = (.fatal e, t) ∧ t.journal = j := by
  unfold Fails
  generalize a s = r
  rcases r with ⟨_ | _ | error, t⟩ <;> simp [Ended]

theorem atomic_fails : (atomic a).Fails s e j ↔ a.Fails s e j := by
  unfold Fails atomic
  generalize a s = r
  rcases r with ⟨_ | _ | _, t⟩ <;> exact Iff.rfl

theorem trial_fails : (∃ t, trial a s = (.error e, t) ∧ t.journal = j) ↔ a.Fails s e j := by
  rw [fails_iff]
  unfold trial
  generalize a s = r
  rcases r with ⟨_ | _ | error, t⟩
  · simp
  · simp
  · constructor
    · rintro ⟨_, heq, rfl⟩
      cases heq
      exact ⟨t, rfl, rfl⟩
    · rintro ⟨_, heq, rfl⟩
      cases heq
      exact ⟨t.goTo s.index, rfl, rfl⟩

/-! ## One after the other, and one of several -/

theorem chain_cons_fails {as : List (Attempt Forest)} :
    (chain (b :: as)).Fails s e j ↔ b.Fails s e j ∨ ∃ t, b.Matches s t ∧ (chain as).Fails t e j := by
  unfold Fails Matches
  rw [chain]
  rcases b s with ⟨_ | _ | _, t⟩
  · rcases hrest : chain as t with ⟨_ | _ | _, u⟩ <;> simp [Ended, hrest]
  · simp [Ended]
  · simp [Ended]

theorem firstOf_cons_fails {as : List (Attempt α)} :
    (firstOf (a :: as)).Fails s e j ↔ a.Fails s e j ∨ ∃ t, a.Backtracks s t ∧ (firstOf as).Fails t e j := by
  unfold Fails Backtracks
  rw [firstOf]
  rcases a s with ⟨_ | _ | _, t⟩ <;> simp [Ended]

theorem chain_fails {f : β → Attempt Forest} {bs : List β} : (chain (bs.map f)).Fails s e j ↔
    ∃ c t, Comes (fun c => (f c).Matches) bs s c t ∧ (f c).Fails t e j :=
  Comes.of_cons (fun bs s => (chain (bs.map f)).Fails s e j) (fun _ => id) (fun _ _ _ => chain_cons_fails) bs s

theorem firstOf_fails {f : β → Attempt α} {bs : List β} : (firstOf (bs.map f)).Fails s e j ↔
    ∃ c t, Comes (fun c => (f c).Backtracks) bs s c t ∧ (f c).Fails t e j :=
  Comes.of_cons (fun bs s => (firstOf (bs.map f)).Fails s e j) (fun _ => id) (fun _ _ _ => firstOf_cons_fails)
    bs s

/-! ## Alternations that try everything first -/

/-- A choice among attempts that ends in the error instead, with what has happened by then. -/
def Undecided (e : ParseError) (j : Journal) : Except ParseError (Option (Attempt α)) × State → Prop
  | (.error error, t) => error = e ∧ t.journal = j
  | (.ok _, _) => False

/-- A trial of the attempt against the best so far. -/
def Compared (a : Attempt α) (x y : State × Option (Attempt α × Nat)) : Prop :=
  ∃ reached, trial a x.1 = (.ok reached, y.1) ∧ y.2 = better x.2 a reached

/-- A trial of the attempt where at most one may match: it does not, or nothing did before. -/
def Admitted (a : Attempt α) (x y : State × Option (Attempt α)) : Prop :=
  trial a x.1 = (.ok none, y.1) ∧ y.2 = x.2 ∨ (∃ k, trial a x.1 = (.ok (some k), y.1)) ∧ x.2 = none ∧ y.2 = some a

theorem longest_fails {f : β → Attempt α} {bs : List β} {best : Option (Attempt α × Nat)} :
    Undecided e j (longest (bs.map f) best s) ↔
      ∃ c y, Comes (fun c => Compared (f c)) bs (s, best) c y ∧ (f c).Fails y.1 e j := by
  refine Comes.of_cons (fun bs (x : State × Option (Attempt α × Nat)) => Undecided e j (longest (bs.map f) x.2 x.1))
    (fun _ => id) (fun c bs x => ?_) bs (s, best)
  obtain ⟨s, best⟩ := x
  rw [List.map_cons, longest, ← trial_fails]
  unfold Compared
  rcases htrial : trial (f c) s with ⟨error | reached, t⟩
  · simp [Undecided]
  · simp

/-- Whether a match of the attempt is one too many, with what has happened by then. -/
def Ties (tie : Nat → ParseError) (a : Attempt α) (x : State × Option (Attempt α)) (e : ParseError) (j : Journal) : Prop :=
  x.2.isSome ∧ ∃ k t, trial a x.1 = (.ok (some k), t) ∧ tie t.index = e ∧ t.journal = j

theorem only_fails {tie : Nat → ParseError} {f : β → Attempt α} {bs : List β} {found : Option (Attempt α)} :
    Undecided e j (only tie (bs.map f) found s) ↔
      ∃ c y, Comes (fun c => Admitted (f c)) bs (s, found) c y ∧ ((f c).Fails y.1 e j ∨ Ties tie (f c) y e j) := by
  refine Comes.of_cons (fun bs (x : State × Option (Attempt α)) => Undecided e j (only tie (bs.map f) x.2 x.1))
    (fun _ => id) (fun c bs x => ?_) bs (s, found)
  obtain ⟨s, found⟩ := x
  rw [List.map_cons, only, ← trial_fails]
  unfold Admitted Ties
  rcases htrial : trial (f c) s with ⟨error | _ | k, t⟩
  · simp [Undecided]
  · simp
  · cases found with
    | none => simp
    | some b => simp [Undecided]

theorem make_fails {r : Except ParseError (Option (Attempt α)) × State} :
    Ended e j (make r) ↔ Undecided e j r ∨ ∃ a t, r = (.ok (some a), t) ∧ a.Fails t e j := by
  rcases r with ⟨error | _ | a, t⟩
  · simp [make, Ended, Undecided]
  · simp [make, Ended, Undecided]
  · simp [make, Fails, Undecided]

/-- The attempt that is made once it is chosen is one of those that were to choose from. -/
theorem make_chosen_fails {f : β → Attempt α} {bs : List β} {r : Except ParseError (Option (Attempt α)) × State}
    (h : Chosen (bs.map f) s r) :
    Ended e j (make r) ↔ Undecided e j r ∨ ∃ c ∈ bs, ∃ t, r = (.ok (some (f c)), t) ∧ (f c).Fails t e j := by
  rw [make_fails]
  refine or_congr Iff.rfl ⟨?_, ?_⟩
  · rintro ⟨a, t, rfl, hfails⟩
    obtain ⟨c, hc, rfl⟩ := List.mem_map.1 (h.2 a rfl)
    exact ⟨c, hc, t, rfl, hfails⟩
  · rintro ⟨c, -, t, rfl, hfails⟩
    exact ⟨f c, t, rfl, hfails⟩

theorem longest_chosen_map {f : β → Attempt α} (hf : ∀ c, (f c).Balanced input) (bs : List β) (s : State) :
    Chosen (bs.map f) s (longest (bs.map f) none s) :=
  longest_chosen _ _ none s (List.forall_mem_map.2 (fun c _ => hf c)) (fun _ ha => ha) (fun _ hp => nomatch hp)

theorem only_chosen_map {f : β → Attempt α} (hf : ∀ c, (f c).Balanced input) (tie : Nat → ParseError) (bs : List β)
    (s : State) : Chosen (bs.map f) s (only tie (bs.map f) none s) :=
  only_chosen tie _ _ none s (List.forall_mem_map.2 (fun c _ => hf c)) (fun _ ha => ha) (fun _ hp => nomatch hp)

theorem longestOne_fails {f : β → Attempt α} (hf : ∀ c, (f c).Balanced input) {bs : List β} :
    (longestOne (bs.map f)).Fails s e j ↔
      (∃ c y, Comes (fun c => Compared (f c)) bs (s, none) c y ∧ (f c).Fails y.1 e j) ∨
        ∃ c ∈ bs, ∃ t, longest (bs.map f) none s = (.ok (some (f c)), t) ∧ (f c).Fails t e j := by
  rw [← longest_fails]
  exact make_chosen_fails (longest_chosen_map hf bs s)

theorem strictOr_fails {tie : Nat → ParseError} {f : β → Attempt α} (hf : ∀ c, (f c).Balanced input) {bs : List β} :
    (strictOr tie (bs.map f)).Fails s e j ↔
      (∃ c y, Comes (fun c => Admitted (f c)) bs (s, none) c y ∧ ((f c).Fails y.1 e j ∨ Ties tie (f c) y e j)) ∨
        ∃ c ∈ bs, ∃ t, only tie (bs.map f) none s = (.ok (some (f c)), t) ∧ (f c).Fails t e j := by
  rw [← only_fails]
  exact make_chosen_fails (only_chosen_map hf tie bs s)

/-! ## Options, repetitions and lookaheads -/

theorem optional_fails : (optional b).Fails s e j ↔ b.Fails s e j := by
  unfold Fails optional
  generalize b s = r
  rcases r with ⟨_ | _ | _, t⟩ <;> exact Iff.rfl

theorem next_fails : (next a).Fails s e j ↔ a.Fails s e j := by
  unfold Fails next trial
  generalize a s = r
  rcases r with ⟨_ | _ | _, t⟩ <;> exact Iff.rfl

theorem not_fails (m : Matcher) : (not m a).Fails s e j ↔ a.Fails s e j := by
  unfold Fails not trial
  generalize a s = r
  rcases r with ⟨_ | _ | _, t⟩ <;> exact Iff.rfl

/-- A match of the attempt after which it is made again. -/
def Round (a : Attempt α) (s t : State) : Prop :=
  a.Matches s t ∧ t.index ≠ s.index

theorem repeated_succ_fails (limit : Nat) : (repeated b (limit + 1)).Fails s e j ↔
    b.Fails s e j ∨ ∃ t, b.Round s t ∧ (repeated b limit).Fails t e j := by
  unfold Fails Round Matches
  rw [repeated]
  rcases b s with ⟨_ | _ | _, t⟩
  · by_cases hstop : t.index = s.index
    · simp [hstop, Ended]
    · rcases hrest : repeated b limit t with ⟨_ | _ | _, u⟩ <;> simp [hstop, hrest, Ended]
  · simp [Ended]
  · simp [Ended]

theorem rounds_of_repeated_fails : ∀ {limit : Nat} {s : State}, (repeated b limit).Fails s e j →
    ∃ t, Relation.ReflTransGen b.Round s t ∧ b.Fails t e j
  | 0, _, h => h.elim
  | limit + 1, s, h => by
    rcases (repeated_succ_fails limit).1 h with h | ⟨t, hround, h⟩
    · exact ⟨s, .refl, h⟩
    · obtain ⟨u, hrounds, h⟩ := rounds_of_repeated_fails h
      exact ⟨u, .head hround hrounds, h⟩

/-- **A repetition fails where the attempt does after some rounds**, however many there are. -/
theorem repeatedFrom_fails (hw : Within input b) : (repeatedFrom input b).Fails s e j ↔
    ∃ t, Relation.ReflTransGen b.Round s t ∧ b.Fails t e j := by
  constructor
  · exact rounds_of_repeated_fails
  · rintro ⟨t, hrounds, h⟩
    induction hrounds using Relation.ReflTransGen.head_induction_on with
    | refl => exact (repeated_succ_fails _).2 (.inl h)
    | @head s u hround _ ih =>
      -- the rest is repeated with the limit that is left here, which gives what a limit of its own gives
      refine (repeated_succ_fails _).2 (.inr ⟨u, hround, ?_⟩)
      obtain ⟨⟨ns, hmatch⟩, hmoved⟩ := hround
      obtain ⟨hle, hmax⟩ := hw s u ns hmatch
      have hlimit := @repeated_eq input b hw (input.size - s.index) (input.size - u.index + 1) u (by omega) (by omega)
      unfold Fails
      rw [hlimit]
      exact ih

/-! ## Nodes of their own -/

theorem wrapped_fails (name : String) : (wrapped name b).Fails s e j ↔ b.Fails s e j := by
  unfold Fails wrapped
  generalize b s = r
  rcases r with ⟨_ | _ | _, t⟩ <;> exact Iff.rfl

/-- Whether there is a token before the index and one at it that touches it. -/
def Touching (input : Input) (s : State) : Prop :=
  ∃ before after, s.previous input = some before ∧ input.read s.index = some after ∧ touches before after = true

theorem adjacent_fails (m : Matcher) :
    (adjacent input m b).Fails s e j ↔ Touching input s ∧ b.Fails s e j := by
  have hmiss : ∀ why t, ¬Ended e j ((.backtrack why, t) : Answer Forest × State) := fun _ _ => id
  unfold Touching
  rw [Fails, adjacent]
  rcases s.previous input with _ | before <;> rcases input.read s.index with _ | after
  · simp [hmiss]
  · simp [hmiss]
  · simp [hmiss]
  · by_cases htouch : touches before after = true
    · have hwrapped : Ended e j (wrapped "adjacent" b s) ↔ b.Fails s e j := wrapped_fails "adjacent"
      simpa [htouch] using hwrapped
    · simp [htouch, hmiss]

/-- A token that is taken because the attempt would not match before it. -/
def Skip (input : Input) (a : Attempt α) (s t : State) : Prop :=
  s.index < input.size ∧ ∃ u, trial a s = (.ok none, u) ∧ t = u.goTo (u.index + 1)

theorem skipTo_step_fails : (skipTo b (input.size - s.index)).Fails s e j ↔
    b.Fails s e j ∨ ∃ t, Skip input b s t ∧ (skipTo b (input.size - t.index)).Fails t e j := by
  have hindex := trial_index b s
  rw [← trial_fails (a := b)]
  unfold Fails Skip
  conv_lhs => unfold skipTo
  rcases htrial : trial b s with ⟨error | _ | k, t⟩
  · simp [Ended]
  · have hindex : t.index = s.index := by rwa [htrial] at hindex
    cases hleft : input.size - s.index with
    | zero =>
      have hend : ¬s.index < input.size := by omega
      simp [hend, Ended]
    | succ left =>
      have hlt : s.index < input.size := by omega
      have hnext : input.size - (t.goTo (t.index + 1)).index = left := by
        show input.size - (t.index + 1) = left
        omega
      simp [hlt, hnext]
  · simp [Ended]

theorem skips_of_skipTo_fails : ∀ {left : Nat} {s : State}, left = input.size - s.index → (skipTo b left).Fails s e j →
    ∃ t, Relation.ReflTransGen (Skip input b) s t ∧ b.Fails t e j
  | left, s, hleft, h => by
    subst hleft
    rcases skipTo_step_fails.1 h with h | ⟨t, hskip, h⟩
    · exact ⟨s, .refl, h⟩
    · obtain ⟨u, hskips, h⟩ := skips_of_skipTo_fails rfl h
      exact ⟨u, .head hskip hskips, h⟩
termination_by left => left
decreasing_by
  obtain ⟨hlt, u, htrial, rfl⟩ := hskip
  have hindex : u.index = s.index := by simpa [htrial] using trial_index b s
  show input.size - (u.index + 1) < _
  omega

/-- **A skipping fails where a trial does after some tokens**, however many there are. -/
theorem skipTo_fails : (skipTo b (input.size - s.index)).Fails s e j ↔
    ∃ t, Relation.ReflTransGen (Skip input b) s t ∧ b.Fails t e j := by
  constructor
  · exact skips_of_skipTo_fails rfl
  · rintro ⟨t, hskips, h⟩
    induction hskips using Relation.ReflTransGen.head_induction_on with
    | refl => exact skipTo_step_fails.2 (.inl h)
    | head hskip _ ih => exact skipTo_step_fails.2 (.inr ⟨_, hskip, ih⟩)

theorem skippedWords_fails : (skippedWords input b).Fails s e j ↔
    ∃ t, Relation.ReflTransGen (Skip input b) s t ∧ b.Fails t e j := by
  rw [← skipTo_fails]
  unfold Fails skippedWords
  generalize skipTo b (input.size - s.index) s = r
  rcases r with ⟨_ | _ | _, t⟩ <;> exact Iff.rfl

theorem pair_fails {c : Attempt Forest} :
    (sequence [b, c]).Fails s e j ↔ b.Fails s e j ∨ ∃ t, b.Matches s t ∧ c.Fails t e j := by
  have hlast : ∀ t, (chain [c]).Fails t e j ↔ c.Fails t e j := fun t =>
    chain_cons_fails.trans (or_iff_left (fun ⟨_, _, h⟩ => h))
  rw [sequence, atomic_fails, chain_cons_fails]
  simp only [hlast]

theorem till_fails : (till input b).Fails s e j ↔
    (∃ t, Relation.ReflTransGen (Skip input b) s t ∧ b.Fails t e j) ∨
      ∃ t, (skippedWords input b).Matches s t ∧ b.Fails t e j := by
  rw [till, wrapped_fails, pair_fails, skippedWords_fails]

theorem oneOrMore_fails (hw : Within input b) : (oneOrMore input b).Fails s e j ↔
    b.Fails s e j ∨ ∃ t, b.Matches s t ∧ ∃ u, Relation.ReflTransGen b.Round t u ∧ b.Fails u e j := by
  rw [oneOrMore, pair_fails]
  simp only [repeatedFrom_fails hw]

/-! ## Leaves and rules -/

theorem leaf_not_fails (m : Matcher) (accepts : Token → Bool) : ¬(leaf input m accepts).Fails s e j := by
  unfold Fails leaf
  split
  · split <;> exact id
  · exact id

theorem endOfInput_not_fails : ¬(endOfInput input).Fails s e j := by
  unfold Fails endOfInput
  split <;> exact id

theorem spliced_fails {a : Attempt Node} : (spliced a).Fails s e j ↔ a.Fails s e j := by
  unfold Fails spliced
  generalize a s = r
  rcases r with ⟨_ | _ | _, t⟩ <;> exact Iff.rfl

/-- **A rule fails where its matcher does**, and is left then. -/
theorem around_fails {rule : Rule} (h : b.Balanced input) : (rule.around b).Fails s e j ↔
    ∃ j', b.Fails (s.enter rule.name) e j' ∧ j = j'.record (.left rule.name false s.index) := by
  have hb := h (s.enter rule.name)
  unfold Fails Rule.around
  generalize b (s.enter rule.name) = r at hb ⊢
  rcases r with ⟨_ | _ | error, t⟩
  · simp [Ended, Answer.map]
  · simp [Ended, Answer.map]
  · obtain ⟨-, hindex⟩ := hb
    have hindex : t.index = s.index := hindex
    simp [Ended, Answer.map, Answer.isMatch, State.leave, State.record, hindex, eq_comm]

end Attempt
end LayeredParse
