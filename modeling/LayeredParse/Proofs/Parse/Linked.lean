import LayeredParse.Parse.Matching
import LayeredParse.Proofs.Grammar.Subforms
import LayeredParse.Proofs.Lists
/-!
# Linked — what carries over from combinators to matchers and rules

A relation between the attempts of two parses, with one clause for each combinator (`Attempt.Linked`), holds between the
attempts that a matcher makes in the two (`Matcher.attempt_linked`).  The clause for adjacency, the only combinator that
looks at where tokens are, can be left out for a matcher without it (`Attempt.LinkedApart`).  A property of attempts with
one such clause (`Attempt.Kept`) is the diagonal case: it holds of whatever a matcher of a grammar attempts, at any nesting
(`Grammar.attempt_kept`).
-/
namespace LayeredParse

/-- **A relation between the attempts of two parses that the combinators respect**, adjacency apart.  A leaf looks at the
value and the type of a token only. -/
structure Attempt.LinkedApart (input input' : Input) (R : Attempt Forest → Attempt Forest → Prop) : Prop where
  sequence : ∀ as bs, List.Forall₂ R as bs → R (.sequence as) (.sequence bs)
  firstOf : ∀ as bs, List.Forall₂ R as bs → R (.firstOf as) (.firstOf bs)
  longestOne : ∀ as bs, List.Forall₂ R as bs → R (.longestOne as) (.longestOne bs)
  strictOr : ∀ text as bs, List.Forall₂ R as bs →
    R (.strictOr (.ambiguousAlternatives · text) as) (.strictOr (.ambiguousAlternatives · text) bs)
  optional : ∀ a b, R a b → R (.optional a) (.optional b)
  zeroOrMore : ∀ a b, R a b → R (.zeroOrMore input a) (.zeroOrMore input' b)
  oneOrMore : ∀ a b, R a b → R (.oneOrMore input a) (.oneOrMore input' b)
  next : ∀ a b, R a b → R (.next a) (.next b)
  not : ∀ m a b, R a b → R (.not m a) (.not m b)
  till : ∀ a b, R a b → R (.till input a) (.till input' b)
  leaf : ∀ m accepts, (∀ t u : Token, t.value = u.value → t.type = u.type → accepts t = accepts u) →
    R (.leaf input m accepts) (.leaf input' m accepts)
  endOfInput : R (.endOfInput input) (.endOfInput input')

/-- **A relation between the attempts of two parses that the combinators respect.** -/
structure Attempt.Linked (input input' : Input) (R : Attempt Forest → Attempt Forest → Prop) : Prop
    extends Attempt.LinkedApart input input' R where
  adjacent : ∀ m a b, R a b → R (.adjacent input m a) (.adjacent input' m b)

/-- **A property of attempts that the combinators keep.** -/
structure Attempt.Kept (input : Input) (P : Attempt Forest → Prop) : Prop where
  sequence : ∀ as, (∀ a ∈ as, P a) → P (.sequence as)
  firstOf : ∀ as, (∀ a ∈ as, P a) → P (.firstOf as)
  longestOne : ∀ as, (∀ a ∈ as, P a) → P (.longestOne as)
  strictOr : ∀ tie as, (∀ a ∈ as, P a) → P (.strictOr tie as)
  optional : ∀ a, P a → P (.optional a)
  zeroOrMore : ∀ a, P a → P (.zeroOrMore input a)
  oneOrMore : ∀ a, P a → P (.oneOrMore input a)
  next : ∀ a, P a → P (.next a)
  not : ∀ m a, P a → P (.not m a)
  adjacent : ∀ m a, P a → P (.adjacent input m a)
  till : ∀ a, P a → P (.till input a)
  leaf : ∀ m accepts, P (.leaf input m accepts)
  endOfInput : P (.endOfInput input)

theorem Matcher.attempts_eq_map (input : Input) (call : RuleKey → Attempt Node) : ∀ (ms : List Matcher),
    Matcher.attempts input call ms = ms.map (Matcher.attempt input call)
  | [] => rfl
  | m :: ms => by rw [Matcher.attempts, Matcher.attempts_eq_map input call ms, List.map_cons]

/-- **The attempts that a matcher makes in two parses are linked** if those that enter a rule are, and adjacency is
respected where the matcher has it. -/
theorem Matcher.attempt_linkedApart {input input' : Input} {R : Attempt Forest → Attempt Forest → Prop}
    (h : Attempt.LinkedApart input input' R) {call call' : RuleKey → Attempt Node}
    (hcall : ∀ key, R (.spliced (call key)) (.spliced (call' key))) (m : Matcher)
    (hadjacent : ∀ f ∈ m.subforms, ∀ item, f = .adjacent item →
      ∀ a b, R a b → R (.adjacent input item a) (.adjacent input' item b)) :
    R (m.attempt input call) (m.attempt input' call') := by
  have each : ∀ ms : List Matcher, (∀ m ∈ ms, R (m.attempt input call) (m.attempt input' call')) →
      List.Forall₂ R (Matcher.attempts input call ms) (Matcher.attempts input' call' ms) := by
    intro ms hms
    rw [Matcher.attempts_eq_map, Matcher.attempts_eq_map, List.forall₂_map_left_iff, List.forall₂_map_right_iff]
    exact List.forall₂_same.2 hms
  induction m using Form.parts_induction with
  | sequence items ih =>
    exact h.sequence _ _ (each items fun m hm => ih m hm (Form.forall_mem_item hadjacent hm))
  | firstOf alternatives ih =>
    exact h.firstOf _ _ (each alternatives fun m hm => ih m hm (Form.forall_mem_item hadjacent hm))
  | longestOne alternatives ih =>
    exact h.longestOne _ _ (each alternatives fun m hm => ih m hm (Form.forall_mem_item hadjacent hm))
  | strictOr alternatives ih =>
    exact h.strictOr _ _ _ (each alternatives fun m hm => ih m hm (Form.forall_mem_item hadjacent hm))
  | optional item ih => exact h.optional _ _ (ih (Form.forall_mem_item hadjacent List.mem_cons_self))
  | zeroOrMore item ih => exact h.zeroOrMore _ _ (ih (Form.forall_mem_item hadjacent List.mem_cons_self))
  | oneOrMore item ih => exact h.oneOrMore _ _ (ih (Form.forall_mem_item hadjacent List.mem_cons_self))
  | next item ih => exact h.next _ _ (ih (Form.forall_mem_item hadjacent List.mem_cons_self))
  | not item ih => exact h.not _ _ _ (ih (Form.forall_mem_item hadjacent List.mem_cons_self))
  | adjacent item ih =>
    exact hadjacent _ (Form.mem_subforms_self _) item rfl _ _ (ih (Form.forall_mem_item hadjacent List.mem_cons_self))
  | till terminator ih => exact h.till _ _ (ih (Form.forall_mem_item hadjacent List.mem_cons_self))
  | literal value => exact h.leaf _ _ (fun t u hv _ => by simp only [hv])
  | regex pattern => exact h.leaf _ _ (fun t u hv _ => by simp only [hv])
  | tokenType name => exact h.leaf _ _ (fun t u _ ht => by simp only [ht])
  | anyToken => exact h.leaf _ _ (fun t u _ _ => rfl)
  | endOfInput => exact h.endOfInput
  | rule key => exact hcall key

/-- **The attempts that a matcher makes in two parses are linked** if those that enter a rule are. -/
theorem Matcher.attempt_linked {input input' : Input} {R : Attempt Forest → Attempt Forest → Prop}
    (h : Attempt.Linked input input' R) {call call' : RuleKey → Attempt Node}
    (hcall : ∀ key, R (.spliced (call key)) (.spliced (call' key))) (m : Matcher) :
    R (m.attempt input call) (m.attempt input' call') :=
  attempt_linkedApart h.toLinkedApart hcall m (fun _ _ item _ => h.adjacent item)

/-- A property that the combinators keep is a relation that looks at one side only. -/
theorem Attempt.Kept.linked {input : Input} {P : Attempt Forest → Prop} (h : Attempt.Kept input P) :
    Attempt.Linked input input (fun a _ => P a) where
  sequence _ _ hs := h.sequence _ (List.forall₂_left_mem hs)
  firstOf _ _ hs := h.firstOf _ (List.forall₂_left_mem hs)
  longestOne _ _ hs := h.longestOne _ (List.forall₂_left_mem hs)
  strictOr _ _ _ hs := h.strictOr _ _ (List.forall₂_left_mem hs)
  optional _ _ ha := h.optional _ ha
  zeroOrMore _ _ ha := h.zeroOrMore _ ha
  oneOrMore _ _ ha := h.oneOrMore _ ha
  next _ _ ha := h.next _ ha
  not _ _ _ ha := h.not _ _ ha
  adjacent _ _ _ ha := h.adjacent _ _ ha
  till _ _ ha := h.till _ ha
  leaf _ _ _ := h.leaf _ _
  endOfInput := h.endOfInput

namespace Grammar

variable {g : Grammar} {input : Input} {key : RuleKey} {rule : Rule}

theorem enter_foreign (hr : g.rule? key = none) (room : Nat) :
    g.enter input room key = fun s => (.fatal (.foreignRule key), s) := by
  funext s
  cases room <;> simp [enter, hr]

theorem enter_zero (hr : g.rule? key = some rule) :
    g.enter input 0 key = fun s => (.fatal (.recursionLimit rule.name input.config.maxDepth), s) := by
  funext s
  simp [enter, hr]

theorem enter_succ (hr : g.rule? key = some rule) (room : Nat) :
    g.enter input (room + 1) key = rule.around (rule.matcher.attempt input (g.enter input room)) := by
  funext s
  simp [enter, hr]

/-- **A kept property holds of whatever a matcher of the grammar attempts**, if it also holds of a refusal and carries
over to a rule from what the rule attempts. -/
theorem attempt_kept {P : Attempt Forest → Prop} (h : Attempt.Kept input P)
    (refusal : ∀ error, P (fun s => (.fatal error, s)))
    (around : ∀ (rule : Rule) (a : Attempt Forest), P a → P (.spliced (rule.around a))) (room : Nat) (m : Matcher) :
    P (m.attempt input (g.enter input room)) := by
  have matching : ∀ room, (∀ key, P (.spliced (g.enter input room key))) →
      ∀ m, P (Matcher.attempt input (g.enter input room) m) := fun room hcall m =>
    @Matcher.attempt_linked input input (fun a _ => P a) h.linked (g.enter input room) (g.enter input room) hcall m
  induction room generalizing m with
  | zero =>
    refine matching 0 (fun key => ?_) m
    cases hr : g.rule? key with
    | none =>
      rw [enter_foreign hr]
      exact refusal _
    | some rule =>
      rw [enter_zero hr]
      exact refusal _
  | succ room ih =>
    refine matching (room + 1) (fun key => ?_) m
    cases hr : g.rule? key with
    | none =>
      rw [enter_foreign hr]
      exact refusal _
    | some rule =>
      rw [enter_succ hr]
      exact around rule _ (ih rule.matcher)

end Grammar
end LayeredParse
