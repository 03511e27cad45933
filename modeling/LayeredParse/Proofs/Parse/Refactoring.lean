import LayeredParse.Proofs.Parse.Interchange
import Mathlib.Logic.Relation
/-!
# Refactoring — laws of matchers, anywhere in a grammar

Five laws say how matchers can be written differently (`Matcher.Law`): a repetition can be unrolled once, an option is an
alternative that takes nothing, sequences in sequences and alternatives in alternatives can be spliced into what is around
them, and a lookahead is a refusal of a refusal.  A law may be applied to any form in a form (`Form.Rewrite`), as often as
wanted and in either direction.  Four of the laws are equalities of attempts; the fifth writes down more in the journal.
So grammars that are rewritten rule by rule parse everything to the same tree or fail with an error of the same kind
(`parseRule_rewritten`).
-/
namespace LayeredParse

/-- A form without one of the forms that it is made of. -/
inductive Form.Frame (ρ : Type) where
  | sequence (before after : List (Form ρ))
  | firstOf (before after : List (Form ρ))
  | longestOne (before after : List (Form ρ))
  | strictOr (before after : List (Form ρ))
  | optional
  | zeroOrMore
  | oneOrMore
  | next
  | not
  | adjacent
  | till

/-- The form with `m` in the place that is left. -/
def Form.Frame.fill {ρ : Type} (m : Form ρ) : Form.Frame ρ → Form ρ
  | sequence before after => .sequence (before ++ m :: after)
  | firstOf before after => .firstOf (before ++ m :: after)
  | longestOne before after => .longestOne (before ++ m :: after)
  | strictOr before after => .strictOr (before ++ m :: after)
  | optional => .optional m
  | zeroOrMore => .zeroOrMore m
  | oneOrMore => .oneOrMore m
  | next => .next m
  | not => .not m
  | adjacent => .adjacent m
  | till => .till m

/-- **One use of a law**, on a form or somewhere in it. -/
inductive Form.Rewrite {ρ : Type} (L : Form ρ → Form ρ → Prop) : Form ρ → Form ρ → Prop
  | law {m n : Form ρ} (h : L m n) : Rewrite L m n
  | inside {m n : Form ρ} (frame : Frame ρ) (h : Rewrite L m n) : Rewrite L (frame.fill m) (frame.fill n)

/-- Any number of uses of a law, in either direction. -/
def Form.Rewritten {ρ : Type} (L : Form ρ → Form ρ → Prop) : Form ρ → Form ρ → Prop :=
  Relation.EqvGen (Form.Rewrite L)

/-- **A grammar some of whose matchers are rewritten**: under each key there is a rule of the same name and policy. -/
def Grammar.Rewritten (L : Matcher → Matcher → Prop) (g g' : Grammar) : Prop :=
  ∀ key, Option.Rel (fun rule rule' => rule.name = rule'.name ∧ rule.policy = rule'.policy ∧
    Form.Rewritten L rule.matcher rule'.matcher) (g.rule? key) (g'.rule? key)

/-- **The laws of matchers.** -/
inductive Matcher.Law : Matcher → Matcher → Prop
  | oneOrMore (m : Matcher) : Law (.oneOrMore m) (.sequence [m, .zeroOrMore m])
  | optional (m : Matcher) : Law (.optional m) (.firstOf [m, .sequence []])
  | sequence (before items after : List Matcher) :
      Law (.sequence (before ++ .sequence items :: after)) (.sequence (before ++ items ++ after))
  | firstOf (before alternatives after : List Matcher) :
      Law (.firstOf (before ++ .firstOf alternatives :: after)) (.firstOf (before ++ alternatives ++ after))
  | next (m : Matcher) : Law (.next m) (.not (.not m))

/-! ## The laws for attempts -/

namespace Attempt

variable {α : Type} {input : Input}

theorem chain_append : ∀ (as bs : List (Attempt Forest)), chain (as ++ bs) = chain (chain as :: bs)
  | [], bs => by
    funext s
    simp only [chain, List.nil_append]
    rcases chain bs s with ⟨_ | _ | _, t⟩ <;> rfl
  | a :: as, bs => by
    funext s
    simp only [List.cons_append, chain, chain_append as bs]
    rcases a s with ⟨first | _ | _, t⟩
    · simp only
      rcases chain as t with ⟨others | _ | _, u⟩
      · simp only
        rcases chain bs u with ⟨_ | _ | _, v⟩
        · simp only [List.append_assoc]
        · rfl
        · rfl
      · rfl
      · rfl
    · rfl
    · rfl

theorem chain_cons_congr (a : Attempt Forest) {as bs : List (Attempt Forest)} (h : chain as = chain bs) :
    chain (a :: as) = chain (a :: bs) := by
  funext s
  simp only [chain, h]

/-- **Within a sequence it makes no difference whether an item goes back when it fails**, as the sequence goes back. -/
theorem sequence_atomic (before after : List (Attempt Forest)) (a : Attempt Forest) :
    sequence (before ++ atomic a :: after) = sequence (before ++ a :: after) := by
  funext s
  simp only [sequence, chain_append before, atomic, chain]
  rcases chain before s with ⟨first | _ | _, t⟩
  · simp only
    rcases a t with ⟨second | _ | _, u⟩ <;> rfl
  · rfl
  · rfl

theorem sequence_sequence (before items after : List (Attempt Forest)) :
    sequence (before ++ sequence items :: after) = sequence (before ++ items ++ after) := by
  have hitems : chain (before ++ chain items :: after) = chain (before ++ items ++ after) := by
    rw [List.append_assoc, chain_append before, chain_append before]
    exact chain_cons_congr _ (chain_append items after).symm
  calc sequence (before ++ atomic (chain items) :: after)
      = sequence (before ++ chain items :: after) := sequence_atomic before after (chain items)
    _ = sequence (before ++ items ++ after) := congrArg atomic hitems

theorem oneOrMore_eq (a : Attempt Forest) : oneOrMore input a = sequence [a, zeroOrMore input a] :=
  (sequence_atomic [a] [] (repeatedFrom input a)).symm

theorem optional_eq (a : Attempt Forest) : optional a = firstOf [a, sequence []] := by
  funext s
  simp only [optional, firstOf]
  rcases a s with ⟨_ | _ | _, t⟩ <;> rfl

theorem firstOf_append : ∀ (as bs : List (Attempt α)), firstOf (as ++ bs) = firstOf (firstOf as :: bs)
  | [], _ => rfl
  | a :: as, bs => by
    funext s
    simp only [List.cons_append, firstOf, firstOf_append as bs]
    rcases a s with ⟨_ | _ | _, t⟩ <;> rfl

theorem firstOf_firstOf (before alternatives after : List (Attempt α)) :
    firstOf (before ++ firstOf alternatives :: after) = firstOf (before ++ alternatives ++ after) := by
  funext s
  rw [List.append_assoc, firstOf_append before, firstOf_append before, firstOf, firstOf, firstOf_append alternatives]

theorem trial_not (m : Matcher) (a : Attempt α) (s : State) : trial (not m a) s =
    match trial a s with
    | (.error e, t) => (.error e, t)
    | (.ok (some _), t) => (.ok none, t.miss (.notMatching m))
    | (.ok none, t) => (.ok (some s.index), t) := by
  have hindex := trial_index a s
  rw [trial, not]
  generalize trial a s = r at hindex ⊢
  rcases r with ⟨e | _ | there, t⟩ <;> have hindex : t.index = s.index := hindex
  · simp only [State.goTo_eq_self hindex]
  · simp only [State.goTo_eq_self hindex, hindex]
  · have hmiss : (t.miss (.notMatching m)).index = s.index := hindex
    simp only [State.goTo_eq_self hmiss]

/-- **A lookahead does what a refusal of a refusal does**, but for what is expected. -/
theorem next_echo_not_not (m n : Matcher) {a : Attempt Forest} (h : Echo (fun _ _ => True) a a) :
    Echo (fun _ _ => True) (next a) (not m (not n a)) := by
  intro s s' hs
  have ht := trial_echoed h hs
  rw [next, not, trial_not]
  generalize trial a s = r at ht ⊢
  generalize trial a s' = r' at ht ⊢
  cases ht with
  | @found reached _ t t' heq ht =>
    subst heq
    rcases reached with _ | there
    · exact .backtrack ⟨ht.index_eq, trivial⟩
    · exact .matched ⟨ht.index_eq, trivial⟩
  | error he ht => exact .fatal he ht

end Attempt

/-! ## The laws for matchers, rules and grammars -/

namespace Matcher.Interchange

variable {input : Input} {m n : Matcher}

/-- **Matchers that a law equates are interchangeable.** -/
theorem law (h : Law m n) : m.Interchange (fun _ _ => True) input n := by
  cases h with
  | oneOrMore m => exact of_eq Attempt.blind_link fun call => Attempt.oneOrMore_eq (m.attempt input call)
  | optional m => exact of_eq Attempt.blind_link fun call => Attempt.optional_eq (m.attempt input call)
  | sequence before items after =>
    refine of_eq Attempt.blind_link fun call => ?_
    simp only [Matcher.attempt, attempts_eq_map, List.map_append, List.map_cons]
    exact Attempt.sequence_sequence _ _ _
  | firstOf before alternatives after =>
    refine of_eq Attempt.blind_link fun call => ?_
    simp only [Matcher.attempt, attempts_eq_map, List.map_append, List.map_cons]
    exact Attempt.firstOf_firstOf _ _ _
  | next m => exact fun call hcall => Attempt.next_echo_not_not (.not m) m (refl Attempt.blind_link m call hcall)

theorem fill {J : Journal → Journal → Prop} (hJ : Journal.Link J) (h : m.Interchange J input n) (frame : Form.Frame Pattern) :
    Interchange J input (frame.fill m) (frame.fill n) := by
  have each : ∀ before after : List Matcher,
      List.Forall₂ (Interchange J input) (before ++ m :: after) (before ++ n :: after) := fun before after =>
    List.rel_append (List.forall₂_same.2 fun m _ => refl hJ m) (.cons h (List.forall₂_same.2 fun m _ => refl hJ m))
  cases frame with
  | sequence before after => exact sequence (each before after)
  | firstOf before after => exact firstOf (each before after)
  | longestOne before after => exact longestOne (each before after)
  | strictOr before after => exact strictOr (each before after)
  | optional => exact optional h
  | zeroOrMore => exact zeroOrMore h
  | oneOrMore => exact oneOrMore h
  | next => exact next h
  | not => exact not hJ h
  | adjacent => exact adjacent hJ h
  | till => exact till h

/-- **Rewritten matchers are interchangeable.** -/
theorem rewritten (h : Form.Rewritten Law m n) : m.Interchange (fun _ _ => True) input n := by
  induction h with
  | rel m n hstep =>
    induction hstep with
    | law h => exact law h
    | inside frame _ ih => exact fill Attempt.blind_link ih frame
  | refl m => exact refl Attempt.blind_link m
  | symm m n _ ih => exact ih.symm Attempt.blind_link
  | trans m n o _ _ ih ih' => exact ih.trans Attempt.blind_link ih'

end Matcher.Interchange

/-- What kind of failure a parse ends in; all failures to find a way on are of one kind. -/
inductive ParseError.Kind where
  | unexpected
  | ambiguous (index : Nat)
  | tooDeep (rule : String) (limit : Nat)
  | foreign (key : RuleKey)
  deriving DecidableEq, Repr

def ParseError.kind : ParseError → ParseError.Kind
  | unexpectedToken .. | unexpectedEnd .. => .unexpected
  | ambiguousAlternatives index _ => .ambiguous index
  | recursionLimit rule limit => .tooDeep rule limit
  | foreignRule key => .foreign key

theorem ParseError.kind_unworded (e : ParseError) : e.unworded.kind = e.kind := by
  cases e <;> rfl

theorem State.failure_kind (input : Input) (s : State) : (s.failure input).kind = .unexpected := by
  unfold State.failure
  dsimp only
  split <;> rfl

/-- **A grammar that is rewritten by the laws parses the same.**

From any rule, with any configuration and any tokens, it gives the same tree, or an error of the same kind: there is no
way on for either, or both come upon an ambiguity at the same index, or to the limit of depth in the same rule. -/
theorem Grammar.parseRule_rewritten {g g' : Grammar} (h : g.Rewritten Matcher.Law g') (key : RuleKey) (config : ParserConfig)
    (tokens : List Token) :
    (g.parseRule key config tokens).mapError ParseError.kind =
      (g'.parseRule key config tokens).mapError ParseError.kind := by
  have hrules : g.Interchange (fun _ _ => True) { tokens := tokens.toArray, config } g' := by
    intro key
    have hrel := h key
    generalize g.rule? key = r at hrel ⊢
    generalize g'.rule? key = r' at hrel ⊢
    cases hrel with
    | none => exact .none
    | some hrule => exact .some ⟨hrule.1, hrule.2.1, .rewritten hrule.2.2⟩
  refine hrules.parseRule Attempt.blind_link ParseError.kind_unworded (fun {s s'} _ => ?_) key
  rw [State.failure_kind, State.failure_kind]

/-- A list in brackets: its option and its repetition are written differently, the latter in two steps.  The end of input
after an item is one kind of failure with a token that does not go on the list. -/
theorem Grammar.parseRule_rewritten_brackets : ∃ (g g' : Grammar) (tokens broken : List Token) (tree : Node),
    g.Rewritten Matcher.Law g' ∧ g.parseRule 0 {} tokens = .ok tree ∧ (g'.parseRule 0 {} tokens).mapError ParseError.kind = .ok tree ∧
      g.parseRule 0 {} broken = .error (.unexpectedEnd 2 ["\"item\"", "\"]\""]) ∧
      (g'.parseRule 0 {} broken).mapError ParseError.kind = .error .unexpected := by
  let item : Matcher := .literal "item"
  let again : Matcher := .zeroOrMore item
  let g : Grammar := ⟨#[⟨"list", .sequence [.literal "[", .optional (.rule 1), .literal "]"], .never⟩,
    ⟨"items", .oneOrMore item, .never⟩], 0⟩
  let g' : Grammar := ⟨#[⟨"list", .sequence [.literal "[", .firstOf [.rule 1, .sequence []], .literal "]"], .never⟩,
    ⟨"items", .sequence [.sequence [item], again], .never⟩], 0⟩
  have hlist : Form.Rewrite Matcher.Law (.sequence [.literal "[", .optional (.rule 1), .literal "]"])
      (.sequence [.literal "[", .firstOf [.rule 1, .sequence []], .literal "]"]) :=
    .inside (.sequence [.literal "["] [.literal "]"]) (.law (.optional (.rule 1)))
  have hsplice : Matcher.Law (.sequence [.sequence [item], again]) (.sequence [item, again]) := .sequence [] [item] [again]
  have hitems : Form.Rewritten Matcher.Law (.oneOrMore item) (.sequence [.sequence [item], again]) :=
    .trans _ _ _ (.rel _ _ (.law (.oneOrMore item))) (.symm _ _ (.rel _ _ (.law hsplice)))
  have h : g.Rewritten Matcher.Law g' := by
    intro key
    match key with
    | 0 => exact .some ⟨rfl, rfl, .rel _ _ hlist⟩
    | 1 => exact .some ⟨rfl, rfl, hitems⟩
    | _ + 2 => exact .none
  let token : String → Nat → Token := fun value column => ⟨value, TokenType.identifier, 1, column, ⟨column, column + 1⟩⟩
  let tokens : List Token := [token "[" 0, token "item" 1, token "item" 6, token "]" 10]
  have htokens := g.parseRule_rewritten h 0 {} tokens
  have hbroken := g.parseRule_rewritten h 0 {} (tokens.take 2)
  exact ⟨g, g', tokens, tokens.take 2, _, h, rfl, htokens.symm, rfl, hbroken.symm⟩

end LayeredParse
