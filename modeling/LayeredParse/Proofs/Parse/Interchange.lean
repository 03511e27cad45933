import LayeredParse.Parse.Run
import LayeredParse.Proofs.Parse.Echo
import LayeredParse.Proofs.Parse.Room
import Mathlib.Data.List.Forall2
/-!
# Interchange — matchers that can stand for each other

Two matchers are interchangeable if their attempts echo each other, whatever balanced rules they enter
(`Matcher.Interchange`).  That is an equivalence, and a congruence: matchers made alike of interchangeable ones are
interchangeable.  If the rules of two grammars have the same names and policies under each key and interchangeable
matchers, entering one echoes entering the other, however deep (`Grammar.Interchange.enter`), and the outcomes of all
parses are the same, up to what is not seen of an error (`Grammar.Interchange.parseRule`).
-/
namespace LayeredParse

open Attempt (Balanced Echo Echoed)

variable {J : Journal → Journal → Prop} {input : Input}

/-- Ways to enter rules that are balanced and echo themselves. -/
structure Steadfast (J : Journal → Journal → Prop) (input : Input) (call : RuleKey → Attempt Node) : Prop where
  balanced : ∀ key, (call key).Balanced input
  echo : ∀ key, Echo J (call key) (call key)

namespace Matcher

theorem attempt_balanced {call : RuleKey → Attempt Node} (h : ∀ key, (call key).Balanced input) (m : Matcher) :
    (m.attempt input call).Balanced input :=
  @attempt_linked input input (fun a _ => a.Balanced input) Attempt.balanced_kept.linked call call
    (fun key => Attempt.spliced_balanced (h key)) m

theorem attempt_echo (hJ : Journal.Link J) {call call' : RuleKey → Attempt Node} (h : ∀ key, Echo J (call key) (call' key))
    (m : Matcher) : Echo J (m.attempt input call) (m.attempt input call') :=
  attempt_linked (Attempt.echo_linked hJ) (fun key => Attempt.spliced_echo (h key)) m

/-- **Matchers whose attempts echo each other**, whatever rules they enter. -/
def Interchange (J : Journal → Journal → Prop) (input : Input) (m n : Matcher) : Prop :=
  ∀ call, Steadfast J input call → Echo J (m.attempt input call) (n.attempt input call)

namespace Interchange

variable {m n o : Matcher} {ms ns : List Matcher}

theorem refl (hJ : Journal.Link J) (m : Matcher) : m.Interchange J input m :=
  fun _ hcall => attempt_echo hJ hcall.echo m

theorem of_eq (hJ : Journal.Link J) (h : ∀ call, m.attempt input call = n.attempt input call) : m.Interchange J input n :=
  fun call hcall => h call ▸ refl hJ m call hcall

theorem symm (hJ : Journal.Link J) (h : m.Interchange J input n) : n.Interchange J input m :=
  fun call hcall => (h call hcall).symm hJ

theorem trans (hJ : Journal.Link J) (h : m.Interchange J input n) (h' : n.Interchange J input o) :
    m.Interchange J input o :=
  fun call hcall => (h call hcall).trans hJ (h' call hcall)

/-! ## Matchers made alike -/

theorem attempts (h : List.Forall₂ (Interchange J input) ms ns) {call : RuleKey → Attempt Node}
    (hcall : Steadfast J input call) :
    List.Forall₂ (Echo J) (Matcher.attempts input call ms) (Matcher.attempts input call ns) := by
  rw [attempts_eq_map, attempts_eq_map, List.forall₂_map_left_iff, List.forall₂_map_right_iff]
  exact h.imp fun _ _ hmn => hmn call hcall

theorem sequence (h : List.Forall₂ (Interchange J input) ms ns) :
    Interchange J input (.sequence ms) (.sequence ns) :=
  fun _ hcall => Attempt.sequence_echo (attempts h hcall)

theorem firstOf (h : List.Forall₂ (Interchange J input) ms ns) : Interchange J input (.firstOf ms) (.firstOf ns) :=
  fun _ hcall => Attempt.firstOf_echo (attempts h hcall)

theorem longestOne (h : List.Forall₂ (Interchange J input) ms ns) :
    Interchange J input (.longestOne ms) (.longestOne ns) :=
  fun _ hcall => Attempt.longestOne_echo (attempts h hcall)

theorem strictOr (h : List.Forall₂ (Interchange J input) ms ns) : Interchange J input (.strictOr ms) (.strictOr ns) :=
  fun _ hcall => Attempt.strictOr_echo _ _ (attempts h hcall)

theorem optional (h : m.Interchange J input n) : Interchange J input (.optional m) (.optional n) :=
  fun call hcall => Attempt.optional_echo (h call hcall)

theorem zeroOrMore (h : m.Interchange J input n) : Interchange J input (.zeroOrMore m) (.zeroOrMore n) :=
  fun call hcall => Attempt.zeroOrMore_echo (h call hcall)

theorem oneOrMore (h : m.Interchange J input n) : Interchange J input (.oneOrMore m) (.oneOrMore n) :=
  fun call hcall => Attempt.oneOrMore_echo (h call hcall)

theorem next (h : m.Interchange J input n) : Interchange J input (.next m) (.next n) :=
  fun call hcall => Attempt.next_echo (h call hcall)

theorem not (hJ : Journal.Link J) (h : m.Interchange J input n) : Interchange J input (.not m) (.not n) :=
  fun call hcall => Attempt.not_echo hJ m n (h call hcall)

theorem adjacent (hJ : Journal.Link J) (h : m.Interchange J input n) : Interchange J input (.adjacent m) (.adjacent n) :=
  fun call hcall => Attempt.adjacent_echo hJ m n (h call hcall)

theorem till (h : m.Interchange J input n) : Interchange J input (.till m) (.till n) :=
  fun call hcall => Attempt.till_echo (h call hcall)

end Interchange
end Matcher

/-! ## Rules and grammars -/

/-- Rules of one name and policy, with interchangeable matchers. -/
structure Rule.Interchange (J : Journal → Journal → Prop) (input : Input) (rule rule' : Rule) : Prop where
  name_eq : rule.name = rule'.name
  policy_eq : rule.policy = rule'.policy
  matcher : rule.matcher.Interchange J input rule'.matcher

namespace Grammar

variable {g g' : Grammar}

/-- Grammars with interchangeable rules under each key. -/
def Interchange (J : Journal → Journal → Prop) (input : Input) (g g' : Grammar) : Prop :=
  ∀ key, Option.Rel (Rule.Interchange J input) (g.rule? key) (g'.rule? key)

/-- Rules that echo those of another grammar echo themselves. -/
theorem enter_steadfast (hJ : Journal.Link J) {room : Nat}
    (h : ∀ key, Echo J (g.enter input room key) (g'.enter input room key)) : Steadfast J input (g.enter input room) where
  balanced := enter_balanced g input room
  echo key := (h key).trans hJ ((h key).symm hJ)

/-- **Entering a rule echoes entering the one that it is interchanged with.** -/
theorem Interchange.enter (hJ : Journal.Link J) (h : g.Interchange J input g') : ∀ (room : Nat) (key : RuleKey),
    Echo J (g.enter input room key) (g'.enter input room key)
  | room, key => by
    have hrel := h key
    generalize hr : g.rule? key = r at hrel
    generalize hr' : g'.rule? key = r' at hrel
    cases hrel with
    | none =>
      rw [enter_foreign hr, enter_foreign hr']
      exact fun s s' hs => .fatal rfl hs
    | @some rule rule' hrule =>
      obtain ⟨hname, hpolicy, hmatcher⟩ := hrule
      cases room with
      | zero =>
        rw [enter_zero hr, enter_zero hr', hname]
        exact fun s s' hs => .fatal rfl hs
      | succ room =>
        have inside := Interchange.enter hJ h room
        rw [enter_succ hr, enter_succ hr']
        -- the other matcher in the same rules, and then the same matcher in the other rules
        exact Attempt.around_echo hJ hname hpolicy
          ((hmatcher _ (enter_steadfast hJ inside)).trans hJ (Matcher.attempt_echo hJ inside rule'.matcher))

/-- **Interchanged rules parse the same**: the trees are equal, and so is what `f` sees of the errors, if it does not see
the texts in them and takes failures of linked states to be the same. -/
theorem Interchange.parseRule {β : Type} {f : ParseError → β} {config : ParserConfig} {tokens : List Token}
    (hJ : Journal.Link J) (h : g.Interchange J { tokens := tokens.toArray, config } g') (hf : ∀ e, f e.unworded = f e)
    (hfailure : ∀ {s s' : State}, s.Echoes J s' →
      f (s.failure { tokens := tokens.toArray, config }) = f (s'.failure { tokens := tokens.toArray, config }))
    (key : RuleKey) :
    (g.parseRule key config tokens).mapError f = (g'.parseRule key config tokens).mapError f := by
  have hrun := h.enter hJ config.maxDepth key {} {} (.refl hJ {})
  unfold Grammar.parseRule run matchRule
  simp only [Nat.sub_zero]
  generalize g.enter _ config.maxDepth key {} = r at hrun ⊢
  generalize g'.enter _ config.maxDepth key {} = r' at hrun ⊢
  cases hrun with
  | @matched node t t' ht =>
    simp only [State.atEnd, ← ht.index_eq]
    by_cases hend : Input.size { tokens := tokens.toArray, config } ≤ t.index
    · simp only [hend, decide_true, if_true]
    · simp only [hend, decide_false, Bool.false_eq_true, if_false]
      exact congrArg Except.error (hfailure (ht.miss hJ _ _))
  | backtrack ht => exact congrArg Except.error (hfailure ht)
  | @fatal e e' t t' he ht =>
    have hseen : f e = f e' := by rw [← hf e, ← hf e', he]
    exact congrArg Except.error hseen

end Grammar
end LayeredParse
