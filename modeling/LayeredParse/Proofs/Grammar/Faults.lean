import LayeredParse.Proofs.Grammar.Closed
import Mathlib.Data.List.Forall2
/-!
# Faults — what is wrong with a draft that cannot be built

A rule key that is too great and a pattern that does not compile are the faults of an expression (`Form.fault`), in the
order in which they are written; a definition without a body is at fault as a whole.  An expression can be resolved if it
has no fault, and a draft can be built if none of its definitions has one; if there are faults, the first is the error
(`resolve_refusal`, `buildEach_refusal`).
-/
namespace LayeredParse

/-- The error, if it is one. -/
def refusal? {ε α : Type} : Except ε α → Option ε
  | .error e => some e
  | .ok _ => none

section Refusal

variable {ε α β : Type}

@[simp] theorem refusal?_error (e : ε) : refusal? (.error e : Except ε α) = some e := rfl

@[simp] theorem refusal?_ok (a : α) : refusal? (.ok a : Except ε α) = none := rfl

@[simp] theorem refusal?_map (f : α → β) (x : Except ε α) : refusal? (x.map f) = refusal? x := by
  cases x <;> rfl

end Refusal

namespace Form

variable {engine : Engine} {name : String} {count : Nat}

/-- What is wrong with an expression itself in a grammar of `count` rules. -/
def fault (engine : Engine) (name : String) (count : Nat) : Expr → Option GrammarError
  | rule key => if key < count then none else some (.unknownRule name key)
  | regex pattern => if (Pattern.compile? engine pattern).isSome then none else some (.invalidRegex name pattern)
  | _ => none

/-- The first fault in an expression. -/
def firstFault (engine : Engine) (name : String) (count : Nat) (e : Expr) : Option GrammarError :=
  e.subforms.findSome? (fault engine name count)

theorem firstFault_eq (e : Expr) :
    firstFault engine name count e = (fault engine name count e).or (e.items.findSome? (firstFault engine name count)) := by
  have each : ∀ es : List Expr, (es.flatMap subforms).findSome? (fault engine name count) =
      es.findSome? (firstFault engine name count) := by
    intro es
    induction es with
    | nil => rfl
    | cons e es ih =>
      rw [List.flatMap_cons, List.findSome?_append, ih, List.findSome?_cons, firstFault]
      cases e.subforms.findSome? (fault engine name count) <;> rfl
  rw [firstFault, subforms_eq, List.findSome?_cons, each]
  cases fault engine name count e <;> rfl

theorem resolveEach_refusal : ∀ {items : List Expr},
    (∀ item ∈ items, refusal? (resolve engine name count item) = firstFault engine name count item) →
      refusal? (resolveEach engine name count items) = items.findSome? (firstFault engine name count)
  | [], _ => rfl
  | item :: items, h => by
    obtain ⟨hitem, hitems⟩ := List.forall_mem_cons.1 h
    rw [resolveEach, List.findSome?_cons, ← resolveEach_refusal hitems, ← hitem]
    cases resolve engine name count item <;> simp

/-- **An expression is refused with its first fault**, and resolved if it has none. -/
theorem resolve_refusal (e : Expr) : refusal? (resolve engine name count e) = firstFault engine name count e := by
  induction e using Form.parts_induction with
  | sequence items ih | firstOf items ih | longestOne items ih | strictOr items ih =>
    rw [resolve, refusal?_map, resolveEach_refusal ih, firstFault_eq]
    rfl
  | optional item ih | zeroOrMore item ih | oneOrMore item ih | next item ih | not item ih | adjacent item ih
  | till item ih =>
    rw [resolve, refusal?_map, ih, ← List.findSome?_singleton (f := firstFault engine name count)]
    symm
    exact firstFault_eq _
  | regex pattern =>
    rw [resolve, firstFault_eq, fault]
    cases Pattern.compile? engine pattern <;> rfl
  | rule key =>
    rw [resolve, firstFault_eq, fault]
    by_cases h : key < count <;> simp [h, items]
  | literal value | tokenType type | anyToken | endOfInput => rfl

end Form

/-- What the definition will be when everything that wraps it has been put around its body. -/
def Definition.wrapped? (d : Definition) : Option Expr :=
  d.body.map fun body => d.wraps.foldl (fun body f => f body) body

/-- The first thing that is wrong with a definition in a grammar of `count` rules. -/
def Definition.firstFault (engine : Engine) (d : Definition) (count : Nat) : Option GrammarError :=
  match d.wrapped? with
  | none => some (.notDefined d.name)
  | some e => e.firstFault engine d.name count

theorem Definition.build_refusal (engine : Engine) (d : Definition) (count : Nat) :
    refusal? (d.build count engine) = d.firstFault engine count := by
  unfold build firstFault wrapped?
  cases d.body with
  | none => rfl
  | some body => exact (refusal?_map _ _).trans (Form.resolve_refusal _)

namespace Draft

variable {engine : Engine} {count : Nat}

/-- **Definitions are refused with the first fault among them**, in their order. -/
theorem buildEach_refusal : ∀ (ds : List Definition),
    refusal? (buildEach engine count ds) = ds.findSome? (·.firstFault engine count)
  | [] => rfl
  | d :: ds => by
    rw [buildEach, List.findSome?_cons, ← buildEach_refusal ds, ← d.build_refusal engine]
    cases d.build count engine <;> simp

theorem buildEach_forall₂ : ∀ {ds : List Definition} {rules : List Rule}, buildEach engine count ds = .ok rules →
    List.Forall₂ (fun d rule => d.build count engine = .ok rule) ds rules
  | [], _, h => by
    cases h
    exact .nil
  | d :: ds, _, h => by
    rw [buildEach] at h
    split at h
    · cases h
    · rename_i first hfirst
      obtain ⟨rules, hrules, rfl⟩ := Form.map_eq_ok h
      exact .cons hfirst (buildEach_forall₂ hrules)

end Draft
end LayeredParse
