import LayeredParse.Grammar.Form
/-!
# Subforms — the forms in a form

What is said of a form and of every form in it (`Form.subforms`) can be told of the form and of its direct parts
(`forall_mem_subforms`).
-/
namespace LayeredParse
namespace Form

variable {ρ : Type}

/-- Induction on a form, with a hypothesis for every form in a list. -/
@[elab_as_elim]
theorem parts_induction {P : Form ρ → Prop} (sequence : ∀ items, (∀ m ∈ items, P m) → P (.sequence items))
    (firstOf : ∀ alternatives, (∀ m ∈ alternatives, P m) → P (.firstOf alternatives))
    (longestOne : ∀ alternatives, (∀ m ∈ alternatives, P m) → P (.longestOne alternatives))
    (strictOr : ∀ alternatives, (∀ m ∈ alternatives, P m) → P (.strictOr alternatives))
    (optional : ∀ item, P item → P (.optional item)) (zeroOrMore : ∀ item, P item → P (.zeroOrMore item))
    (oneOrMore : ∀ item, P item → P (.oneOrMore item)) (next : ∀ item, P item → P (.next item))
    (not : ∀ item, P item → P (.not item)) (adjacent : ∀ item, P item → P (.adjacent item))
    (till : ∀ terminator, P terminator → P (.till terminator)) (literal : ∀ value, P (.literal value))
    (regex : ∀ pattern, P (.regex pattern)) (tokenType : ∀ name, P (.tokenType name)) (anyToken : P .anyToken)
    (endOfInput : P .endOfInput) (rule : ∀ key, P (.rule key)) (m : Form ρ) : P m :=
  @Form.rec ρ P (fun items => ∀ m ∈ items, P m) sequence firstOf longestOne strictOr optional zeroOrMore oneOrMore next
    not adjacent till literal regex tokenType anyToken endOfInput rule (fun _ h => nomatch h)
    (fun _ _ hm hms n hn => (List.mem_cons.1 hn).elim (fun e => e ▸ hm) (hms n)) m

mutual

/-- The form and every form in it, each before what is in it. -/
def subforms : Form ρ → List (Form ρ)
  | sequence items => sequence items :: subformsEach items
  | firstOf alternatives => firstOf alternatives :: subformsEach alternatives
  | longestOne alternatives => longestOne alternatives :: subformsEach alternatives
  | strictOr alternatives => strictOr alternatives :: subformsEach alternatives
  | optional item => optional item :: subforms item
  | zeroOrMore item => zeroOrMore item :: subforms item
  | oneOrMore item => oneOrMore item :: subforms item
  | next item => next item :: subforms item
  | not item => not item :: subforms item
  | adjacent item => adjacent item :: subforms item
  | till terminator => till terminator :: subforms terminator
  | literal value => [literal value]
  | regex pattern => [regex pattern]
  | tokenType name => [tokenType name]
  | anyToken => [anyToken]
  | endOfInput => [endOfInput]
  | rule key => [rule key]

def subformsEach : List (Form ρ) → List (Form ρ)
  | [] => []
  | m :: ms => subforms m ++ subformsEach ms

end

/-- The forms that the form is made of. -/
def items : Form ρ → List (Form ρ)
  | sequence items | firstOf items | longestOne items | strictOr items => items
  | optional item | zeroOrMore item | oneOrMore item | next item | not item | adjacent item | till item => [item]
  | literal _ | regex _ | tokenType _ | anyToken | endOfInput | rule _ => []

/-- What is true of a form if it is of the forms that it is made of is true of every form. -/
@[elab_as_elim]
theorem items_induction {P : Form ρ → Prop} (made : ∀ m, (∀ c ∈ m.items, P c) → P m) (m : Form ρ) : P m := by
  induction m using parts_induction with
  | sequence items ih | firstOf items ih | longestOne items ih | strictOr items ih => exact made _ ih
  | optional item ih | zeroOrMore item ih | oneOrMore item ih | next item ih | not item ih | adjacent item ih
  | till item ih => exact made _ (List.forall_mem_singleton.2 ih)
  | literal value | regex pattern | tokenType name | anyToken | endOfInput | rule key =>
    exact made _ (fun _ h => nomatch h)

theorem subformsEach_eq_flatMap : ∀ (ms : List (Form ρ)), subformsEach ms = ms.flatMap subforms
  | [] => rfl
  | m :: ms => by rw [subformsEach, subformsEach_eq_flatMap ms, List.flatMap_cons]

theorem subforms_eq (m : Form ρ) : m.subforms = m :: m.items.flatMap subforms := by
  cases m <;> simp [subforms, items, subformsEach_eq_flatMap]

theorem forall_mem_subforms {P : Form ρ → Prop} {m : Form ρ} :
    (∀ f ∈ m.subforms, P f) ↔ P m ∧ ∀ c ∈ m.items, ∀ f ∈ c.subforms, P f := by
  rw [subforms_eq, List.forall_mem_cons, List.forall_mem_flatMap]

theorem mem_subforms_self (m : Form ρ) : m ∈ m.subforms := by
  rw [subforms_eq]
  exact List.mem_cons_self

/-- What is said of all forms in a form is said of those in a part of it. -/
theorem forall_mem_item {P : Form ρ → Prop} {m c : Form ρ} (h : ∀ f ∈ m.subforms, P f) (hc : c ∈ m.items) :
    ∀ f ∈ c.subforms, P f :=
  (forall_mem_subforms.1 h).2 c hc

end Form
end LayeredParse
