import LayeredParse.Proofs.Parse.Furthest
import LayeredParse.Proofs.Parse.Nested
/-!
# Foreign — rules of another grammar are never met

What a closed matcher attempts is closed (`Makes.closed`), and so is all that is attempted during that
(`During.closed`).  So a parse with a built grammar meets a rule that is not there only if it is to start from it, and then
it always does (`Built.parseRule_foreign`).
-/
namespace LayeredParse

theorem Form.Closed.key_lt {ρ : Type} {count : Nat} {key : RuleKey} (h : (Form.rule key : Form ρ).Closed count) :
    key < count :=
  h _ (Form.mem_subforms_self _) key rfl

namespace Grammar

variable {g : Grammar} {input : Input} {m n : Matcher} {s t : State}

/-- What is attempted is an item of what attempts it, or the matcher of the rule that this is. -/
theorem Makes.item_or_body (h : g.Makes input m s n t) :
    n ∈ m.items ∨ ∃ key rule, g.rule? key = some rule ∧ n = rule.matcher := by
  cases h with
  | item h | alternative h | candidate h | contender h => exact .inl h.mem
  | winner hn | sole hn => exact .inl hn
  | option | again | first | more | next | not | adjacent | skipping | terminator => exact .inl List.mem_cons_self
  | body hr => exact .inr ⟨_, _, hr, rfl⟩

/-- **What a closed matcher attempts is closed.** -/
theorem Makes.closed (hbuilt : g.Built) (h : g.Makes input m s n t) (hm : m.Closed g.size) : n.Closed g.size := by
  rcases h.item_or_body with hn | ⟨key, rule, hr, rfl⟩
  · exact Form.forall_mem_item hm hn
  · exact hbuilt.closed hr

/-- **All that is attempted during the attempt of a closed matcher is closed.** -/
theorem During.closed (hbuilt : g.Built) (h : g.During input m s n t) (hm : m.Closed g.size) : n.Closed g.size := by
  have along : ∀ x : Matcher × State,
      Relation.ReflTransGen (fun x y : Matcher × State => g.Makes input x.1 x.2 y.1 y.2) (m, s) x → x.1.Closed g.size := by
    intro x hx
    induction hx with
    | refl => exact hm
    | tail _ hmakes ih => exact hmakes.closed hbuilt ih
  exact along (n, t) h

/-- A closed matcher has no rule that is not there. -/
theorem Raises.not_foreign {i : Nat} (hm : m.Closed g.size) : ¬g.Raises input m s (.foreignRule i) := by
  generalize he : ParseError.foreignRule i = e
  intro h
  cases h with
  | @foreign key _ hr => exact Nat.not_le_of_lt hm.key_lt (Array.getElem?_eq_none_iff.1 hr)
  | deep | tied => cases he

theorem parseRule_beyond {key : RuleKey} (hle : g.size ≤ key) (config : ParserConfig) (tokens : List Token) :
    g.parseRule key config tokens = .error (.foreignRule key) := by
  have hr : g.rule? key = none := Array.getElem?_eq_none hle
  have hraises : g.Raises { tokens := tokens.toArray, config } (.rule key) {} (.foreignRule key) := .foreign hr
  obtain ⟨j, hfails⟩ := hraises.fails
  exact (parseRule_fatal hfails).1

/-- **A built grammar is closed, and a parse meets a rule that is not there only where it starts.**  Every rule in the
matcher of a rule is one of the grammar's.  So, whatever the tokens and the nesting limit, a parse fails because of a rule
that is not there exactly if it is the one to start from. -/
theorem Built.parseRule_foreign (h : g.Built) :
    (∀ key rule, g.rule? key = some rule → ∀ f ∈ rule.matcher.subforms, ∀ called, f = .rule called → called < g.size) ∧
    ∀ key config tokens i, g.parseRule key config tokens = .error (.foreignRule i) ↔ g.size ≤ key ∧ i = key := by
  refine ⟨fun key rule hr => h.closed hr, fun key config tokens i => ⟨fun herror => ?_, ?_⟩⟩
  · rcases Nat.lt_or_ge key g.size with hkey | hle
    · have hstart : (Form.rule key : Matcher).Closed g.size :=
        .of_items (fun _ e => by cases e; exact hkey) (fun _ hc => nomatch hc)
      rcases parseRule_error herror with ⟨t, hfailure⟩ | ⟨n, t, hduring, hraises⟩
      · have hindex := State.failure_index { tokens := tokens.toArray, config } t
        rw [← hfailure] at hindex
        cases hindex
      · exact absurd hraises (Raises.not_foreign (hduring.closed h hstart))
    · rw [parseRule_beyond hle] at herror
      cases herror
      exact ⟨hle, rfl⟩
  · rintro ⟨hle, rfl⟩
    exact parseRule_beyond hle config tokens

/-- A list whose body an override has wrapped still calls the item; with the limit 0 the list is refused, but not as a rule
of another grammar, and the rule after the item is. -/
theorem parseRule_foreign_list : ∃ (draft : Draft) (g : Grammar) (list : Rule), draft.build 0 = .ok g ∧
    g.rule? 0 = some list ∧ Form.rule 1 ∈ list.matcher.subforms ∧ 1 < g.size ∧
      (∀ i, g.parseRule 0 { maxDepth := 0 } [] ≠ .error (.foreignRule i)) ∧
      g.parseRule 2 { maxDepth := 0 } [] = .error (.foreignRule 2) := by
  let draft : Draft := ⟨#[{ name := "list", body := some (.rule 1), wraps := [.zeroOrMore] },
    { name := "item", body := some .anyToken }]⟩
  let list : Rule := ⟨"list", .zeroOrMore (.rule 1), .never⟩
  let g : Grammar := ⟨#[list, ⟨"item", .anyToken, .never⟩], 0⟩
  have hbuild : draft.build 0 = .ok g := rfl
  have hcalls : Form.rule 1 ∈ list.matcher.subforms := List.mem_cons_of_mem _ List.mem_cons_self
  obtain ⟨closed, foreign⟩ := @Built.parseRule_foreign g ⟨draft, 0, _, hbuild⟩
  refine ⟨draft, g, list, hbuild, rfl, hcalls, closed 0 list rfl _ hcalls 1 rfl, fun i herror => ?_,
    (foreign 2 _ _ 2).2 ⟨Nat.le_refl 2, rfl⟩⟩
  exact absurd ((foreign 0 _ _ i).1 herror).1 (by decide)

end Grammar
end LayeredParse
