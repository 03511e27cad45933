import LayeredParse.Grammar.Draft
import LayeredParse.Proofs.Grammar.Subforms
/-!
# Closed — a built grammar refers to its own rules only

A form is closed if every rule in it is one of the grammar's.  Resolving an expression puts no other rule into the matcher
(`resolve_closed`), so every rule of a built grammar is closed (`Built.closed`).
-/
namespace LayeredParse
namespace Form

variable {ρ : Type} {engine : Engine} {count : Nat} {name : String}

/-- Whether every rule in the form is one of the first `count`. -/
def Closed (count : Nat) (m : Form ρ) : Prop :=
  ∀ f ∈ m.subforms, ∀ key, f = rule key → key < count

theorem Closed.of_items {m : Form ρ} (hm : ∀ key, m = rule key → key < count) (h : ∀ c ∈ m.items, c.Closed count) :
    m.Closed count :=
  forall_mem_subforms.2 ⟨hm, h⟩

theorem collapsed_closed {make : List Matcher → Matcher} {ms : List Matcher} (h : ∀ m ∈ ms, m.Closed count)
    (hmake : ∀ ms : List Matcher, (∀ m ∈ ms, m.Closed count) → (make ms).Closed count) :
    (collapsed make ms).Closed count := by
  unfold collapsed
  split
  · rename_i item
    exact h item List.mem_cons_self
  · exact hmake ms h

theorem map_eq_ok {ε α β : Type} {f : α → β} {x : Except ε α} {b : β} (h : x.map f = .ok b) : ∃ a, x = .ok a ∧ f a = b := by
  cases x with
  | error e => cases h
  | ok a => exact ⟨a, rfl, Except.ok.inj h⟩

theorem resolveEach_ok : ∀ {items : List Expr} {ms : List Matcher}, resolveEach engine name count items = .ok ms →
    ∀ m ∈ ms, ∃ item ∈ items, resolve engine name count item = .ok m
  | [], _, h, m, hm => by
    cases h
    cases hm
  | item :: items, _, h, m, hm => by
    rw [resolveEach] at h
    split at h
    · cases h
    · rename_i first hfirst
      obtain ⟨ms, hms, rfl⟩ := map_eq_ok h
      rcases List.mem_cons.1 hm with rfl | hm
      · exact ⟨item, List.mem_cons_self, hfirst⟩
      · obtain ⟨item', hitem, hm⟩ := resolveEach_ok hms m hm
        exact ⟨item', List.mem_cons_of_mem item hitem, hm⟩

/-- **Resolving an expression puts no rule of another grammar into the matcher.** -/
theorem resolve_closed (e : Expr) : ∀ {m : Matcher}, resolve engine name count e = .ok m → m.Closed count := by
  have unary : ∀ {item : Expr} {make : Matcher → Matcher}, (∀ m : Matcher, (make m).items = [m]) →
      (∀ m key, make m ≠ rule key) → (∀ {m : Matcher}, resolve engine name count item = .ok m → m.Closed count) →
        ∀ {m : Matcher}, (resolve engine name count item).map make = .ok m → m.Closed count := by
    intro item make hitems hmake ih m h
    obtain ⟨a, ha, rfl⟩ := map_eq_ok h
    refine .of_items (fun key e => (hmake a key e).elim) (fun c hc => ?_)
    rw [hitems, List.mem_singleton] at hc
    exact hc ▸ ih ha
  have each : ∀ {items : List Expr}, (∀ item ∈ items, ∀ {m : Matcher}, resolve engine name count item = .ok m → m.Closed count) →
      ∀ {ms : List Matcher}, resolveEach engine name count items = .ok ms → ∀ m ∈ ms, m.Closed count := by
    intro items ih ms h m hm
    obtain ⟨item, hitem, hm⟩ := resolveEach_ok h m hm
    exact ih item hitem hm
  induction e using Form.parts_induction with
  | sequence items ih =>
    intro m h
    obtain ⟨ms, hms, rfl⟩ := map_eq_ok h
    exact collapsed_closed (each ih hms) (fun _ hc => .of_items (fun _ e => nomatch e) hc)
  | firstOf alternatives ih =>
    intro m h
    obtain ⟨ms, hms, rfl⟩ := map_eq_ok h
    exact collapsed_closed (each ih hms) (fun _ hc => .of_items (fun _ e => nomatch e) hc)
  | longestOne alternatives ih =>
    intro m h
    obtain ⟨ms, hms, rfl⟩ := map_eq_ok h
    exact .of_items (fun _ e => nomatch e) (each ih hms)
  | strictOr alternatives ih =>
    intro m h
    obtain ⟨ms, hms, rfl⟩ := map_eq_ok h
    exact .of_items (fun _ e => nomatch e) (each ih hms)
  | optional item ih => exact @unary item optional (fun _ => rfl) (fun _ _ e => nomatch e) ih
  | zeroOrMore item ih => exact @unary item zeroOrMore (fun _ => rfl) (fun _ _ e => nomatch e) ih
  | oneOrMore item ih => exact @unary item oneOrMore (fun _ => rfl) (fun _ _ e => nomatch e) ih
  | next item ih => exact @unary item next (fun _ => rfl) (fun _ _ e => nomatch e) ih
  | not item ih => exact @unary item not (fun _ => rfl) (fun _ _ e => nomatch e) ih
  | adjacent item ih => exact @unary item adjacent (fun _ => rfl) (fun _ _ e => nomatch e) ih
  | till terminator ih => exact @unary terminator till (fun _ => rfl) (fun _ _ e => nomatch e) ih
  | regex pattern =>
    intro m h
    rw [resolve] at h
    split at h
    · cases h
      exact .of_items (fun _ e => nomatch e) (fun _ hc => nomatch hc)
    · cases h
  | rule key =>
    intro m h
    rw [resolve] at h
    split at h
    · rename_i hlt
      cases h
      refine .of_items (fun key' e => ?_) (fun _ hc => nomatch hc)
      cases e
      exact hlt
    · cases h
  | literal value | tokenType type | anyToken | endOfInput =>
    intro m h
    cases h
    exact .of_items (fun _ e => nomatch e) (fun _ hc => nomatch hc)

end Form

namespace Grammar

/-- Whether the grammar is what a draft was built to, with some engine for its patterns. -/
def Built (g : Grammar) : Prop :=
  ∃ (draft : Draft) (root : RuleKey) (engine : Engine), draft.build root engine = .ok g

end Grammar

/-- The rules of a grammar are those of its definitions, in the same number. -/
theorem Draft.buildEach_ok {engine : Engine} {count : Nat} : ∀ {definitions : List Definition} {rules : List Rule},
    Draft.buildEach engine count definitions = .ok rules →
      rules.length = definitions.length ∧ ∀ rule ∈ rules, rule.matcher.Closed count
  | [], _, h => by
    cases h
    exact ⟨rfl, fun _ hr => nomatch hr⟩
  | d :: ds, _, h => by
    rw [Draft.buildEach] at h
    split at h
    · cases h
    · rename_i first hfirst
      obtain ⟨rules, hrules, rfl⟩ := Form.map_eq_ok h
      obtain ⟨hlength, hclosed⟩ := Draft.buildEach_ok hrules
      refine ⟨congrArg (· + 1) hlength, List.forall_mem_cons.2 ⟨?_, hclosed⟩⟩
      unfold Definition.build at hfirst
      split at hfirst
      · cases hfirst
      · obtain ⟨m, hm, rfl⟩ := Form.map_eq_ok hfirst
        exact Form.resolve_closed _ hm

/-- **Every rule of a built grammar refers to rules of the grammar only.** -/
theorem Grammar.Built.closed {g : Grammar} (h : g.Built) {key : RuleKey} {rule : Rule} (hr : g.rule? key = some rule) :
    rule.matcher.Closed g.size := by
  obtain ⟨draft, root, engine, hbuild⟩ := h
  unfold Draft.build at hbuild
  split at hbuild
  · cases hbuild
  · obtain ⟨rules, hrules, rfl⟩ := Form.map_eq_ok hbuild
    obtain ⟨hlength, hclosed⟩ := Draft.buildEach_ok hrules
    have hmem : rule ∈ rules := by
      rw [Grammar.rule?, List.getElem?_toArray] at hr
      exact List.mem_of_getElem? hr
    have hsize : Grammar.size ⟨rules.toArray, root⟩ = draft.size := hlength
    rw [hsize]
    exact hclosed rule hmem

end LayeredParse
