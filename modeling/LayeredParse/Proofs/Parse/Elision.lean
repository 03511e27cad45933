import LayeredParse.Proofs.Parse.Agreement
import LayeredParse.Proofs.Tree.Descendants
/-!
# Elision — trees before and after nodes give way

A rule tree says of every branch which rule it is of, if it is of one at all (`RuleTree`).  As it stands it is the tree of
a parse in which no node is skipped (`RuleTree.node`).  From the leaves up, the nodes of rules give way to their children
as the policies of the rules ask for (`RuleTree.elided`); after that none is left that is to give way
(`elided_settled`), and the tokens are what they were (`tokens_elided`).
-/
namespace LayeredParse

/-- Whether a node of a rule with so many children, of those left below it, gives way to them. -/
def SkipPolicy.givesWay (policy : SkipPolicy) (count : Nat) : Bool :=
  policy == .always || policy == .ifOnlyOneChild && count == 1

theorem SkipPolicy.skips_eq (policy : SkipPolicy) (ns : List Node) : policy.skips ns = policy.givesWay ns.length := by
  cases policy <;> rfl

/-- A tree whose branches are of rules, or put by a matcher around what it matched. -/
inductive RuleTree where
  | leaf (token : Token) (start stop : Nat)
  | wrapper (w : Wrapper) (children : List RuleTree) (start stop : Nat)
  | rule (key : RuleKey) (children : List RuleTree) (start stop : Nat)

namespace RuleTree

@[elab_as_elim, induction_eliminator]
theorem parts_induction {P : RuleTree → Prop} (leaf : ∀ token start stop, P (.leaf token start stop))
    (wrapper : ∀ w children start stop, (∀ t ∈ children, P t) → P (.wrapper w children start stop))
    (rule : ∀ key children start stop, (∀ t ∈ children, P t) → P (.rule key children start stop)) (t : RuleTree) : P t :=
  @RuleTree.rec P (fun ts => ∀ t ∈ ts, P t) leaf wrapper rule (fun _ h => nomatch h)
    (fun _ _ ht hts u hu => (List.mem_cons.1 hu).elim (fun e => e ▸ ht) (hts u)) t

variable (names : RuleKey → String) (policies : RuleKey → SkipPolicy)

mutual

def node : RuleTree → Node
  | leaf token start stop => .leaf token start stop
  | wrapper w children start stop => .branch w.name (nodes children) start stop false
  | rule key children start stop => .branch (names key) (nodes children) start stop false

def nodes : List RuleTree → List Node
  | [] => []
  | t :: ts => node t :: nodes ts

end

mutual

/-- **What is left of the tree for its parent**, from the leaves up: a node of a rule gives way to what is left of its
children, if its policy asks for it. -/
def elided : RuleTree → List RuleTree
  | leaf token start stop => [leaf token start stop]
  | wrapper w children start stop => [wrapper w (elidedEach children) start stop]
  | rule key children start stop =>
    let left := elidedEach children
    if (policies key).givesWay left.length then left else [rule key left start stop]

def elidedEach : List RuleTree → List RuleTree
  | [] => []
  | t :: ts => elided t ++ elidedEach ts

end

/-- The tree of a parse: the root stays, and is marked as skipped if its policy asks for it. -/
def reshaped : RuleTree → Node
  | leaf token start stop => .leaf token start stop
  | wrapper w children start stop => .branch w.name (nodes names (elidedEach policies children)) start stop false
  | rule key children start stop =>
    let left := elidedEach policies children
    .branch (names key) (nodes names left) start stop ((policies key).givesWay left.length)

/-- **Whether no node of the tree is to give way.** -/
inductive Settled : RuleTree → Prop
  | leaf (token : Token) (start stop : Nat) : Settled (leaf token start stop)
  | wrapper {w : Wrapper} {children : List RuleTree} {start stop : Nat} : (∀ t ∈ children, Settled t) →
      Settled (wrapper w children start stop)
  | rule {key : RuleKey} {children : List RuleTree} {start stop : Nat} : (∀ t ∈ children, Settled t) →
      policies key ≠ .always → (policies key = .ifOnlyOneChild → children.length ≠ 1) →
        Settled (rule key children start stop)

variable {names policies}

theorem nodes_eq_map : ∀ (ts : List RuleTree), nodes names ts = ts.map (node names)
  | [] => rfl
  | t :: ts => by rw [nodes, nodes_eq_map ts, List.map_cons]

theorem elidedEach_eq_flatMap : ∀ (ts : List RuleTree), elidedEach policies ts = ts.flatMap (elided policies)
  | [] => rfl
  | t :: ts => by rw [elidedEach, elidedEach_eq_flatMap ts, List.flatMap_cons]

theorem length_nodes (ts : List RuleTree) : (nodes names ts).length = ts.length := by
  rw [nodes_eq_map, List.length_map]

/-! ## What is left -/

theorem settled_of_not_givesWay {policy : SkipPolicy} {count : Nat} (h : ¬policy.givesWay count = true) :
    policy ≠ .always ∧ (policy = .ifOnlyOneChild → count ≠ 1) := by
  cases policy <;> simp_all [SkipPolicy.givesWay]

theorem forall_mem_elidedEach {P : RuleTree → Prop} {ts : List RuleTree} :
    (∀ u ∈ elidedEach policies ts, P u) ↔ ∀ t ∈ ts, ∀ u ∈ elided policies t, P u := by
  rw [elidedEach_eq_flatMap, List.forall_mem_flatMap]

/-- **No node that is left is to give way.** -/
theorem elided_settled (t : RuleTree) : ∀ u ∈ elided policies t, u.Settled policies := by
  induction t with
  | leaf token start stop => exact List.forall_mem_singleton.2 (.leaf token start stop)
  | wrapper w children start stop ih => exact List.forall_mem_singleton.2 (.wrapper (forall_mem_elidedEach.2 ih))
  | rule key children start stop ih =>
    have hleft := forall_mem_elidedEach.2 ih
    rw [elided]
    by_cases hway : (policies key).givesWay (elidedEach policies children).length = true
    · simp only [if_pos hway]
      exact hleft
    · simp only [if_neg hway]
      obtain ⟨halways, hone⟩ := settled_of_not_givesWay hway
      exact List.forall_mem_singleton.2 (.rule hleft halways hone)

theorem elidedEach_eq_self {ts : List RuleTree} (h : ∀ t ∈ ts, elided policies t = [t]) : elidedEach policies ts = ts := by
  rw [elidedEach_eq_flatMap, List.flatMap_congr h, List.flatMap_singleton']

theorem elided_never (t : RuleTree) : elided (fun _ => .never) t = [t] := by
  induction t with
  | leaf token start stop => rfl
  | wrapper w children start stop ih => rw [elided, elidedEach_eq_self ih]
  | rule key children start stop ih =>
    rw [elided, elidedEach_eq_self ih]
    rfl

theorem reshaped_never (t : RuleTree) : t.reshaped names (fun _ => .never) = t.node names := by
  have each : ∀ ts : List RuleTree, elidedEach (fun _ => .never) ts = ts :=
    fun ts => elidedEach_eq_self (fun t _ => elided_never t)
  cases t with
  | leaf token start stop => rfl
  | wrapper w children start stop => rw [reshaped, each, node]
  | rule key children start stop =>
    rw [reshaped, each, node]
    rfl

/-! ## The nodes of what is left -/

theorem node_spliced (t : RuleTree) : (t.node names).spliced = [t.node names] := by
  cases t <;> rfl

theorem reshaped_spliced (t : RuleTree) : (t.reshaped names policies).spliced = nodes names (elided policies t) := by
  cases t with
  | leaf token start stop => rfl
  | wrapper w children start stop => rfl
  | rule key children start stop =>
    rw [reshaped, elided]
    cases (policies key).givesWay (elidedEach policies children).length with
    | false => rfl
    | true => rfl

theorem node_kept (t : RuleTree) : ∀ d ∈ (t.node names).descendants, d.isSkipped = false := by
  induction t with
  | leaf token start stop =>
    refine Node.forall_mem_descendants.2 ⟨rfl, fun c hc => ?_⟩
    cases hc
  | wrapper w children start stop ih | rule key children start stop ih =>
    refine Node.forall_mem_descendants.2 ⟨rfl, fun c hc => ?_⟩
    rw [node, Node.children, nodes_eq_map] at hc
    obtain ⟨t, ht, rfl⟩ := List.mem_map.1 hc
    exact ih t ht

/-- **Below the root no node is skipped.** -/
theorem reshaped_kept (t : RuleTree) :
    ∀ c ∈ (t.reshaped names policies).children, ∀ d ∈ c.descendants, d.isSkipped = false := by
  have each : ∀ ts : List RuleTree, ∀ c ∈ nodes names ts, ∀ d ∈ c.descendants, d.isSkipped = false := by
    intro ts
    rw [nodes_eq_map]
    exact List.forall_mem_map.2 (fun t _ => node_kept t)
  cases t with
  | leaf token start stop => exact fun c hc => nomatch hc
  | wrapper w children start stop => exact each _
  | rule key children start stop => exact each _

theorem tokens_elidedEach {ts : List RuleTree}
    (h : ∀ t ∈ ts, (nodes names (elided policies t)).flatMap Node.tokens = (t.node names).tokens) :
    (nodes names (elidedEach policies ts)).flatMap Node.tokens = (nodes names ts).flatMap Node.tokens := by
  simp only [nodes_eq_map, elidedEach_eq_flatMap, List.flatMap_map, List.flatMap_assoc] at h ⊢
  exact List.flatMap_congr h

theorem tokens_elided (t : RuleTree) :
    (nodes names (elided policies t)).flatMap Node.tokens = (t.node names).tokens := by
  induction t with
  | leaf token start stop => exact List.flatMap_singleton _ _
  | wrapper w children start stop ih =>
    rw [elided, nodes, nodes, List.flatMap_singleton, node, node, Node.tokens_branch, Node.tokens_branch,
      tokens_elidedEach ih]
  | rule key children start stop ih =>
    rw [elided, node, Node.tokens_branch, ← tokens_elidedEach ih]
    by_cases hway : (policies key).givesWay (elidedEach policies children).length = true
    · simp only [if_pos hway]
    · simp only [if_neg hway]
      rw [nodes, nodes, List.flatMap_singleton, node, Node.tokens_branch]

/-- **The tokens are what they were.** -/
theorem tokens_reshaped (t : RuleTree) : (t.reshaped names policies).tokens = (t.node names).tokens := by
  cases t with
  | leaf token start stop => rfl
  | wrapper w children start stop | rule key children start stop =>
    rw [reshaped, node, Node.tokens_branch, Node.tokens_branch, tokens_elidedEach (fun t _ => tokens_elided t)]

/-! ## Names that tell -/

/-- Names that tell the rules apart, and from the wrappers. -/
structure Telling (names : RuleKey → String) : Prop where
  injective : Function.Injective names
  ne_wrapper : ∀ key (w : Wrapper), names key ≠ w.name

theorem nodes_inj : ∀ {ts us : List RuleTree}, (∀ t ∈ ts, ∀ u, t.node names = u.node names → t = u) →
    nodes names ts = nodes names us → ts = us
  | [], [], _, _ => rfl
  | [], _ :: _, _, h => nomatch h
  | _ :: _, [], _, h => nomatch h
  | t :: ts, u :: us, h, heq => by
    obtain ⟨hhead, htail⟩ := List.cons.inj heq
    rw [h t List.mem_cons_self u hhead, nodes_inj (fun v hv => h v (List.mem_cons_of_mem t hv)) htail]

theorem Wrapper.name_injective : Function.Injective Wrapper.name := by
  intro w w' h
  cases w <;> cases w' <;> simp [Wrapper.name] at h ⊢

/-- **With names that tell, the nodes tell the whole tree.** -/
theorem node_inj (h : Telling names) (t : RuleTree) : ∀ u : RuleTree, t.node names = u.node names → t = u := by
  induction t with
  | leaf token start stop =>
    intro u heq
    cases u with
    | leaf token' start' stop' =>
      cases heq
      rfl
    | wrapper w children' start' stop' | rule key children' start' stop' => cases heq
  | wrapper w children start stop ih =>
    intro u heq
    cases u with
    | leaf token' start' stop' => cases heq
    | wrapper w' children' start' stop' =>
      obtain ⟨hname, hchildren, rfl, rfl, -⟩ := Node.branch.inj heq
      rw [Wrapper.name_injective hname, nodes_inj ih hchildren]
    | rule key children' start' stop' => exact absurd (Node.branch.inj heq).1.symm (h.ne_wrapper key w)
  | rule key children start stop ih =>
    intro u heq
    cases u with
    | leaf token' start' stop' => cases heq
    | wrapper w children' start' stop' => exact absurd (Node.branch.inj heq).1 (h.ne_wrapper key w)
    | rule key' children' start' stop' =>
      obtain ⟨hname, hchildren, rfl, rfl, -⟩ := Node.branch.inj heq
      rw [h.injective hname, nodes_inj ih hchildren]

end RuleTree
end LayeredParse
