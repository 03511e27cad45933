import LayeredParse.Tree
/-!
# Descendants — a node before what is below it, child by child

`Node.visit` walks a forest with a list of nodes still to be visited.  Here that walk is read as a recursion on the tree:
the descendants of a node are the node itself and then those of its children one after the other (`descendants_eq`).  So
what holds of all descendants of a node holds of the node and of all descendants of each child
(`forall_mem_descendants`), and the first token and the last, which are looked for by two different walks, are those of
the first leaf and of the last (`firstToken?_eq`, `lastToken?_eq`).
-/
namespace LayeredParse
namespace Node

/-- Induction on a node, with a hypothesis for every child. -/
@[elab_as_elim, induction_eliminator]
theorem parts_induction {P : Node → Prop} (leaf : ∀ token start stop, P (.leaf token start stop))
    (branch : ∀ name children start stop skipped, (∀ n ∈ children, P n) → P (.branch name children start stop skipped))
    (n : Node) : P n :=
  @Node.rec P (fun ns => ∀ n ∈ ns, P n) leaf branch (fun _ h => nomatch h)
    (fun _ _ hn hns m hm => (List.mem_cons.1 hm).elim (fun e => e ▸ hn) (hns m)) n

theorem visit_nil : visit [] = [] := by
  rw [visit]

theorem visit_cons (n : Node) (pending : List Node) : visit (n :: pending) = n :: visit (n.children ++ pending) := by
  rw [visit]

theorem visit_append_of : ∀ (ns pending : List Node),
    (∀ n ∈ ns, ∀ pending, visit (n :: pending) = visit [n] ++ visit pending) →
      visit (ns ++ pending) = visit ns ++ visit pending
  | [], pending, _ => by rw [visit_nil, List.nil_append, List.nil_append]
  | n :: ns, pending, h => by
    have hns := visit_append_of ns pending (fun m hm => h m (List.mem_cons_of_mem n hm))
    have hn := h n List.mem_cons_self
    rw [List.cons_append, hn, hns, hn ns, List.append_assoc]

/-- A node that is visited does not see what is pending behind it. -/
theorem visit_cons_eq (n : Node) : ∀ pending, visit (n :: pending) = visit [n] ++ visit pending := by
  induction n with
  | leaf token start stop =>
    intro pending
    rw [visit_cons, visit_cons, children, List.nil_append, List.nil_append, visit_nil, List.singleton_append]
  | branch name ns start stop skipped ih =>
    intro pending
    rw [visit_cons, visit_cons, children, visit_append_of ns pending ih, List.append_nil, List.cons_append]

theorem visit_eq_flatMap : ∀ (ns : List Node), visit ns = ns.flatMap descendants
  | [] => visit_nil
  | n :: ns => by rw [visit_cons_eq, visit_eq_flatMap ns, List.flatMap_cons, descendants]

/-- **The descendants of a node are itself and those of its children in order.** -/
theorem descendants_eq (n : Node) : n.descendants = n :: n.children.flatMap descendants := by
  rw [descendants, visit_cons, List.append_nil, visit_eq_flatMap]

theorem mem_descendants_self (n : Node) : n ∈ n.descendants := by
  rw [descendants_eq]
  exact List.mem_cons_self

theorem forall_mem_descendants {P : Node → Prop} {n : Node} :
    (∀ d ∈ n.descendants, P d) ↔ P n ∧ ∀ c ∈ n.children, ∀ d ∈ c.descendants, P d := by
  rw [descendants_eq, List.forall_mem_cons, List.forall_mem_flatMap]

theorem mem_descendants_trans {d n root : Node} (hd : d ∈ n.descendants) :
    n ∈ root.descendants → d ∈ root.descendants := by
  induction root with
  | leaf token start stop =>
    intro hn
    rw [descendants_eq] at hn
    rcases List.mem_cons.1 hn with rfl | hn
    · exact hd
    · cases hn
  | branch name ns start stop skipped ih =>
    intro hn
    rw [descendants_eq] at hn
    rcases List.mem_cons.1 hn with rfl | hn
    · exact hd
    · obtain ⟨c, hc, hn⟩ := List.mem_flatMap.1 hn
      rw [descendants_eq]
      exact List.mem_cons_of_mem _ (List.mem_flatMap.2 ⟨c, hc, ih c hc hn⟩)

/-- The leaves of the tree, from left to right. -/
def leaves (n : Node) : List Node :=
  n.descendants.filter (·.token?.isSome)

theorem leaves_leaf (token : Token) (start stop : Nat) : (leaf token start stop).leaves = [leaf token start stop] := by
  rw [leaves, descendants_eq]
  rfl

theorem leaves_branch (name : String) (ns : List Node) (start stop : Nat) (skipped : Bool) :
    (branch name ns start stop skipped).leaves = ns.flatMap leaves := by
  rw [leaves, descendants_eq, List.filter_cons_of_neg (by simp [token?]), children, List.filter_flatMap]
  rfl

/-! ## The first and the last token -/

theorem mem_leaves {l n : Node} (h : l ∈ n.leaves) : l ∈ n.descendants ∧ ∃ token start stop, l = leaf token start stop := by
  obtain ⟨hmem, htoken⟩ := List.mem_filter.1 h
  refine ⟨hmem, ?_⟩
  cases l with
  | leaf token start stop => exact ⟨token, start, stop, rfl⟩
  | branch name ns start stop skipped => cases htoken

theorem map_some_tokens (n : Node) : n.tokens.map some = n.leaves.map token? := by
  unfold tokens leaves
  generalize n.descendants = ds
  induction ds with
  | nil => rfl
  | cons d ds ih =>
    cases hd : d.token? with
    | none => rw [List.filterMap_cons_none hd, List.filter_cons_of_neg (by simp [hd]), ih]
    | some token =>
      rw [List.filterMap_cons_some hd, List.filter_cons_of_pos (by simp [hd]), List.map_cons, List.map_cons, hd, ih]

theorem tokens_branch (name : String) (ns : List Node) (start stop : Nat) (skipped : Bool) :
    (branch name ns start stop skipped).tokens = ns.flatMap tokens := by
  unfold tokens
  rw [descendants_eq, List.filterMap_cons_none rfl, children, List.filterMap_flatMap]

theorem lastTokenAmong?_eq : ∀ (ns : List Node), (∀ n ∈ ns, n.lastToken? = n.tokens.getLast?) →
    lastTokenAmong? ns = (ns.flatMap tokens).getLast?
  | [], _ => rfl
  | n :: ns, h => by
    have hrest := lastTokenAmong?_eq ns (fun m hm => h m (List.mem_cons_of_mem n hm))
    rw [lastTokenAmong?, hrest, h n List.mem_cons_self, List.flatMap_cons, List.getLast?_append]
    exact Option.orElse_eq_or

/-- **Looked for from the right, the last token is the last one from the left.** -/
theorem lastToken?_eq_getLast? (n : Node) : n.lastToken? = n.tokens.getLast? := by
  induction n with
  | leaf token start stop =>
    unfold tokens
    rw [descendants_eq]
    rfl
  | branch name ns start stop skipped ih => rw [lastToken?, tokens_branch, lastTokenAmong?_eq ns ih]

theorem firstToken?_eq {n first : Node} (h : n.leaves.head? = some first) : n.firstToken? = first.token? := by
  have hhead := congrArg List.head? (map_some_tokens n)
  rw [List.head?_map, List.head?_map, h] at hhead
  obtain ⟨token, htoken, hfirst⟩ := Option.map_eq_some_iff.1 hhead
  rw [firstToken?, htoken, hfirst]

theorem lastToken?_eq {n last : Node} (h : n.leaves.getLast? = some last) : n.lastToken? = last.token? := by
  have htail := congrArg List.getLast? (map_some_tokens n)
  rw [List.getLast?_map, List.getLast?_map, h] at htail
  obtain ⟨token, htoken, hlast⟩ := Option.map_eq_some_iff.1 htail
  rw [lastToken?_eq_getLast?, htoken, hlast]

end Node
end LayeredParse
