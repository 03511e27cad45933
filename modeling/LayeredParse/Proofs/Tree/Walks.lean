import LayeredParse.Proofs.Text.Quoting
import LayeredParse.Proofs.Tree.Descendants
/-!
# Walks — all walks through a tree agree

Every node of a tree has a path, which says at each step to which child to go (`Node.at?`).  In their lexicographic order
the paths lead to a node before what is below it, and to what is below a child before the next child.  The descendants are
the nodes at all paths in this order (`map_at?_paths`, `mem_paths_iff`, `paths_pairwise`).  The rows are the same nodes, each
with the length of its path (`rows_eq`), and the dump has a line for every row (`splitOn_dump`).  The tokens are those of the
leaves from left to right, the first one and the last included (`walks_agree`).
-/
namespace LayeredParse
namespace Node

/-- The node that a path leads to, if it leads anywhere. -/
def at? : Node → List Nat → Option Node
  | n, [] => some n
  | n, i :: path => n.children[i]?.bind fun c => at? c path

mutual

/-- The paths to the node and to everything below it. -/
def paths : Node → List (List Nat)
  | leaf .. => [[]]
  | branch _ children .. => [] :: pathsFrom 0 children

/-- The paths to the children of a node and to everything below them; the first of the children has the index `i`. -/
def pathsFrom (i : Nat) : List Node → List (List Nat)
  | [] => []
  | n :: ns => (paths n).map (i :: ·) ++ pathsFrom (i + 1) ns

end

mutual

/-- The tokens of the leaves, from left to right. -/
def leafTokens : Node → List Token
  | leaf token .. => [token]
  | branch _ children .. => leafTokensOf children

def leafTokensOf : List Node → List Token
  | [] => []
  | n :: ns => leafTokens n ++ leafTokensOf ns

end

/-- A node as it is dumped at a depth, without the end of its line. -/
def rowLine (row : Nat × Node) : List Char :=
  List.replicate (2 * row.1) ' ' ++ row.2.line.toList

/-! ## Paths -/

/-- The children before the first of those that are looked at are part of the statement, since paths count them as well. -/
theorem map_at?_pathsFrom (name : String) (start stop : Nat) (skipped : Bool) : ∀ (before ns : List Node),
    (∀ c ∈ ns, c.paths.map c.at? = c.descendants.map some) →
      (pathsFrom before.length ns).map (branch name (before ++ ns) start stop skipped).at? =
        (ns.flatMap descendants).map some
  | _, [], _ => rfl
  | before, c :: ns, h => by
    have hrest := map_at?_pathsFrom name start stop skipped (before ++ [c]) ns (fun d hd => h d (List.mem_cons_of_mem c hd))
    rw [List.length_append, List.length_singleton, List.append_assoc, List.singleton_append] at hrest
    have hstep : (branch name (before ++ c :: ns) start stop skipped).at? ∘ (before.length :: ·) = c.at? := by
      funext path
      rw [Function.comp_apply, at?, children, List.getElem?_append_right (Nat.le_refl _), Nat.sub_self]
      rfl
    rw [pathsFrom, List.map_append, List.map_map, hstep, hrest, h c List.mem_cons_self, List.flatMap_cons,
      List.map_append]

/-- **The descendants are the nodes at all paths**, in the order of the paths. -/
theorem map_at?_paths (n : Node) : n.paths.map n.at? = n.descendants.map some := by
  induction n with
  | leaf token start stop =>
    rw [descendants_eq]
    rfl
  | branch name ns start stop skipped ih =>
    have hbelow := map_at?_pathsFrom name start stop skipped [] ns ih
    rw [paths, descendants_eq, List.map_cons, List.map_cons]
    exact congrArg _ hbelow

theorem cons_mem_pathsFrom {path : List Nat} {c : Node} : ∀ {i k : Nat} {ns : List Node}, ns[k]? = some c →
    path ∈ c.paths → (i + k) :: path ∈ pathsFrom i ns
  | i, 0, n :: ns, hc, hpath => by
    obtain rfl : n = c := Option.some.inj hc
    exact List.mem_append_left _ (List.mem_map_of_mem hpath)
  | i, k + 1, n :: ns, hc, hpath => by
    have hrest : (i + 1 + k) :: path ∈ pathsFrom (i + 1) ns := cons_mem_pathsFrom hc hpath
    rw [Nat.add_right_comm] at hrest
    exact List.mem_append_right _ hrest

theorem mem_paths_of_isSome : ∀ {path : List Nat} {n : Node}, (n.at? path).isSome → path ∈ n.paths
  | [], leaf .., _ => List.mem_cons_self
  | [], branch .., _ => List.mem_cons_self
  | i :: path, leaf .., h => nomatch h
  | i :: path, branch name ns start stop skipped, h => by
    obtain ⟨d, hd⟩ := Option.isSome_iff_exists.1 h
    obtain ⟨c, hc, hbelow⟩ := Option.bind_eq_some_iff.1 hd
    have hpath := mem_paths_of_isSome (Option.isSome_of_eq_some hbelow)
    have hmem := cons_mem_pathsFrom (i := 0) hc hpath
    rw [Nat.zero_add] at hmem
    exact List.mem_cons_of_mem _ hmem

/-- **The paths are those that lead somewhere.** -/
theorem mem_paths_iff {n : Node} {path : List Nat} : path ∈ n.paths ↔ (n.at? path).isSome := by
  refine ⟨fun h => ?_, mem_paths_of_isSome⟩
  have hmem : n.at? path ∈ n.descendants.map some := map_at?_paths n ▸ List.mem_map_of_mem h
  obtain ⟨d, -, hd⟩ := List.mem_map.1 hmem
  exact Option.isSome_of_eq_some hd.symm

theorem head_mem_pathsFrom {path : List Nat} : ∀ {i : Nat} {ns : List Node}, path ∈ pathsFrom i ns →
    ∃ k rest, path = k :: rest ∧ i ≤ k
  | _, [], h => nomatch h
  | i, n :: ns, h => by
    rcases List.mem_append.1 h with h | h
    · obtain ⟨rest, -, rfl⟩ := List.mem_map.1 h
      exact ⟨i, rest, rfl, Nat.le_refl i⟩
    · obtain ⟨k, rest, rfl, hk⟩ := head_mem_pathsFrom h
      exact ⟨k, rest, rfl, Nat.le_of_succ_le hk⟩

theorem pathsFrom_pairwise : ∀ {i : Nat} {ns : List Node}, (∀ c ∈ ns, c.paths.Pairwise (· < ·)) →
    (pathsFrom i ns).Pairwise (· < ·)
  | _, [], _ => .nil
  | i, n :: ns, h => by
    have hrest := pathsFrom_pairwise (i := i + 1) (fun c hc => h c (List.mem_cons_of_mem n hc))
    refine List.pairwise_append.2 ⟨?_, hrest, ?_⟩
    · exact (h n List.mem_cons_self).map _ (fun _ _ hlt => List.cons_lt_cons_iff.2 (.inr ⟨rfl, hlt⟩))
    · intro path hpath later hlater
      obtain ⟨rest, -, rfl⟩ := List.mem_map.1 hpath
      obtain ⟨k, rest', rfl, hk⟩ := head_mem_pathsFrom hlater
      exact List.cons_lt_cons_iff.2 (.inl hk)

/-- **Each path comes before those that it begins, and those before the paths to the next child.** -/
theorem paths_pairwise (n : Node) : n.paths.Pairwise (· < ·) := by
  induction n with
  | leaf token start stop => exact List.pairwise_singleton _ _
  | branch name ns start stop skipped ih =>
    refine List.pairwise_cons.2 ⟨fun path hpath => ?_, pathsFrom_pairwise ih⟩
    obtain ⟨k, rest, rfl, -⟩ := head_mem_pathsFrom hpath
    exact List.nil_lt_cons k rest

/-! ## Rows -/

theorem rowsOf_eq_flatMap (depth : Nat) : ∀ (ns : List Node), rowsOf depth ns = ns.flatMap (rows depth)
  | [] => rfl
  | n :: ns => by rw [rowsOf, rowsOf_eq_flatMap depth ns, List.flatMap_cons]

theorem map_snd_rows (n : Node) : ∀ depth, (n.rows depth).map Prod.snd = n.descendants := by
  induction n with
  | leaf token start stop =>
    intro depth
    rw [descendants_eq]
    rfl
  | branch name ns start stop skipped ih =>
    intro depth
    rw [rows, List.map_cons, rowsOf_eq_flatMap, List.map_flatMap, descendants_eq, children,
      List.flatMap_congr fun c hc => ih c hc (depth + 1)]

theorem map_fst_rowsOf (depth : Nat) : ∀ (i : Nat) (ns : List Node),
    (∀ c ∈ ns, ∀ depth, (c.rows depth).map Prod.fst = c.paths.map (depth + ·.length)) →
      (rowsOf (depth + 1) ns).map Prod.fst = (pathsFrom i ns).map (depth + ·.length)
  | _, [], _ => rfl
  | i, n :: ns, h => by
    have hrest := map_fst_rowsOf depth (i + 1) ns (fun c hc => h c (List.mem_cons_of_mem n hc))
    rw [rowsOf, pathsFrom, List.map_append, List.map_append, h n List.mem_cons_self, hrest, List.map_map]
    congr 2
    funext path
    rw [Function.comp_apply, List.length_cons, Nat.add_right_comm, Nat.add_assoc]

theorem map_fst_rows (n : Node) : ∀ depth, (n.rows depth).map Prod.fst = n.paths.map (depth + ·.length) := by
  induction n with
  | leaf token start stop => exact fun _ => rfl
  | branch name ns start stop skipped ih =>
    intro depth
    rw [rows, paths, List.map_cons, List.map_cons, map_fst_rowsOf depth 0 ns ih]
    rfl

/-- **The rows are the descendants, each with the length of its path.** -/
theorem rows_eq (n : Node) : n.rows 0 = (n.paths.map List.length).zip n.descendants := by
  refine List.zip_of_prod ?_ (map_snd_rows n 0)
  rw [map_fst_rows]
  simp only [Nat.zero_add]

/-! ## Tokens -/

theorem leafTokensOf_eq_flatMap : ∀ (ns : List Node), leafTokensOf ns = ns.flatMap leafTokens
  | [] => rfl
  | n :: ns => by rw [leafTokensOf, leafTokensOf_eq_flatMap ns, List.flatMap_cons]

theorem tokens_eq_leafTokens (n : Node) : n.tokens = n.leafTokens := by
  induction n with
  | leaf token start stop =>
    rw [tokens, descendants_eq]
    rfl
  | branch name ns start stop skipped ih =>
    rw [tokens_branch, leafTokens, leafTokensOf_eq_flatMap, List.flatMap_congr ih]

/-! ## Lines -/

theorem toList_pushn (c : Char) : ∀ (k : Nat), ("".pushn c k).toList = List.replicate k c
  | 0 => rfl
  | k + 1 => by
    have hpush : "".pushn c (k + 1) = ("".pushn c k).push c := by
      rw [String.pushn_eq_repeat_push, String.pushn_eq_repeat_push]
      rfl
    rw [hpush, String.toList_push, toList_pushn c k, List.replicate_succ']

theorem toList_dumpsFrom (depth : Nat) : ∀ (ns : List Node),
    (∀ c ∈ ns, (c.dumpFrom depth).toList = (c.rows depth).flatMap fun row => rowLine row ++ ['\n']) →
      (dumpsFrom depth ns).toList = (rowsOf depth ns).flatMap fun row => rowLine row ++ ['\n']
  | [], _ => rfl
  | n :: ns, h => by
    have hrest := toList_dumpsFrom depth ns (fun c hc => h c (List.mem_cons_of_mem n hc))
    rw [dumpsFrom, rowsOf, String.toList_append, h n List.mem_cons_self, hrest, List.flatMap_append]

/-- **The dump is the rows, a line for each.** -/
theorem toList_dumpFrom (n : Node) : ∀ depth,
    (n.dumpFrom depth).toList = (n.rows depth).flatMap fun row => rowLine row ++ ['\n'] := by
  induction n with
  | leaf token start stop =>
    intro depth
    rw [dumpFrom, rows, List.flatMap_singleton, rowLine, String.toList_append, String.toList_append, toList_pushn]
    rfl
  | branch name ns start stop skipped ih =>
    intro depth
    rw [dumpFrom, rows, List.flatMap_cons, rowLine, String.toList_append, String.toList_append, String.toList_append,
      toList_pushn, toList_dumpsFrom (depth + 1) ns (fun c hc => ih c hc (depth + 1))]
    rfl

section LineBreak

variable {x : Char} (hx : x = '\n' ∨ x = '\r')
include hx

theorem lineBreak_not_mem_toString (k : Nat) : x ∉ (toString k).toList := by
  rw [Nat.toString_eq_ofList_toDigits, String.toList_ofList]
  exact lineBreak_not_mem_toDigits hx (by decide) (by decide) k

/-- The value of a token is quoted, so that its line is broken by nothing but a name. -/
theorem lineBreak_not_mem_line {n : Node} (h : x ∉ n.name.toList) : x ∉ n.line.toList := by
  cases n with
  | branch name ns start stop skipped => exact h
  | leaf token start stop =>
    have hvalue := lineBreak_not_mem_quote hx token.value
    have hline := lineBreak_not_mem_toString hx token.line
    have hcolumn := lineBreak_not_mem_toString hx token.column
    have hsigns : x ∉ " ".toList ∧ x ∉ "@".toList ∧ x ∉ ":".toList := by rcases hx with rfl | rfl <;> decide
    simp only [line, toString, String.toList_append, List.mem_append, not_or]
    exact ⟨⟨⟨⟨⟨⟨h, hsigns.1⟩, hvalue⟩, hsigns.2.1⟩, hline⟩, hsigns.2.2⟩, hcolumn⟩

theorem lineBreak_not_mem_rowLine {row : Nat × Node} (h : x ∉ row.2.name.toList) : x ∉ rowLine row := by
  rw [rowLine, List.mem_append, not_or]
  refine ⟨fun hspace => ?_, lineBreak_not_mem_line hx h⟩
  obtain rfl := List.eq_of_mem_replicate hspace
  exact absurd hx (by decide)

end LineBreak

theorem splitOn_flatMap {α : Type} {f : α → List Char} : ∀ {rows : List α}, (∀ row ∈ rows, '\n' ∉ f row) →
    List.splitOn '\n' (rows.flatMap fun row => f row ++ ['\n']) = rows.map f ++ [[]]
  | [], _ => rfl
  | row :: rows, h => by
    have hrest := splitOn_flatMap (fun r hr => h r (List.mem_cons_of_mem row hr))
    rw [List.flatMap_cons, List.append_assoc, List.singleton_append,
      List.splitOn_append_cons_self_of_not_mem (h row List.mem_cons_self), hrest]
    rfl

/-- **Unless a name is broken, the lines of the dump are the rows.** -/
theorem splitOn_dump {n : Node} (h : ∀ d ∈ n.descendants, '\n' ∉ d.name.toList) :
    List.splitOn '\n' n.dump.toList = (n.rows 0).map rowLine ++ [[]] := by
  rw [dump, toList_dumpFrom]
  refine splitOn_flatMap fun row hrow => lineBreak_not_mem_rowLine (.inl rfl) (h row.2 ?_)
  exact map_snd_rows n 0 ▸ List.mem_map_of_mem hrow

theorem return_not_mem_dump {n : Node} (h : ∀ d ∈ n.descendants, '\r' ∉ d.name.toList) : '\r' ∉ n.dump.toList := by
  rw [dump, toList_dumpFrom, List.mem_flatMap]
  rintro ⟨row, hrow, hmem⟩
  have hname := h row.2 (map_snd_rows n 0 ▸ List.mem_map_of_mem hrow)
  rcases List.mem_append.1 hmem with hmem | hmem
  · exact lineBreak_not_mem_rowLine (.inr rfl) hname hmem
  · exact absurd (List.mem_singleton.1 hmem) (by decide)

/-! ## All walks -/

/-- **All walks agree.**  The descendants are the nodes at all paths, in the order of the paths and each once.  The tokens are
those of the leaves; the first token and the last are the first and the last of these, and there is none if there are no
tokens.  If no name has a line break, the lines of the dump are the descendants, indented by twice the length of the path. -/
theorem walks_agree (n : Node) :
    (n.paths.Pairwise (· < ·) ∧ (∀ path, path ∈ n.paths ↔ (n.at? path).isSome) ∧
      n.paths.map n.at? = n.descendants.map some) ∧
    n.descendants = n :: n.children.flatMap descendants ∧
    n.tokens = n.leafTokens ∧
    (n.firstToken? = n.tokens.head? ∧ (n.firstToken? = none ↔ n.tokens = [])) ∧
    (n.lastToken? = n.tokens.getLast? ∧ (n.lastToken? = none ↔ n.tokens = [])) ∧
    ((∀ d ∈ n.descendants, '\n' ∉ d.name.toList) →
      List.splitOn '\n' n.dump.toList = ((n.paths.map List.length).zip n.descendants).map rowLine ++ [[]]) ∧
    ((∀ d ∈ n.descendants, '\r' ∉ d.name.toList) → '\r' ∉ n.dump.toList) := by
  have hfirst : n.firstToken? = none ↔ n.tokens = [] := List.head?_eq_none_iff
  have hlast : n.lastToken? = none ↔ n.tokens = [] := by rw [lastToken?_eq_getLast?, List.getLast?_eq_none_iff]
  refine ⟨⟨paths_pairwise n, fun _ => mem_paths_iff, map_at?_paths n⟩, descendants_eq n, tokens_eq_leafTokens n,
    ⟨rfl, hfirst⟩, ⟨lastToken?_eq_getLast? n, hlast⟩, fun h => ?_, return_not_mem_dump⟩
  rw [splitOn_dump h, rows_eq]

/-- A call with a call in it and no more arguments, read from `f g x`. -/
def nestedCall : Node :=
  let word (value : String) (index : Nat) : Node :=
    leaf ⟨value, TokenType.words, 1, 2 * index, ⟨2 * index, 2 * index + 1⟩⟩ index (index + 1)
  branch "call" [word "f" 0, branch "call" [word "g" 1, word "x" 2] 1 3 false, branch "rest" [] 3 3 false] 0 3 false

theorem walks_agree_nestedCall :
    (∀ d ∈ nestedCall.descendants, '\n' ∉ d.name.toList) ∧ (∀ d ∈ nestedCall.descendants, '\r' ∉ d.name.toList) ∧
    List.splitOn '\n' nestedCall.dump.toList = ["call", "  WORDS \"f\"@1:0", "  call", "    WORDS \"g\"@1:2",
      "    WORDS \"x\"@1:4", "  rest", ""].map String.toList ∧
    '\r' ∉ nestedCall.dump.toList := by
  have hn : ∀ d ∈ nestedCall.descendants, '\n' ∉ d.name.toList := by
    rw [← map_snd_rows _ 0]
    decide
  have hr : ∀ d ∈ nestedCall.descendants, '\r' ∉ d.name.toList := by
    rw [← map_snd_rows _ 0]
    decide
  obtain ⟨-, -, -, -, -, hlines, hreturn⟩ := walks_agree nestedCall
  refine ⟨hn, hr, ?_, hreturn hr⟩
  rw [hlines hn, ← rows_eq]
  decide

end Node
end LayeredParse
