import LayeredParse.Proofs.Parse.Elision
import LayeredParse.Proofs.Parse.Furthest
import LayeredParse.Proofs.Parse.Limits
import LayeredParse.Proofs.Parse.Tiling
/-!
# Reshaping — policies only reshape the tree

Grammars that differ in their policies only are compared with one in which no node is skipped and every rule is named by a
mark of its own (`Grammar.marked`).  The comparison is on states at the same index with the same log.  What the marked
grammar matches is a rule tree as it stands, what the other one matches is what the policies leave of it
(`Comparison.reshaping`); the errors are the same but for the marks.  Since the marks tell the whole rule tree, it is the
same one for all policies (`Grammar.parseRule_reshaped`).
-/
namespace LayeredParse

/-- A name for the rule with a key, unlike that of any other rule or of a wrapper. -/
def mark (key : RuleKey) : String :=
  String.ofList (List.replicate (key + 1) '#')

theorem mark_telling : RuleTree.Telling mark where
  injective key key' h := by
    have hlength := congrArg String.length h
    simp only [mark, String.length_ofList, List.length_replicate] at hlength
    exact Nat.succ.inj hlength
  ne_wrapper key w h := by
    have hlist := congrArg String.toList h
    rw [mark, String.toList_ofList, List.replicate_succ] at hlist
    cases w <;> cases hlist

namespace Grammar

def withPolicies (g : Grammar) (policies : RuleKey → SkipPolicy) : Grammar :=
  { g with rules := g.rules.mapIdx fun key rule => { rule with policy := policies key } }

/-- The policies of the grammar; a key of no rule has none. -/
def policies (g : Grammar) (key : RuleKey) : SkipPolicy :=
  (g.policy? key).getD .never

/-- The grammar with a mark for every name, in which no node is skipped. -/
def marked (g : Grammar) : Grammar :=
  { g with rules := g.rules.mapIdx fun key rule => ⟨mark key, rule.matcher, .never⟩ }

variable {g : Grammar} {key : RuleKey} {rule : Rule} {policies : RuleKey → SkipPolicy}

theorem rule?_withPolicies (g : Grammar) (policies : RuleKey → SkipPolicy) (key : RuleKey) :
    (g.withPolicies policies).rule? key = (g.rule? key).map fun rule => { rule with policy := policies key } :=
  Array.getElem?_mapIdx

theorem rule?_marked (g : Grammar) (key : RuleKey) :
    g.marked.rule? key = (g.rule? key).map fun rule => ⟨mark key, rule.matcher, .never⟩ :=
  Array.getElem?_mapIdx

theorem ruleName_eq (hr : g.rule? key = some rule) : g.ruleName key = rule.name := by
  rw [ruleName, hr]

theorem withPolicies_policies (g : Grammar) : g.withPolicies g.policies = g := by
  obtain ⟨rules, root⟩ := g
  have hrules : rules.mapIdx (fun key rule => { rule with policy := policies ⟨rules, root⟩ key }) = rules := by
    refine Array.ext (Array.size_mapIdx) (fun key _ hlt => ?_)
    rw [Array.getElem_mapIdx]
    have hpolicy : policies ⟨rules, root⟩ key = rules[key].policy := by
      simp [policies, policy?, rule?, hlt]
    rw [hpolicy]
  rw [withPolicies, hrules]

end Grammar

/-! ## The comparison -/

/-- The same error, but for a mark. -/
inductive ParseError.Renamed (g : Grammar) : ParseError → ParseError → Prop
  | limit (key : RuleKey) (limit : Nat) : Renamed g (.recursionLimit (mark key) limit) (.recursionLimit (g.ruleName key) limit)
  | same {e : ParseError} (h : ¬e.IsLimit) : Renamed g e e

theorem ParseError.Renamed.unique {g : Grammar} {e e₁ e₂ : ParseError} (h₁ : e.Renamed g e₁) (h₂ : e.Renamed g e₂) :
    e₁ = e₂ := by
  cases h₁ with
  | limit key limit =>
    generalize he : ParseError.recursionLimit (mark key) limit = e at h₂
    cases h₂ with
    | limit key' limit' =>
      obtain ⟨hmark, rfl⟩ := ParseError.recursionLimit.inj he
      rw [mark_telling.injective hmark]
    | same h => exact absurd ⟨_, _, he.symm⟩ h
  | same h =>
    cases h₂ with
    | limit key limit => exact absurd ⟨_, _, rfl⟩ h
    | same _ => rfl

theorem State.furthest_congr {s s' : State} (h : s.log = s'.log) : s.furthest = s'.furthest := by
  obtain ⟨hindex, hexpected⟩ : s.furthest.Tells s.log := s.journal.furthest_tells
  obtain ⟨hindex', hexpected'⟩ : s'.furthest.Tells s'.log := s'.journal.furthest_tells
  have hsame : s.furthest.index = s'.furthest.index := by rw [hindex, hindex', h]
  generalize s.furthest = f at hsame hexpected
  generalize s'.furthest = f' at hsame hexpected'
  obtain ⟨index, expected⟩ := f
  obtain ⟨index', expected'⟩ := f'
  dsimp only at hsame hexpected hexpected'
  rw [hexpected, hexpected', hsame, h]

theorem State.failure_congr {s s' : State} (h : s.log = s'.log) (input : Input) : s.failure input = s'.failure input := by
  unfold State.failure
  rw [State.furthest_congr h]

/-- **A rule tree as it stands, and what the policies leave of it.** -/
def Comparison.reshaping (g : Grammar) (policies : RuleKey → SkipPolicy) : Comparison where
  here := 0
  there := 0
  states s s' := s.index = s'.index ∧ s.log = s'.log
  nodes n n' := ∃ tree : RuleTree, n = tree.node mark ∧ n' = tree.reshaped g.ruleName policies
  forests ns ns' := ∃ trees : List RuleTree,
    ns = RuleTree.nodes mark trees ∧ ns' = RuleTree.nodes g.ruleName (RuleTree.elidedEach policies trees)
  errors e e' := e.Renamed g e'
  aside _ := False

namespace Comparison

variable {g : Grammar} {input : Input} {policies : RuleKey → SkipPolicy}

theorem reshaping_lawful (g : Grammar) (input : Input) (policies : RuleKey → SkipPolicy) :
    (reshaping g policies).Lawful input input where
  index_eq h := h.1
  read_eq h := by rw [h.1]
  previous_eq {s s'} h := by rw [State.previous, State.previous, h.1]
  left_eq h := by rw [h.1]
  back h h' := ⟨h.1, h'.2⟩
  next h _ := ⟨congrArg (· + 1) h.1, h.2⟩
  miss {s s'} h expected := by
    refine ⟨h.1, ?_⟩
    rw [State.log_miss, State.log_miss, h.1, h.2]
  nil := ⟨[], rfl, rfl⟩
  append := by
    rintro _ _ _ _ ⟨ts, rfl, rfl⟩ ⟨us, rfl, rfl⟩
    refine ⟨ts ++ us, ?_, ?_⟩
    · simp only [RuleTree.nodes_eq_map, List.map_append]
    · simp only [RuleTree.nodes_eq_map, RuleTree.elidedEach_eq_flatMap, List.flatMap_append, List.map_append]
  leaf {s s'} h token := ⟨[.leaf token s.index (s.index + 1)], rfl, by rw [h.1]; rfl⟩
  words {s s' t t'} h h' := ⟨[.leaf (Attempt.words input s.index t.index) s.index t.index], rfl, by rw [h.1, h'.1]; rfl⟩
  branch {s s' t t' ns ns'} h h' hns w := by
    obtain ⟨ts, rfl, rfl⟩ := hns
    exact ⟨[.wrapper w ts s.index t.index], rfl, by rw [h.1, h'.1]; rfl⟩
  tie {s s'} h text := by
    rw [h.1]
    exact .same (fun ⟨_, _, he⟩ => nomatch he)

theorem reshaping_nests (g : Grammar) (policies : RuleKey → SkipPolicy) {key : RuleKey} {rule : Rule}
    (hr : g.rule? key = some rule) :
    (reshaping g policies).Nests ⟨mark key, rule.matcher, .never⟩ { rule with policy := policies key } where
  enter {s s'} h := ⟨h.1, by rw [State.log_enter, State.log_enter, h.2]⟩
  leave {s s'} h matched := ⟨h.1, by rw [State.log_leave, State.log_leave, h.2]⟩
  node {s s' t t' ns ns'} h h' hns := by
    obtain ⟨ts, rfl, rfl⟩ := hns
    refine ⟨.rule key ts s.index t.index, rfl, ?_⟩
    rw [Rule.node, SkipPolicy.skips_eq, RuleTree.length_nodes, RuleTree.reshaped, Grammar.ruleName_eq hr, h.1, h'.1]

theorem reshaping_rules (g : Grammar) (input : Input) (policies : RuleKey → SkipPolicy) :
    (reshaping g policies).Rules input input g.marked (g.withPolicies policies) where
  missing {key} h := by
    rw [Grammar.rule?_marked, Option.map_eq_none_iff] at h
    rw [Grammar.rule?_withPolicies, h, Option.map_none]
  present {key rule} h := by
    rw [Grammar.rule?_marked] at h
    obtain ⟨rule', hr, rfl⟩ := Option.map_eq_some_iff.1 h
    refine ⟨{ rule' with policy := policies key }, ?_, rfl, reshaping_nests g policies hr, ?_⟩
    · rw [Grammar.rule?_withPolicies, hr, Option.map_some]
    · rw [← Grammar.ruleName_eq hr]
      exact .limit key _
  spliced := by
    rintro _ _ ⟨tree, rfl, rfl⟩
    refine ⟨[tree], RuleTree.node_spliced tree, ?_⟩
    rw [RuleTree.reshaped_spliced, RuleTree.elidedEach, RuleTree.elidedEach, List.append_nil]
  foreign key := .same (fun ⟨_, _, he⟩ => nomatch he)

end Comparison

/-! ## Parses -/

namespace Grammar

variable {g : Grammar} {key : RuleKey} {config : ParserConfig} {tokens : List Token}

theorem matchRule_branch {input : Input} {s t : State} {n : Node} (h : g.matchRule input key s = (.matched n, t)) :
    ∃ rule ns start stop skipped, g.rule? key = some rule ∧ n = .branch rule.name ns start stop skipped := by
  unfold matchRule at h
  cases hr : g.rule? key with
  | none =>
    rw [enter_foreign hr] at h
    cases h
  | some rule =>
    cases hroom : input.config.maxDepth - s.depth with
    | zero =>
      rw [hroom, enter_zero hr] at h
      cases h
    | succ room =>
      rw [hroom, enter_succ hr, Rule.around] at h
      generalize rule.matcher.attempt input (g.enter input room) (s.enter rule.name) = r at h
      rcases r with ⟨ns | _ | _, u⟩ <;> cases h
      exact ⟨rule, ns, _, _, _, rfl, rfl⟩

/-- The root of a marked parse is of the rule that was parsed. -/
theorem marked_root {tree : RuleTree} (h : g.marked.parseRule key config tokens = .ok (tree.node mark)) :
    ∃ children start stop, tree = .rule key children start stop := by
  obtain ⟨t, hmatched, -⟩ := parseRule_ok h
  obtain ⟨rule, ns, start, stop, skipped, hr, hbranch⟩ := matchRule_branch hmatched
  rw [rule?_marked] at hr
  obtain ⟨rule, -, rfl⟩ := Option.map_eq_some_iff.1 hr
  cases tree with
  | leaf token start' stop' => cases hbranch
  | wrapper w children start' stop' => exact absurd (Node.branch.inj hbranch).1.symm (mark_telling.ne_wrapper key w)
  | rule key' children start' stop' =>
    rw [mark_telling.injective (Node.branch.inj hbranch).1]
    exact ⟨children, start', stop', rfl⟩

/-- What the marked grammar makes of the tokens, and what the grammar makes of them with other policies. -/
inductive Reshapes (g : Grammar) (policies : RuleKey → SkipPolicy) :
    Except ParseError Node → Except ParseError Node → Prop
  | tree (tree : RuleTree) : Reshapes g policies (.ok (tree.node mark)) (.ok (tree.reshaped g.ruleName policies))
  | error {e e' : ParseError} (h : e.Renamed g e') : Reshapes g policies (.error e) (.error e')

/-- **A parse of the marked grammar and one with other policies** end in the same way. -/
theorem parseRule_reshapes (g : Grammar) (policies : RuleKey → SkipPolicy) (key : RuleKey) (config : ParserConfig)
    (tokens : List Token) :
    g.Reshapes policies (g.marked.parseRule key config tokens) ((g.withPolicies policies).parseRule key config tokens) := by
  let input : Input := { tokens := tokens.toArray, config }
  have hagree : Attempt.Alike (.reshaping g policies) (Comparison.reshaping g policies).nodes
      (g.marked.matchRule input key {}) ((g.withPolicies policies).matchRule input key {}) :=
    enter_agree (Comparison.reshaping_lawful g input policies) (Comparison.reshaping_rules g input policies)
      config.maxDepth key {} {} ⟨rfl, rfl⟩
  have failed : ∀ {t t' : State}, t.log = t'.log →
      g.Reshapes policies (.error (t.failure input)) (.error (t'.failure input)) := by
    intro t t' hlog
    rw [State.failure_congr hlog]
    exact .error (.same State.failure_not_limit)
  unfold parseRule run
  simp only
  generalize g.marked.matchRule input key {} = r at hagree ⊢
  generalize (g.withPolicies policies).matchRule input key {} = r' at hagree ⊢
  cases hagree with
  | @matched _ _ t t' hn ht =>
    obtain ⟨tree, rfl, rfl⟩ := hn
    have hend : t.atEnd input = t'.atEnd input := by rw [State.atEnd, State.atEnd, ht.1]
    simp only
    by_cases hall : t.atEnd input = true
    · rw [if_pos hall, if_pos (hend ▸ hall)]
      exact .tree tree
    · rw [if_neg hall, if_neg (hend ▸ hall)]
      exact failed ((Comparison.reshaping_lawful g input policies).miss ht _).2
  | backtrack ht => exact failed ht.2
  | fatal he _ => exact .error he
  | aside he => exact he.elim

/-- **Policies only reshape the tree.**

A parse fails with the same error for all policies, or there is one rule tree, whose root is of the rule that was parsed:
without policies it is the tree as it stands, and with those of the grammar what is left of it, under the root.  Nothing
that is left is to give way, no node below the root is skipped, and the tokens are the same. -/
theorem parseRule_reshaped (g : Grammar) (key : RuleKey) (config : ParserConfig) (tokens : List Token) :
    (∃ e, g.parseRule key config tokens = .error e ∧
      ∀ policies, (g.withPolicies policies).parseRule key config tokens = .error e) ∨
    ∃ (children : List RuleTree) (start stop : Nat),
      let tree := RuleTree.rule key children start stop
      let left := RuleTree.elidedEach g.policies children
      (∀ policies, (g.withPolicies policies).parseRule key config tokens = .ok (tree.reshaped g.ruleName policies)) ∧
      (g.withPolicies fun _ => .never).parseRule key config tokens = .ok (tree.node g.ruleName) ∧
      g.parseRule key config tokens = .ok (.branch (g.ruleName key) (RuleTree.nodes g.ruleName left) start stop
        ((g.policies key).givesWay left.length)) ∧
      (∀ t ∈ left, t.Settled g.policies) ∧
      (∀ c ∈ RuleTree.nodes g.ruleName left, ∀ d ∈ c.descendants, d.isSkipped = false) ∧
      (RuleTree.nodes g.ruleName left).flatMap Node.tokens = (tree.node g.ruleName).tokens := by
  have hself : g.parseRule key config tokens = (g.withPolicies g.policies).parseRule key config tokens := by
    rw [withPolicies_policies]
  have hreshapes := fun policies => g.parseRule_reshapes policies key config tokens
  cases hmarked : g.marked.parseRule key config tokens with
  | error e =>
    left
    have same : ∀ policies, ∃ e', (g.withPolicies policies).parseRule key config tokens = .error e' ∧ e.Renamed g e' := by
      intro policies
      have hreshape := hreshapes policies
      rw [hmarked] at hreshape
      generalize (g.withPolicies policies).parseRule key config tokens = r at hreshape ⊢
      cases hreshape with
      | error hrenamed => exact ⟨_, rfl, hrenamed⟩
    obtain ⟨e', he', hrenamed⟩ := same g.policies
    refine ⟨e', hself.trans he', fun policies => ?_⟩
    obtain ⟨e'', he'', hrenamed'⟩ := same policies
    rw [he'', hrenamed'.unique hrenamed]
  | ok n =>
    right
    have whole : ∀ policies, ∃ tree : RuleTree, n = tree.node mark ∧
        (g.withPolicies policies).parseRule key config tokens = .ok (tree.reshaped g.ruleName policies) := by
      intro policies
      have hreshape := hreshapes policies
      rw [hmarked] at hreshape
      generalize (g.withPolicies policies).parseRule key config tokens = r at hreshape ⊢
      cases hreshape with
      | tree tree => exact ⟨tree, rfl, rfl⟩
    obtain ⟨tree, hn, -⟩ := whole g.policies
    obtain ⟨children, start, stop, rfl⟩ := marked_root (hn ▸ hmarked)
    -- the marks tell the whole tree, so it is the same one for all policies
    have hall : ∀ policies, (g.withPolicies policies).parseRule key config tokens =
        .ok ((RuleTree.rule key children start stop).reshaped g.ruleName policies) := by
      intro policies
      obtain ⟨tree', hn', hp⟩ := whole policies
      rw [hp, RuleTree.node_inj mark_telling _ _ (hn'.symm.trans hn)]
    refine ⟨children, start, stop, hall, ?_, ?_, ?_, ?_, ?_⟩
    · rw [hall, RuleTree.reshaped_never]
    · exact hself.trans (hall g.policies)
    · exact RuleTree.forall_mem_elidedEach.2 (fun t _ => RuleTree.elided_settled t)
    · exact RuleTree.reshaped_kept (.rule key children start stop)
    · have htokens := @RuleTree.tokens_reshaped g.ruleName g.policies (.rule key children start stop)
      rw [RuleTree.reshaped, Node.tokens_branch] at htokens
      exact htokens

/-- A sum of products of letters: where there is a single letter it takes the place of the product, and where there is a
single product it takes the place of nothing but its node. -/
example :
    let letter : String → Token := fun value => ⟨value, TokenType.identifier, 1, 0, ⟨0, 1⟩⟩
    let many : String → RuleKey → Matcher := fun between item =>
      .sequence [.rule item, .zeroOrMore (.sequence [.literal between, .rule item])]
    let g : Grammar := ⟨#[⟨"sum", many "+" 1, .ifOnlyOneChild⟩, ⟨"product", many "*" 2, .ifOnlyOneChild⟩,
      ⟨"letter", .anyToken, .always⟩], 0⟩
    (g.parse [letter "a"]).toOption.map (fun n => (n.dump, n.isSkipped)) =
        some ("sum\n  IDENTIFIER \"a\"@1:0\n", true) ∧
      (g.parse [letter "a", letter "*", letter "b"]).toOption.map (fun n => (n.children.map Node.name, n.isSkipped)) =
        some (["product"], true) := by
  decide +kernel

end Grammar
end LayeredParse
