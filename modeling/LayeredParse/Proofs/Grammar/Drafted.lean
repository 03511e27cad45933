import LayeredParse.Proofs.Grammar.Drafting
import LayeredParse.Proofs.Lists
/-!
# Drafted — the grammar that is built after a sequence of calls

The log of the calls tells what `Draft.build` makes of the draft (`Draft.drafted_builds`): the first thing that is wrong
with a rule, in the order in which the rules were first mentioned, or a grammar with these rules in this order, each with
the policy that was set last and the matcher of its base body in everything that was to be wrapped around it.
-/
namespace LayeredParse

theorem Definition.build_ok {engine : Engine} {d : Definition} {count : Nat} {rule : Rule}
    (h : d.build count engine = .ok rule) :
    ∃ e m, d.wrapped? = some e ∧ e.resolve engine d.name count = .ok m ∧ rule = ⟨d.name, m, d.policy⟩ := by
  unfold build at h
  unfold wrapped?
  split at h
  · cases h
  · rename_i body hbody
    obtain ⟨m, hm, rfl⟩ := Form.map_eq_ok h
    exact ⟨_, m, by rw [hbody]; rfl, hm, rfl⟩

/-- The first thing that is wrong with a rule. -/
def Log.fault (engine : Engine) (log : Log) (name : String) : Option GrammarError :=
  (Definition.told name (log.deeds name)).firstFault engine log.names.length

/-- **Whether a grammar is what its log says**, when an engine compiles its patterns. -/
structure Grammar.Realizes (engine : Engine) (g : Grammar) (log : Log) (root : RuleKey) : Prop where
  root_eq : g.root = root
  size_eq : g.size = log.names.length
  key?_iff : ∀ name key, g.key? name = some key ↔ log.names[key]? = some name
  key?_ruleName : ∀ key < g.size, g.key? (g.ruleName key) = some key
  ruleName_key? : ∀ name key, g.key? name = some key → g.ruleName key = name
  rule_eq : ∀ key name, log.names[key]? = some name → ∃ e m,
    (Definition.told name (log.deeds name)).wrapped? = some e ∧ e.resolve engine name log.names.length = .ok m ∧
      g.rule? key = some ⟨name, m, (Definition.told name (log.deeds name)).policy⟩

namespace Draft

variable {engine : Engine} {log : Log} {root : RuleKey} {rules : List Rule}

theorem told_toList (log : Log) :
    (told log).definitions.toList = log.names.map fun name => Definition.told name (log.deeds name) := rfl

theorem told_refusal (log : Log) :
    refusal? (buildEach engine log.names.length (told log).definitions.toList) =
      log.names.findSome? (log.fault engine) := by
  rw [buildEach_refusal, told_toList, List.findSome?_map]
  rfl

/-- The rules of a grammar that is built are those of the log, in their order. -/
theorem realizes_of_buildEach (h : buildEach engine log.names.length (told log).definitions.toList = .ok rules) :
    Grammar.Realizes engine { rules := rules.toArray, root } log root := by
  have hrules : List.Forall₂ (fun name rule =>
      (Definition.told name (log.deeds name)).build log.names.length engine = .ok rule) log.names rules := by
    rw [told_toList] at h
    exact List.forall₂_map_left_iff.1 (buildEach_forall₂ h)
  have hnames : rules.map Rule.name = log.names := by
    refine (List.forall₂_eq_eq_eq ▸ List.forall₂_map_right_iff.2 (hrules.imp fun name rule hbuild => ?_) : _ = _).symm
    obtain ⟨e, m, -, -, rfl⟩ := Definition.build_ok hbuild
    rfl
  have hkey : ∀ name key, Grammar.key? { rules := rules.toArray, root } name = some key ↔ log.names[key]? = some name := by
    intro name key
    rw [Grammar.key?, List.findIdx?_toArray, ← List.findIdx?_beq_eq_some_iff log.names_nodup, ← hnames, List.findIdx?_map]
    rfl
  have hrule : ∀ key name, log.names[key]? = some name → ∃ e m,
      (Definition.told name (log.deeds name)).wrapped? = some e ∧ e.resolve engine name log.names.length = .ok m ∧
        Grammar.rule? { rules := rules.toArray, root } key =
          some ⟨name, m, (Definition.told name (log.deeds name)).policy⟩ := by
    intro key name hname
    obtain ⟨rule, hget, hbuild⟩ := List.Forall₂.exists_getElem? hrules hname
    obtain ⟨e, m, hwrapped, hresolve, rfl⟩ := Definition.build_ok hbuild
    exact ⟨e, m, hwrapped, hresolve, by rw [Grammar.rule?, List.getElem?_toArray, hget]; rfl⟩
  have hruleName : ∀ key name, log.names[key]? = some name →
      Grammar.ruleName { rules := rules.toArray, root } key = name := by
    intro key name hname
    obtain ⟨e, m, -, -, hrule⟩ := hrule key name hname
    rw [Grammar.ruleName, hrule]
  have hsize : Grammar.size { rules := rules.toArray, root } = log.names.length := hrules.length_eq.symm
  refine ⟨rfl, hsize, hkey, fun key hlt => ?_, fun name key h => hruleName key name ((hkey name key).1 h), hrule⟩
  have hget : log.names[key]? = some log.names[key] := List.getElem?_eq_getElem (hsize ▸ hlt)
  rw [hruleName key _ hget, hkey, hget]

/-- **What a sequence of calls builds.**

A draft can be told from the log of the calls: which rules there are from the names in the order in which they were first
mentioned, and each of them from what was to be done to it.  A call gives back the place of its rule in that order, which
no later call changes; only a body for a rule that has one is refused, and then nothing changes.

Building fails if the root is none of the rules, which is reported before anything else, or if something is wrong with a
rule, and then with the first thing that is wrong with the first such rule.  Otherwise the grammar is what the log says.
So calls that mention the same rules in the same order and do what comes to the same to each of them build the same. -/
theorem drafted_builds (engine : Engine) (calls : List Call) :
    let log := logOf calls
    drafted calls = told log ∧
    (∀ c, Answers log c ((drafted calls).call c)) ∧
    (∀ more, log.names <+: (logOf (calls ++ more)).names) ∧
    (∀ root, match (drafted calls).build root engine with
      | .ok g => root < log.names.length ∧ (∀ name ∈ log.names, log.fault engine name = none) ∧ g.Realizes engine log root
      | .error e => log.names.length ≤ root ∧ e = .unknownRule "<root>" root ∨
          root < log.names.length ∧ ∃ before name after, log.names = before ++ name :: after ∧
            log.fault engine name = some e ∧ ∀ other ∈ before, log.fault engine other = none) ∧
    ∀ calls', (logOf calls').names = log.names →
      (∀ name ∈ log.names, Definition.told name ((logOf calls').deeds name) = Definition.told name (log.deeds name)) →
        ∀ root, (drafted calls').build root engine = (drafted calls).build root engine := by
  intro log
  have hdrafted : drafted calls = told log := drafted_eq calls
  refine ⟨hdrafted, fun c => hdrafted ▸ call_answers log c, fun more => ?_, fun root => ?_, fun calls' hnames h root => ?_⟩
  · induction more using List.reverseRecOn with
    | nil =>
      have hnil : logOf (calls ++ []) = log := congrArg logOf (List.append_nil calls)
      exact hnil ▸ List.prefix_rfl
    | append_singleton more c ih =>
      rw [← List.append_assoc, logOf_snoc]
      exact ih.trans (Log.names_prefix_note _ c)
  · have hrefusal := @told_refusal engine log
    rw [hdrafted, build, told_size]
    by_cases hout : log.names.length ≤ root
    · rw [if_pos hout]
      exact .inl ⟨hout, rfl⟩
    · rw [if_neg hout]
      have hroot := Nat.lt_of_not_le hout
      cases hbuild : buildEach engine log.names.length (told log).definitions.toList with
      | error e =>
        rw [hbuild] at hrefusal
        obtain ⟨before, name, after, hnames, hfault, hbefore⟩ := List.findSome?_eq_some_iff.1 hrefusal.symm
        exact .inr ⟨hroot, before, name, after, hnames, hfault, hbefore⟩
      | ok rules =>
        rw [hbuild] at hrefusal
        exact ⟨hroot, List.findSome?_eq_none_iff.1 hrefusal.symm, realizes_of_buildEach hbuild⟩
  · rw [drafted_eq calls', hdrafted, told_congr hnames (fun name hname => h name (hnames ▸ hname))]

/-- A list and its items: whether the item has a body before it is mocked or is refused one after that, the same is built,
and so it is whether the rules are looked up by their names or by their keys. -/
theorem drafted_builds_list : ∃ (calls calls' : List Call) (g : Grammar), calls.length < calls'.length ∧
    (drafted calls).build 0 = .ok g ∧ (drafted calls').build 0 = .ok g ∧ g.key? "item" = some 1 ∧
      (g.matcher? 0).map Matcher.render = some "(\"item\" <rule #1>*)" ∧
      (g.matcher? 1).map Matcher.render = some "\"item\"?" ∧ g.policy? 1 = some .always := by
  let body : Deed := .define (.sequence [.literal "item", .zeroOrMore (.rule 1)])
  let calls : List Call := [⟨.named "list", body⟩, ⟨.named "item", some (.wrap .optional)⟩,
    ⟨.named "item", some (.define .anyToken)⟩, ⟨.named "item", some .mock⟩, ⟨.keyed 1, some (.skipIf .always)⟩]
  let calls' : List Call := [⟨.named "list", none⟩, ⟨.named "item", some .mock⟩, ⟨.keyed 0, some body⟩,
    ⟨.named "item", some (.define .anyToken)⟩, ⟨.keyed 1, some (.wrap .optional)⟩, ⟨.named "item", some (.skipIf .always)⟩]
  let g : Grammar := ⟨#[⟨"list", .sequence [.literal "item", .zeroOrMore (.rule 1)], .never⟩,
    ⟨"item", .optional (.literal "item"), .always⟩], 0⟩
  have hlog : logOf calls = [("list", some body), ("item", some (.wrap .optional)), ("item", some (.define .anyToken)),
      ("item", some .mock), ("item", some (.skipIf .always))] := rfl
  have hlog' : logOf calls' = [("list", none), ("item", some .mock), ("list", some body),
      ("item", some (.define .anyToken)), ("item", some (.wrap .optional)), ("item", some (.skipIf .always))] := rfl
  obtain ⟨hdrafted, -, -, hbuild, hsame⟩ := drafted_builds Regex.engine calls
  rw [hlog] at hdrafted hbuild hsame
  have hg : (drafted calls).build 0 = .ok g := by
    rw [hdrafted]
    rfl
  have hreal := hbuild 0
  rw [hg] at hreal
  have hnames : Log.names (logOf calls') = ["list", "item"] := by
    rw [hlog']
    rfl
  have htold : ∀ name ∈ ["list", "item"],
      Definition.told name ((logOf calls').deeds name) = Definition.told name ((logOf calls).deeds name) := by
    rw [hlog, hlog']
    exact List.forall_mem_cons.2 ⟨rfl, List.forall_mem_singleton.2 rfl⟩
  have hsameg : (drafted calls').build 0 = .ok g := (hsame calls' hnames htold 0).trans hg
  refine ⟨calls, calls', g, by decide, hg, hsameg, (hreal.2.2.key?_iff "item" 1).2 rfl, ?_, ?_, rfl⟩
  · decide +kernel
  · decide +kernel

end Draft
end LayeredParse
