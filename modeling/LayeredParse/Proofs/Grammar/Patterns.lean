import LayeredParse.Proofs.Grammar.Drafted
import LayeredParse.Proofs.Parse.Room
import LayeredParse.Proofs.Regex.Anchoring
/-!
# Patterns — the patterns of a rule and of its matcher

A rule that is built has the patterns of its body, compiled, in their order (`Form.resolve_patterns`).  What is said of
anchored patterns can then be said of the matchers of a grammar: they take the tokens whose whole value the pattern
matches (`Definition.build_patterns`).
-/
namespace LayeredParse
namespace Form

variable {ρ : Type}

/-- The pattern, if the form is one. -/
def pattern? : Form ρ → Option ρ
  | regex pattern => some pattern
  | _ => none

/-- The patterns in a form, in the order in which they are written. -/
def patterns (m : Form ρ) : List ρ :=
  m.subforms.filterMap pattern?

theorem patterns_eq (m : Form ρ) : m.patterns = m.pattern?.toList ++ m.items.flatMap patterns := by
  rw [patterns, subforms_eq, List.filterMap_cons, List.filterMap_flatMap]
  cases m.pattern? <;> rfl

theorem patterns_items {m : Form ρ} (h : m.pattern? = none) : m.patterns = m.items.flatMap patterns := by
  rw [patterns_eq, h]
  rfl

theorem patterns_item {m item : Form ρ} (h : m.pattern? = none) (hitems : m.items = [item]) :
    m.patterns = item.patterns := by
  rw [patterns_items h, hitems, List.flatMap_singleton]

theorem patterns_collapsed {make : List Matcher → Matcher} (hmake : ∀ ms, (make ms).patterns = ms.flatMap patterns)
    (ms : List Matcher) : (collapsed make ms).patterns = ms.flatMap patterns := by
  unfold collapsed
  split
  · exact (List.flatMap_singleton _ _).symm
  · exact hmake _

/-- Whether patterns are the given texts compiled, one for one. -/
def Compiled (engine : Engine) (sources : List String) (ps : List Pattern) : Prop :=
  List.Forall₂ (fun source p => Pattern.compile? engine source = some p) sources ps

variable {engine : Engine} {name : String} {count : Nat}

/-- The patterns of expressions one after the other are compiled if those of each are. -/
theorem resolveEach_patterns : ∀ {items : List Expr} {ms : List Matcher},
    (∀ item ∈ items, ∀ {m : Matcher}, resolve engine name count item = .ok m → Compiled engine item.patterns m.patterns) →
      resolveEach engine name count items = .ok ms → Compiled engine (items.flatMap patterns) (ms.flatMap patterns)
  | [], _, _, h => by
    cases h
    exact .nil
  | item :: items, _, hitems, h => by
    obtain ⟨hitem, hitems⟩ := List.forall_mem_cons.1 hitems
    rw [resolveEach] at h
    split at h
    · cases h
    · rename_i m hm
      obtain ⟨ms, hms, rfl⟩ := map_eq_ok h
      exact List.rel_append (hitem hm) (resolveEach_patterns hitems hms)

/-- **A matcher has the patterns of its expression**, compiled. -/
theorem resolve_patterns (e : Expr) : ∀ {m : Matcher}, resolve engine name count e = .ok m →
    Compiled engine e.patterns m.patterns := by
  have unary {item e : Expr} {make : Matcher → Matcher}
      (ih : ∀ {m : Matcher}, resolve engine name count item = .ok m → Compiled engine item.patterns m.patterns)
      (he : e.patterns = item.patterns) (hmake : ∀ m, (make m).patterns = m.patterns) {m : Matcher}
      (h : (resolve engine name count item).map make = .ok m) : Compiled engine e.patterns m.patterns := by
    obtain ⟨a, ha, rfl⟩ := map_eq_ok h
    rw [he, hmake]
    exact ih ha
  have each {items : List Expr} {e : Expr} {make : List Matcher → Matcher}
      (ih : ∀ item ∈ items, ∀ {m : Matcher}, resolve engine name count item = .ok m → Compiled engine item.patterns m.patterns)
      (he : e.patterns = items.flatMap patterns) (hmake : ∀ ms, (make ms).patterns = ms.flatMap patterns)
      {m : Matcher} (h : (resolveEach engine name count items).map make = .ok m) : Compiled engine e.patterns m.patterns := by
    obtain ⟨ms, hms, rfl⟩ := map_eq_ok h
    rw [he, hmake]
    exact resolveEach_patterns ih hms
  induction e using Form.parts_induction with
  | sequence items ih | firstOf items ih =>
    intro m h
    exact each ih (patterns_items rfl) (patterns_collapsed fun _ => patterns_items rfl) h
  | longestOne items ih | strictOr items ih =>
    intro m h
    exact each ih (patterns_items rfl) (fun _ => patterns_items rfl) h
  | optional item ih | zeroOrMore item ih | oneOrMore item ih | next item ih | not item ih | adjacent item ih
  | till item ih =>
    intro m h
    exact unary ih (patterns_item rfl rfl) (fun _ => patterns_item rfl rfl) h
  | regex source =>
    intro m h
    rw [resolve] at h
    split at h
    · rename_i p hp
      cases h
      exact .cons hp .nil
    · cases h
  | rule key =>
    intro m h
    rw [resolve] at h
    split at h <;> cases h
    exact .nil
  | literal value | tokenType type | anyToken | endOfInput =>
    intro m h
    cases h
    exact .nil

end Form

namespace Grammar

theorem attemptAt_regex {g : Grammar} {input : Input} {s : State} {c : Pattern} :
    (g.attemptAt input (.regex c) s).1.isMatch = true ↔
      ∃ token, input.read s.index = some token ∧ c.accepts token.value = true := by
  rw [attemptAt, Matcher.attempt, Attempt.leaf]
  cases hread : input.read s.index with
  | none => simp [Answer.isMatch]
  | some token => cases haccepts : c.accepts token.value <;> simp [Answer.isMatch, haccepts]

end Grammar

/-- **A pattern in a rule speaks of whole values**, whatever the engine that follows the documented rules.

A rule that is built has the patterns of its body, one for one and in their order.  A pattern that is an expression by
itself takes just the tokens whose value that expression matches from the first character to the last.  A pattern that is
none closes the group it is put into, and so the text with the anchors may be an expression although the pattern is not. -/
theorem Definition.build_patterns {engine : Engine} {dialect : Dialect} (documented : engine.Documented dialect)
    {d : Definition} {count : Nat} {rule : Rule} (h : d.build count engine = .ok rule) :
    ∃ body, d.wrapped? = some body ∧ List.Forall₂ (fun (p : String) (c : Pattern) => c.source = p ∧
      (¬dialect.IsExpression p ∧ (∃ u w, p = u ++ ")" ++ w ∧ dialect.IsBody u) ∨
        dialect.IsExpression p ∧ ∀ (g : Grammar) (input : Input) (s : State),
          (g.attemptAt input (.regex c) s).1.isMatch = true ↔
            ∃ token, input.read s.index = some token ∧ dialect.Spans p token.value 0 token.value.length))
      body.patterns rule.matcher.patterns := by
  obtain ⟨body, m, hbody, hm, rfl⟩ := build_ok h
  refine ⟨body, hbody, (Form.resolve_patterns body hm).imp fun p c hc => ?_⟩
  obtain ⟨accepts, haccepts, rfl⟩ := Option.map_eq_some_iff.1 hc
  refine ⟨rfl, ?_⟩
  rcases documented.closes_or (documented.compiled (Option.isSome_of_eq_some haccepts)) with hp | ⟨u, w, rfl, hu⟩
  · refine .inr ⟨hp.alone, fun g input s => ?_⟩
    simp only [Grammar.attemptAt_regex, documented.anchored hp haccepts]
  · exact .inl ⟨documented.unopened hu, u, w, rfl, hu⟩

/-- A rule with a pattern of two branches: the second goes on where the first ends, and a value that goes on further is
not taken. -/
theorem build_patterns_branches : ∃ (d : Definition) (rule : Rule) (c : Pattern), d.build 1 = .ok rule ∧
    rule.matcher.patterns = [c] ∧ Regex.dialect.Spans "a|ab" "ab" 0 2 ∧ ¬Regex.dialect.Spans "a|ab" "abb" 0 3 ∧
    ∀ (g : Grammar) (input : Input) (s : State), (g.attemptAt input (.regex c) s).1.isMatch = true ↔
      ∃ token, input.read s.index = some token ∧ Regex.dialect.Spans "a|ab" token.value 0 token.value.length := by
  let d : Definition := { name := "r", body := some (.regex "a|ab") }
  let r : Regex := .alternation [.oneOf (.single 'a'), .concat [.oneOf (.single 'a'), .oneOf (.single 'b')]]
  have hr : Regex.expression? "a|ab".toList = some r := by rfl
  obtain ⟨c, hc⟩ := Option.isSome_iff_exists.1 (by decide : (Pattern.compile? Regex.engine "a|ab").isSome = true)
  have hbuild : d.build 1 = .ok ⟨"r", .regex c, .never⟩ := by
    simp [d, Definition.build, Form.resolve, hc, Except.map]
  obtain ⟨body, hbody, hpatterns⟩ := Definition.build_patterns Regex.engine_documented hbuild
  cases hbody
  obtain ⟨⟨_, hwhole⟩, _⟩ := List.forall₂_cons.1 hpatterns
  rcases hwhole with ⟨hnone, _⟩ | ⟨_, hmatch⟩
  · exact absurd (Option.isSome_of_eq_some hr) hnone
  · refine ⟨d, _, c, hbuild, rfl, ?_, ?_, hmatch⟩
    · rw [Regex.spans_iff hr]
      simp [r, Regex.Matches, Regex.MatchesAny, Regex.MatchesAll, CharClass.mem, CharClass.single]
    · rw [Regex.spans_iff hr]
      simp [r, Regex.Matches, Regex.MatchesAny, Regex.MatchesAll, CharClass.mem, CharClass.single]

/-- A pattern that closes the group between the anchors and opens another: either branch has one anchor only. -/
example : (Pattern.compile? Regex.engine "a)|(?:b").isSome = true ∧ Regex.parse? "a)|(?:b".toList = none := by decide

end LayeredParse
