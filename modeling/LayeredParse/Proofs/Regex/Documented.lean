import LayeredParse.Regex.Pattern
/-!
# Documented — what is known of an engine of regular expressions

An engine belongs to a dialect, which says what texts are expressions and where they match in a value.  What is documented
of engines with anchors and groups is stated rule by rule (`Engine.Documented`).  Anchors around a group make the pattern in
it speak of whole values, as long as the pattern does not close that group itself (`Engine.Documented.anchored`,
`Engine.Documented.closes_or`).
-/
namespace LayeredParse

/-- Which texts are expressions, and from which position to which an expression can match in a value. -/
structure Dialect where
  IsExpression : String → Prop
  Spans : (expression value : String) → (start stop : Nat) → Prop

namespace Dialect

/-- A group that captures nothing. -/
def group (u : String) : String :=
  "(?:" ++ u ++ ")"

/-- Whether a text is an expression, in a group as well as by itself.  (A comment at its end would hide the closing
parenthesis of the group.) -/
structure IsBody (d : Dialect) (u : String) : Prop where
  alone : d.IsExpression u
  grouped : d.IsExpression (group u)

end Dialect

open Dialect (group)

/-- **The documented rules of an engine.** -/
structure Engine.Documented (engine : Engine) (d : Dialect) : Prop where
  /-- What compiles is an expression.  (One that is too large does not compile.) -/
  compiled {s : String} : (engine.compile? s).isSome → d.IsExpression s
  /-- A value is accepted if there is a match anywhere in it. -/
  search {s : String} {accepts : String → Bool} : engine.compile? s = some accepts → ∀ value,
    accepts value = true ↔ ∃ start stop, d.Spans s value start stop
  /-- `(?:exp)`: what is between the parenthesis that opens a group and the one that closes it is an expression. -/
  closes {s : String} : d.IsExpression ("^(?:" ++ s) → ∃ u w, s = u ++ ")" ++ w ∧ d.IsBody u
  /-- A parenthesis that closes no group is an error. -/
  unopened {u w : String} : d.IsBody u → ¬d.IsExpression (u ++ ")" ++ w)
  /-- `(?:exp)` matches what the expression matches. -/
  grouped {u : String} : d.IsBody u → ∀ value start stop, d.Spans (group u) value start stop ↔ d.Spans u value start stop
  /-- `^` matches at the beginning of the value, and then what follows it matches there. -/
  caret {u : String} : d.IsBody u → ∀ value start stop,
    d.Spans ("^" ++ group u) value start stop ↔ start = 0 ∧ d.Spans (group u) value start stop
  /-- `$` matches at the end of the value, after what stands before it has matched. -/
  dollar {u : String} : d.IsBody u → ∀ value start stop,
    d.Spans ("^" ++ group u ++ "$") value start stop ↔ d.Spans ("^" ++ group u) value start stop ∧ stop = value.length

namespace Engine.Documented

variable {engine : Engine} {d : Dialect}

theorem anchor_eq (p : String) : Pattern.anchor p = "^" ++ group p ++ "$" := by
  rw [String.ext_iff]
  simp [Pattern.anchor, group]

/-- **Anchors around the group of a pattern make it match whole values.** -/
theorem anchored (h : engine.Documented d) {p : String} (hp : d.IsBody p) {accepts : String → Bool}
    (hcompile : engine.compile? (Pattern.anchor p) = some accepts) (value : String) :
    accepts value = true ↔ d.Spans p value 0 value.length := by
  simp only [h.search hcompile, anchor_eq, h.dollar hp, h.caret hp, h.grouped hp]
  constructor
  · rintro ⟨_, _, ⟨rfl, hspans⟩, rfl⟩
    exact hspans
  · exact fun hspans => ⟨0, value.length, ⟨rfl, hspans⟩, rfl⟩

/-- **The group around a pattern is closed after the pattern or in it.** -/
theorem closes_or (h : engine.Documented d) {p : String} (hp : d.IsExpression (Pattern.anchor p)) :
    d.IsBody p ∨ ∃ u w, p = u ++ ")" ++ w ∧ d.IsBody u := by
  have hanchor : Pattern.anchor p = "^(?:" ++ (p ++ ")$") := by
    rw [Pattern.anchor, String.append_assoc]
  rw [hanchor] at hp
  obtain ⟨u, w, hsplit, hu⟩ := h.closes hp
  have hsplit' : p.toList ++ [')', '$'] = u.toList ++ ')' :: w.toList := by
    have := congrArg String.toList hsplit
    simpa using this
  rcases List.append_eq_append_iff.1 hsplit' with ⟨a, hua, hclosing⟩ | ⟨a, hpa, hrest⟩
  · rcases a with _ | ⟨c, a⟩
    · rw [List.append_nil] at hua
      rw [String.toList_injective hua] at hu
      exact .inl hu
    · -- nothing but the dollar sign is left behind the closing parenthesis
      obtain ⟨-, hclosing⟩ := List.cons.inj hclosing
      rcases a with _ | ⟨c, a⟩
      · cases hclosing
      · cases a <;> cases hclosing
  · rcases a with _ | ⟨c, a⟩
    · rw [List.append_nil] at hpa
      rw [← String.toList_injective hpa] at hu
      exact .inl hu
    · obtain ⟨rfl, -⟩ := List.cons.inj hrest
      refine .inr ⟨u, String.ofList a, String.toList_injective ?_, hu⟩
      simp [hpa]

end Engine.Documented
end LayeredParse
