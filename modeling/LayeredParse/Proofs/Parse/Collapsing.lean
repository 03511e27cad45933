import LayeredParse.Proofs.Grammar.Faults
import LayeredParse.Proofs.Lists
import LayeredParse.Proofs.Parse.Furthest
import LayeredParse.Proofs.Parse.Interchange
/-!
# Collapsing — a single item may stand for its list

Building a grammar puts the only item of a sequence or an alternation in place of it.  Transcribing one keeps every list
as it was written, and does the same otherwise (`Draft.transcribe`).  Whatever is built of a draft or an expression can be
transcribed, and the other way round, with the same errors (`Form.resolve_transcribe`); the two are interchangeable where
nothing is seen of a journal but the index of the furthest failure (`Journal.furthest_link`).  So parses with the two find
the same tree or fail with the same error but for its texts (`Draft.build_transcribe`).
-/
namespace LayeredParse

/-! ## Grammars whose lists are as they were written -/

namespace Form

mutual

/-- The matcher of an expression in a grammar of `count` rules, with every list as it was written. -/
def transcribe (engine : Engine) (name : String) (count : Nat) : Expr → Except GrammarError Matcher
  | sequence items => (transcribeEach engine name count items).map .sequence
  | firstOf alternatives => (transcribeEach engine name count alternatives).map .firstOf
  | longestOne alternatives => (transcribeEach engine name count alternatives).map .longestOne
  | strictOr alternatives => (transcribeEach engine name count alternatives).map .strictOr
  | optional item => (transcribe engine name count item).map .optional
  | zeroOrMore item => (transcribe engine name count item).map .zeroOrMore
  | oneOrMore item => (transcribe engine name count item).map .oneOrMore
  | next item => (transcribe engine name count item).map .next
  | not item => (transcribe engine name count item).map .not
  | adjacent item => (transcribe engine name count item).map .adjacent
  | till terminator => (transcribe engine name count terminator).map .till
  | literal value => .ok (.literal value)
  | regex pattern =>
    match Pattern.compile? engine pattern with
    | some compiled => .ok (.regex compiled)
    | none => .error (.invalidRegex name pattern)
  | tokenType type => .ok (.tokenType type)
  | anyToken => .ok .anyToken
  | endOfInput => .ok .endOfInput
  | rule key => if key < count then .ok (.rule key) else .error (.unknownRule name key)

def transcribeEach (engine : Engine) (name : String) (count : Nat) : List Expr → Except GrammarError (List Matcher)
  | [] => .ok []
  | item :: items =>
    match transcribe engine name count item with
    | .error e => .error e
    | .ok m => (transcribeEach engine name count items).map (m :: ·)

end

end Form

/-- The rule in a grammar of `count` rules, with every list as it was written. -/
def Definition.transcribe (d : Definition) (count : Nat) (engine : Engine) : Except GrammarError Rule :=
  match d.body with
  | none => .error (.notDefined d.name)
  | some body =>
    ((d.wraps.foldl (fun body f => f body) body).transcribe engine d.name count).map fun matcher =>
      { name := d.name, matcher, policy := d.policy }

namespace Draft

def transcribeEach (engine : Engine) (count : Nat) : List Definition → Except GrammarError (List Rule)
  | [] => .ok []
  | definition :: rest =>
    match definition.transcribe count engine with
    | .error e => .error e
    | .ok rule => (transcribeEach engine count rest).map (rule :: ·)

/-- The grammar that starts from the given root, with every list as it was written. -/
def transcribe (d : Draft) (root : RuleKey) (engine : Engine) : Except GrammarError Grammar :=
  if d.size ≤ root then .error (.unknownRule "<root>" root)
  else (transcribeEach engine d.size d.definitions.toList).map fun rules => { rules := rules.toArray, root }

end Draft

/-- The same error, or results that are related. -/
inductive ResultsRelated {ε α β : Type} (R : α → β → Prop) : Except ε α → Except ε β → Prop
  | error (e : ε) : ResultsRelated R (.error e) (.error e)
  | ok {a : α} {b : β} (h : R a b) : ResultsRelated R (.ok a) (.ok b)

theorem ResultsRelated.map {ε α β γ δ : Type} {R : α → β → Prop} {S : γ → δ → Prop} {x : Except ε α} {y : Except ε β}
    {f : α → γ} {f' : β → δ} (h : ResultsRelated R x y) (hf : ∀ a b, R a b → S (f a) (f' b)) :
    ResultsRelated S (x.map f) (y.map f') := by
  cases h with
  | error e => exact .error e
  | ok h => exact .ok (hf _ _ h)

/-! ## Lists of one item -/

namespace Attempt

variable {J : Journal → Journal → Prop} {input : Input} {α : Type}

/-- **A sequence of one item is that item**, which goes back by itself. -/
theorem sequence_singleton {a : Attempt Forest} (h : Balanced input a) : sequence [a] = a := by
  funext s
  have ha := h s
  simp only [sequence, atomic, chain]
  generalize a s = r at ha ⊢
  rcases r with ⟨first | _ | _, t⟩
  · simp only [List.append_nil]
  · simp only [State.goTo_eq_self ha.2]
  · simp only [State.goTo_eq_self ha.2]

/-- An alternation of one attempt does what the attempt does, but for the reason to backtrack. -/
theorem firstOf_singleton_echo {a : Attempt α} (h : Echo J a a) : Echo J a (firstOf [a]) := by
  intro s s' hs
  have ha := h s s' hs
  simp only [firstOf]
  generalize a s = r at ha ⊢
  generalize a s' = r' at ha ⊢
  cases ha with
  | matched ht => exact .matched ht
  | backtrack ht => exact .backtrack ht
  | fatal he ht => exact .fatal he ht

end Attempt

section

variable {J : Journal → Journal → Prop} {input : Input} {engine : Engine} {name : String} {count : Nat}

open Matcher (Interchange)

namespace Form

theorem collapsed_sequence (hJ : Journal.Link J) (ms : List Matcher) :
    Interchange J input (collapsed .sequence ms) (.sequence ms) := by
  unfold collapsed
  split
  · rename_i m
    intro call hcall
    have hone : Matcher.attempt input call (.sequence [m]) = Matcher.attempt input call m :=
      Attempt.sequence_singleton (Matcher.attempt_balanced hcall.balanced m)
    rw [hone]
    exact Interchange.refl hJ m call hcall
  · exact Interchange.refl hJ _

theorem collapsed_firstOf (hJ : Journal.Link J) (ms : List Matcher) :
    Interchange J input (collapsed .firstOf ms) (.firstOf ms) := by
  unfold collapsed
  split
  · rename_i m
    exact fun call hcall => Attempt.firstOf_singleton_echo (Interchange.refl hJ m call hcall)
  · exact Interchange.refl hJ _

theorem resolveEach_transcribeEach : ∀ {items : List Expr},
    (∀ item ∈ items, ResultsRelated (Interchange J input) (resolve engine name count item) (transcribe engine name count item)) →
      ResultsRelated (List.Forall₂ (Interchange J input)) (resolveEach engine name count items) (transcribeEach engine name count items)
  | [], _ => .ok .nil
  | item :: items, h => by
    obtain ⟨hitem, hitems⟩ := List.forall_mem_cons.1 h
    rw [resolveEach, transcribeEach]
    generalize resolve engine name count item = x at hitem ⊢
    generalize transcribe engine name count item = y at hitem ⊢
    cases hitem with
    | error e => exact .error e
    | ok hm => exact (resolveEach_transcribeEach hitems).map fun _ _ hms => .cons hm hms

/-- **An expression is resolved to a matcher that can stand for its transcription**, or both are refused with the same
error. -/
theorem resolve_transcribe (hJ : Journal.Link J) (e : Expr) :
    ResultsRelated (Interchange J input) (resolve engine name count e) (transcribe engine name count e) := by
  induction e using Form.parts_induction with
  | sequence items ih =>
    exact (resolveEach_transcribeEach ih).map fun ms _ h => (collapsed_sequence hJ ms).trans hJ (.sequence h)
  | firstOf alternatives ih =>
    exact (resolveEach_transcribeEach ih).map fun ms _ h => (collapsed_firstOf hJ ms).trans hJ (.firstOf h)
  | longestOne alternatives ih => exact (resolveEach_transcribeEach ih).map fun _ _ => .longestOne
  | strictOr alternatives ih => exact (resolveEach_transcribeEach ih).map fun _ _ => .strictOr
  | optional item ih => exact ih.map fun _ _ => .optional
  | zeroOrMore item ih => exact ih.map fun _ _ => .zeroOrMore
  | oneOrMore item ih => exact ih.map fun _ _ => .oneOrMore
  | next item ih => exact ih.map fun _ _ => .next
  | not item ih => exact ih.map fun _ _ => .not hJ
  | adjacent item ih => exact ih.map fun _ _ => .adjacent hJ
  | till terminator ih => exact ih.map fun _ _ => .till
  | regex pattern =>
    rw [resolve, transcribe]
    cases Pattern.compile? engine pattern with
    | none => exact .error _
    | some compiled => exact .ok (.refl hJ _)
  | rule key =>
    rw [resolve, transcribe]
    by_cases hkey : key < count
    · rw [if_pos hkey]
      exact .ok (.refl hJ _)
    · rw [if_neg hkey]
      exact .error _
  | literal value | tokenType type | anyToken | endOfInput => exact .ok (.refl hJ _)

end Form

/-! ## Rules and grammars -/

theorem Definition.build_transcribe_rule (hJ : Journal.Link J) (d : Definition) :
    ResultsRelated (Rule.Interchange J input) (d.build count engine) (d.transcribe count engine) := by
  unfold Definition.build Definition.transcribe
  cases d.body with
  | none => exact .error _
  | some body => exact (Form.resolve_transcribe hJ _).map fun _ _ h => ⟨rfl, rfl, h⟩

theorem Draft.buildEach_transcribeEach (hJ : Journal.Link J) : ∀ (ds : List Definition),
    ResultsRelated (List.Forall₂ (Rule.Interchange J input)) (buildEach engine count ds) (transcribeEach engine count ds)
  | [] => .ok .nil
  | d :: ds => by
    have hd : ResultsRelated (Rule.Interchange J input) (d.build count engine) (d.transcribe count engine) := d.build_transcribe_rule hJ
    rw [buildEach, transcribeEach]
    generalize d.build count engine = x at hd ⊢
    generalize d.transcribe count engine = y at hd ⊢
    cases hd with
    | error e => exact .error e
    | ok hrule => exact (buildEach_transcribeEach hJ ds).map fun _ _ hrules => .cons hrule hrules

theorem Draft.build_transcribe_grammar (hJ : Journal.Link J) (d : Draft) (root : RuleKey) :
    ResultsRelated (fun g g' => g.root = g'.root ∧ g.Interchange J input g') (d.build root engine) (d.transcribe root engine) := by
  unfold Draft.build Draft.transcribe
  by_cases hroot : d.size ≤ root
  · rw [if_pos hroot, if_pos hroot]
    exact .error _
  · rw [if_neg hroot, if_neg hroot]
    have heach : ResultsRelated (List.Forall₂ (Rule.Interchange J input)) (buildEach engine d.size d.definitions.toList)
        (transcribeEach engine d.size d.definitions.toList) := buildEach_transcribeEach hJ d.definitions.toList
    refine heach.map fun rules rules' h => ⟨rfl, fun key => ?_⟩
    simp only [Grammar.rule?, List.getElem?_toArray]
    exact List.Forall₂.getElem?_rel h key

end

/-! ## What is seen of a journal -/

theorem Furthest.read_index_congr {f f' : Furthest} (h : f.index = f'.index) (e : Entry) :
    (f.read e).index = (f'.read e).index := by
  cases e with
  | missed index expected => rw [read_missed, read_missed, add_index, add_index, h]
  | entered rule index | left rule matched index => exact h

/-- **The index of the furthest failure does not depend on what was expected.** -/
theorem Journal.furthest_link : Journal.Link fun j j' => j.furthest.index = j'.furthest.index where
  refl _ := rfl
  symm := Eq.symm
  trans := Eq.trans
  record h e := Furthest.read_index_congr h e
  missed {j j'} h index expected expected' := by
    show (j.furthest.read (.missed index expected)).index = (j'.furthest.read (.missed index expected')).index
    rw [Furthest.read_missed, Furthest.read_missed, Furthest.add_index, Furthest.add_index, h]

theorem State.failure_unworded {input : Input} {s s' : State} (h : s.furthest.index = s'.furthest.index) :
    (s.failure input).unworded = (s'.failure input).unworded := by
  unfold State.failure
  dsimp only
  rw [h]
  split <;> rfl

theorem ParseError.unworded_unworded (e : ParseError) : e.unworded.unworded = e.unworded := by
  cases e <;> rfl

/-- **Putting single items in place of their lists changes nothing but what errors say.**

A draft that cannot be built cannot be transcribed, for the same reason, and the other way round.  If it can, parses with
the two grammars find the same tree, from any rule, with any configuration and any tokens, or fail with errors that
differ in the matchers that they name only. -/
theorem Draft.build_transcribe (d : Draft) (root : RuleKey) (engine : Engine) :
    match d.build root engine, d.transcribe root engine with
    | .ok g, .ok g' =>
      g.root = g'.root ∧ ∀ (key : RuleKey) (config : ParserConfig) (tokens : List Token),
        (g.parseRule key config tokens).mapError ParseError.unworded =
          (g'.parseRule key config tokens).mapError ParseError.unworded
    | .error e, .error e' => e = e'
    | .ok _, .error _ | .error _, .ok _ => False := by
  have h := fun input : Input => @build_transcribe_grammar _ input engine Journal.furthest_link d root
  generalize d.build root engine = x at h ⊢
  generalize d.transcribe root engine = y at h ⊢
  rcases x with e | g <;> rcases y with e' | g'
  · cases h { tokens := #[] }
    rfl
  · cases h { tokens := #[] }
  · cases h { tokens := #[] }
  · refine ⟨?_, fun key config tokens => ?_⟩
    · cases h { tokens := #[] } with
      | ok hg => exact hg.1
    · cases h { tokens := tokens.toArray, config } with
      | ok hg =>
        exact hg.2.parseRule Journal.furthest_link ParseError.unworded_unworded
          (fun hs => State.failure_unworded hs.journal) key

/-- What is not to come next is named without its list if that has been collapsed. -/
example :
    let draft : Draft := ⟨#[{ name := "other", body := some (.not (.sequence [.literal "a"])) }]⟩
    let tokens : List Token := [⟨"a", TokenType.identifier, 1, 0, ⟨0, 1⟩⟩]
    (draft.build 0).map (fun g => (g.parseRule 0 {} tokens).mapError ParseError.message) =
        .ok (.error "expected not \"a\", got \"a\" at 1:1") ∧
      (draft.transcribe 0 Regex.engine).map (fun g => (g.parseRule 0 {} tokens).mapError ParseError.message) =
        .ok (.error "expected not (\"a\"), got \"a\" at 1:1") :=
  ⟨rfl, rfl⟩

end LayeredParse
