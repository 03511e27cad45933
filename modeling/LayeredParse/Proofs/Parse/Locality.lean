import LayeredParse.Proofs.Parse.Room
import LayeredParse.Proofs.Tree.Descendants
/-!
# Locality — a match depends on what follows and on the token before

Two states, perhaps of different parses, are level if the same tokens follow after the same token and as many rules are
open, wherever they are in their token lists and whatever happened before (`State.Level`).  From level states a matcher
has the same outcome, and its trees are the same but for where they start (`attemptAt_local`).  So nothing can be taken
after the last token (`attempt_within`).
-/
namespace LayeredParse

/-! ## Trees and errors further on -/

namespace Node

mutual

/-- The tree `k` indices further on. -/
def moved (k : Nat) : Node → Node
  | leaf token start stop => leaf token (start + k) (stop + k)
  | branch name children start stop skipped => branch name (movedEach k children) (start + k) (stop + k) skipped

def movedEach (k : Nat) : List Node → List Node
  | [] => []
  | n :: ns => moved k n :: movedEach k ns

end

theorem movedEach_eq_map (k : Nat) : ∀ (ns : List Node), movedEach k ns = ns.map (moved k)
  | [] => rfl
  | n :: ns => by rw [movedEach, movedEach_eq_map k ns, List.map_cons]

theorem moved_branch (k : Nat) (name : String) (ns : List Node) (start stop : Nat) (skipped : Bool) :
    (branch name ns start stop skipped).moved k = branch name (ns.map (moved k)) (start + k) (stop + k) skipped := by
  rw [moved, movedEach_eq_map]

theorem moved_zero (n : Node) : n.moved 0 = n := by
  induction n with
  | leaf token start stop => rfl
  | branch name ns start stop skipped ih =>
    rw [moved_branch, List.map_congr_left ih, List.map_id', Nat.add_zero, Nat.add_zero]

theorem map_moved_zero (ns : List Node) : ns.map (moved 0) = ns := by
  rw [funext moved_zero, List.map_id']

theorem spliced_moved (k : Nat) (n : Node) : (n.moved k).spliced = n.spliced.map (moved k) := by
  cases n with
  | leaf token start stop => rfl
  | branch name ns start stop skipped =>
    rw [moved_branch]
    cases skipped with
    | true => rfl
    | false => exact congrArg ([·]) (moved_branch k name ns start stop false).symm

end Node

/-- The error `k` indices further on. -/
def ParseError.moved (k : Nat) : ParseError → ParseError
  | unexpectedToken index found line column offset expected =>
    unexpectedToken (index + k) found line column offset expected
  | unexpectedEnd index expected => unexpectedEnd (index + k) expected
  | ambiguousAlternatives index matcher => ambiguousAlternatives (index + k) matcher
  | recursionLimit rule limit => recursionLimit rule limit
  | foreignRule key => foreignRule key

theorem ParseError.moved_zero (e : ParseError) : e.moved 0 = e := by
  cases e <;> rfl

/-! ## Level states -/

variable {input input' : Input} {i i' : Nat} {s s' t t' : State}

/-- **The same tokens follow, after the same token, and as many rules are open.**  The states are as far apart as `i` and
`i'` are. -/
structure State.Level (input input' : Input) (i i' : Nat) (s s' : State) : Prop where
  index_eq : s.index + i' = s'.index + i
  depth_eq : s.depth = s'.depth
  ahead_eq : input.tokens.toList.drop s.index = input'.tokens.toList.drop s'.index
  previous_eq : s.previous input = s'.previous input'

namespace State.Level

theorem read_eq (h : Level input input' i i' s s') : input.read s.index = input'.read s'.index := by
  have hhead := congrArg List.head? h.ahead_eq
  rw [List.head?_drop, List.head?_drop, Array.getElem?_toList, Array.getElem?_toList] at hhead
  exact hhead

theorem left_eq (h : Level input input' i i' s s') : input.size - s.index = input'.size - s'.index := by
  have hlength := congrArg List.length h.ahead_eq
  rw [List.length_drop, List.length_drop] at hlength
  exact hlength

theorem back (h : Level input input' i i' s s') (h' : Level input input' i i' t t') :
    Level input input' i i' (t.goTo s.index) (t'.goTo s'.index) :=
  ⟨h.index_eq, h'.depth_eq, h.ahead_eq, h.previous_eq⟩

theorem next (h : Level input input' i i' s s') :
    Level input input' i i' (s.goTo (s.index + 1)) (s'.goTo (s'.index + 1)) where
  index_eq := by
    have hindex := h.index_eq
    show s.index + 1 + i' = s'.index + 1 + i
    omega
  depth_eq := h.depth_eq
  ahead_eq := by
    have htail := congrArg List.tail h.ahead_eq
    rwa [List.tail_drop, List.tail_drop] at htail
  previous_eq := h.read_eq

theorem miss (h : Level input input' i i' s s') (expected : Expectation) :
    Level input input' i i' (s.miss expected) (s'.miss expected) :=
  ⟨h.index_eq, h.depth_eq, h.ahead_eq, h.previous_eq⟩

theorem words_eq (h : Level input input' i i' s s') (h' : Level input input' i i' t t') :
    Attempt.words input s.index t.index = Attempt.words input' s'.index t'.index := by
  have hcount : t.index - s.index = t'.index - s'.index := by
    have := h.index_eq
    have := h'.index_eq
    omega
  have htaken : (input.tokens.extract s.index t.index).toList = (input'.tokens.extract s'.index t'.index).toList := by
    rw [Array.toList_extract, Array.toList_extract, List.extract_eq_take_drop, List.extract_eq_take_drop, h.ahead_eq,
      hcount]
  unfold Attempt.words
  rw [htaken]

end State.Level

/-- Level states, and trees and errors that are the same but for where they start. -/
def Comparison.level (input input' : Input) (i i' : Nat) : Comparison where
  here := i
  there := i'
  states := State.Level input input' i i'
  nodes n n' := n.moved i' = n'.moved i
  forests ns ns' := ns.map (Node.moved i') = ns'.map (Node.moved i)
  errors e e' := e.moved i' = e'.moved i
  aside _ := False

namespace Comparison

theorem level_branch {ns ns' : List Node} (h : State.Level input input' i i' s s')
    (h' : State.Level input input' i i' t t') (hns : ns.map (Node.moved i') = ns'.map (Node.moved i)) (name : String)
    (skipped : Bool) :
    (Node.branch name ns s.index t.index skipped).moved i' = (Node.branch name ns' s'.index t'.index skipped).moved i := by
  rw [Node.moved_branch, Node.moved_branch, hns, h.index_eq, h'.index_eq]

/-- Level states look the same to every attempt. -/
theorem level_lawful (input input' : Input) (i i' : Nat) : (level input input' i i').Lawful input input' where
  index_eq h := h.index_eq
  read_eq h := h.read_eq
  previous_eq h := h.previous_eq
  left_eq h := h.left_eq
  back h h' := h.back h'
  next h _ := h.next
  miss h expected := h.miss expected
  nil := rfl
  append {ns ns' ms ms'} h h' := by
    show (ns ++ ms).map _ = (ns' ++ ms').map _
    rw [List.map_append, List.map_append]
    exact congrArg₂ (· ++ ·) h h'
  leaf {s s'} h token := by
    have hindex := h.index_eq
    have hstop : s.index + 1 + i' = s'.index + 1 + i := by omega
    show [Node.leaf token (s.index + i') (s.index + 1 + i')] = [Node.leaf token (s'.index + i) (s'.index + 1 + i)]
    rw [hindex, hstop]
  words {s s' t t'} h h' := by
    show [Node.leaf _ (s.index + i') (t.index + i')] = [Node.leaf _ (s'.index + i) (t'.index + i)]
    rw [h.words_eq h', h.index_eq, h'.index_eq]
  branch h h' hns w := congrArg ([·]) (level_branch h h' hns w.name false)
  tie {s s'} h text := by
    show ParseError.ambiguousAlternatives (s.index + i') text = .ambiguousAlternatives (s'.index + i) text
    rw [h.index_eq]

theorem level_nests (input input' : Input) (i i' : Nat) (rule : Rule) : (level input input' i i').Nests rule rule where
  enter h := ⟨h.index_eq, congrArg (· + 1) h.depth_eq, h.ahead_eq, h.previous_eq⟩
  leave h _ := ⟨h.index_eq, congrArg (· - 1) h.depth_eq, h.ahead_eq, h.previous_eq⟩
  node {s s' t t' ns ns'} h h' hns := by
    show (rule.node ns s.index t.index).moved i' = (rule.node ns' s'.index t'.index).moved i
    unfold Rule.node
    rw [rule.policy.skips_of_map_eq hns]
    exact level_branch h h' hns rule.name _

theorem level_rules (g : Grammar) (hlimit : input.config.maxDepth = input'.config.maxDepth) (i i' : Nat) :
    (level input input' i i').Rules input input' g g := by
  refine rules_self (level_nests input input' i i') (fun {n n'} h => ?_) (fun _ => rfl)
    (fun name => congrArg (ParseError.recursionLimit name) hlimit)
  show n.spliced.map _ = n'.spliced.map _
  rw [← Node.spliced_moved, ← Node.spliced_moved]
  exact congrArg Node.spliced h

end Comparison

namespace Attempt

variable {α : Type}

/-- **The same outcomes but for where they start**: at the index `i` and at the index `i'`.  They take as many tokens. -/
def SameFrom (move : Nat → α → α) (i i' : Nat) : Answer α × State → Answer α × State → Prop
  | (.matched v, t), (.matched v', t') => move i' v = move i v' ∧ t.index + i' = t'.index + i
  | (.backtrack why, _), (.backtrack why', _) => why = why'
  | (.fatal e, _), (.fatal e', _) => e.moved i' = e'.moved i
  | _, _ => False

theorem Alike.sameFrom (move : Nat → α → α) {r r' : Answer α × State}
    (h : Alike (.level input input' i i') (fun v v' => move i' v = move i v') r r') : SameFrom move i i' r r' := by
  cases h with
  | matched hv ht => exact ⟨hv, ht.index_eq⟩
  | backtrack _ => rfl
  | fatal he _ => exact he
  | aside he => exact he.elim

end Attempt

namespace Grammar

open Attempt (SameFrom Balanced)

theorem enter_level (g : Grammar) (hlimit : input.config.maxDepth = input'.config.maxDepth) (i i' room : Nat)
    (key : RuleKey) :
    Attempt.Agree (.level input input' i i') (fun n n' => n.moved i' = n'.moved i) (g.enter input room key)
      (g.enter input' room key) :=
  enter_agree (Comparison.level_lawful input input' i i') (Comparison.level_rules g hlimit i i') room key

theorem attempt_level (g : Grammar) (hlimit : input.config.maxDepth = input'.config.maxDepth) (i i' room : Nat)
    (m : Matcher) :
    Attempt.Agree (.level input input' i i') (fun ns ns' => ns.map (Node.moved i') = ns'.map (Node.moved i))
      (m.attempt input (g.enter input room)) (m.attempt input' (g.enter input' room)) :=
  attempt_agree (Comparison.level_lawful input input' i i') (Comparison.level_rules g hlimit i i') room m

/-- **Beyond the last token there is nothing to take**: a match ends within the tokens, or where it started.  A state
there is level with one at the end of no tokens at all. -/
theorem attempt_within (g : Grammar) (input : Input) (room : Nat) (m : Matcher) {s t : State} {ns : Forest}
    (h : m.attempt input (g.enter input room) s = (.matched ns, t)) : t.index ≤ max s.index input.size := by
  have hb := g.attempt_balanced input room m s
  rw [h] at hb
  by_cases hin : s.index ≤ input.size
  · exact Nat.le_trans (hb.2.2 hin) (Nat.le_max_right _ _)
  · let nothing : Input := { tokens := #[], config := input.config }
    let start : State := { s with index := 0 }
    have hprevious : s.previous input = none := by
      unfold State.previous
      split
      · rfl
      · rename_i index hindex
        exact Array.getElem?_eq_none (show input.tokens.size ≤ index by unfold Input.size at hin; omega)
    have hlevel : State.Level input nothing s.index 0 s start := by
      refine ⟨Nat.add_comm _ _, rfl, ?_, hprevious⟩
      rw [List.drop_eq_nil_of_le (by rw [Array.length_toList]; exact Nat.le_of_not_le hin)]
      rfl
    have hsame : SameFrom (fun k ns => ns.map (Node.moved k)) s.index 0 (m.attempt input (g.enter input room) s)
        (m.attempt nothing (g.enter nothing room) start) :=
      Attempt.Alike.sameFrom _ (@attempt_level input nothing g rfl s.index 0 room m s start hlevel)
    have hb' := g.attempt_balanced nothing room m start
    rw [h] at hsame
    generalize m.attempt nothing (g.enter nothing room) start = r at hsame hb'
    rcases r with ⟨_ | _ | _, t'⟩
    · have htook : t.index + 0 = t'.index + s.index := hsame.2
      have hnone : t'.index ≤ 0 := hb'.2.2 (Nat.zero_le _)
      omega
    · exact hsame.elim
    · exact hsame.elim

/-- **A matcher does the same once more**, whatever has been attempted since from the same place with as many rules open. -/
theorem attemptAt_repeats (g : Grammar) (input : Input) (m : Matcher) {s s' : State} (hindex : s.index = s'.index)
    (hdepth : s.depth = s'.depth) : (g.attemptAt input m s).1 = (g.attemptAt input m s').1 ∧
      (g.attemptAt input m s).2.index = (g.attemptAt input m s').2.index := by
  have hlevel : State.Level input input 0 0 s s' := by
    refine ⟨congrArg (· + 0) hindex, hdepth, by rw [hindex], ?_⟩
    rw [State.previous, State.previous, hindex]
  have hb := attemptAt_balanced g input m s
  have hb' := attemptAt_balanced g input m s'
  have hsame : SameFrom (fun k ns => ns.map (Node.moved k)) 0 0 (g.attemptAt input m s) (g.attemptAt input m s') := by
    rw [attemptAt_eq, attemptAt_eq, hdepth]
    exact Attempt.Alike.sameFrom _ (attempt_level g rfl 0 0 _ m s s' hlevel)
  generalize g.attemptAt input m s = r at hsame hb ⊢
  generalize g.attemptAt input m s' = r' at hsame hb' ⊢
  rcases r with ⟨ns | why | e, t⟩ <;> rcases r' with ⟨ns' | why' | e', t'⟩
  · obtain ⟨hns, hi⟩ := hsame
    have hns : ns.map (Node.moved 0) = ns'.map (Node.moved 0) := hns
    rw [Node.map_moved_zero, Node.map_moved_zero] at hns
    exact ⟨congrArg Answer.matched hns, hi⟩
  · exact hsame.elim
  · exact hsame.elim
  · exact hsame.elim
  · exact ⟨congrArg Answer.backtrack hsame, hb.2.trans (hindex.trans hb'.2.symm)⟩
  · exact hsame.elim
  · exact hsame.elim
  · exact hsame.elim
  · have he : e.moved 0 = e'.moved 0 := hsame
    rw [ParseError.moved_zero, ParseError.moved_zero] at he
    exact ⟨congrArg Answer.fatal he, hb.2.trans (hindex.trans hb'.2.symm)⟩

/-- A matcher answers the same from another state at the same place, and ends at the same index. -/
theorem attemptAt_unmoved {g : Grammar} {input : Input} {m : Matcher} {s u t : State} {answer : Answer Forest}
    (ht : g.attemptAt input m s = (answer, t)) (hu : State.Unmoved s u) :
    ∃ v, g.attemptAt input m u = (answer, v) ∧ v.index = t.index := by
  obtain ⟨hanswer, hindex⟩ := g.attemptAt_repeats input m hu.2 hu.1
  rw [ht] at hanswer hindex
  exact ⟨_, congrArg (·, _) hanswer, hindex⟩

/-- **Matching is local.**  From states of two parses with the same limit, in which the same tokens follow after the same
token and as many rules are open, every matcher and every rule has the same outcome, whatever the states have been
through: a match takes as many tokens and makes the same trees, a failure backtracks for the same reason or has the same
error, but for the indices, which are as far apart as the states are. -/
theorem attemptAt_local (g : Grammar) {input input' : Input} {s s' : State}
    (hlimit : input.config.maxDepth = input'.config.maxDepth) (hdepth : s.depth = s'.depth)
    (hahead : input.tokens.toList.drop s.index = input'.tokens.toList.drop s'.index)
    (hprevious : s.previous input = s'.previous input') :
    (∀ m : Matcher, SameFrom (fun k ns => ns.map (Node.moved k)) s.index s'.index (g.attemptAt input m s)
      (g.attemptAt input' m s')) ∧
    ∀ key : RuleKey, SameFrom Node.moved s.index s'.index (g.matchRule input key s) (g.matchRule input' key s') := by
  have hlevel : State.Level input input' s.index s'.index s s' :=
    ⟨Nat.add_comm s.index s'.index, hdepth, hahead, hprevious⟩
  have hroom : input.config.maxDepth - s.depth = input'.config.maxDepth - s'.depth := by rw [hlimit, hdepth]
  refine ⟨fun m => ?_, fun key => ?_⟩
  · rw [attemptAt_eq, attemptAt_eq, hroom]
    exact Attempt.Alike.sameFrom _ (attempt_level g hlimit s.index s'.index _ m s s' hlevel)
  · unfold matchRule
    rw [hroom]
    exact Attempt.Alike.sameFrom _ (enter_level g hlimit s.index s'.index _ key s s' hlevel)

/-- A call after a semicolon, with and without two more tokens in front and a failed expectation in the journal: the call
ends after its two tokens in both, and a letter that is two things at once is ambiguous at 1 and at 3. -/
theorem attemptAt_local_call : ∃ (g : Grammar) (input input' : Input) (s s' : State) (m : Matcher),
    s.index = 1 ∧ s'.index = 3 ∧ s.furthest.index = 0 ∧ s'.furthest.index = 4 ∧
      SameFrom Node.moved s.index s'.index (g.matchRule input 0 s) (g.matchRule input' 0 s') ∧
      (g.matchRule input 0 s).1.isMatch = true ∧ (g.matchRule input 0 s).2.index = 3 ∧
      (g.matchRule input' 0 s').2.index = 5 ∧
      SameFrom (fun k ns => ns.map (Node.moved k)) s.index s'.index (g.attemptAt input m s) (g.attemptAt input' m s') ∧
      ∃ text text', (g.attemptAt input m s).1 = .fatal (.ambiguousAlternatives 1 text) ∧
        (g.attemptAt input' m s').1 = .fatal (.ambiguousAlternatives 3 text') := by
  let letter : String → Nat → Token := fun value column => ⟨value, TokenType.identifier, 1, column, ⟨0, 1⟩⟩
  let follow : List Token := [letter ";" 0, letter "f" 2, letter "(" 3]
  let g : Grammar := ⟨#[⟨"call", .sequence [.literal "f", .adjacent (.literal "(")], .never⟩], 0⟩
  let input : Input := { tokens := follow.toArray }
  let input' : Input := { tokens := (letter "a" 0 :: letter "b" 0 :: follow).toArray }
  let s : State := { index := 1 }
  let s' : State := State.goTo (State.miss { index := 4 } (.matching .anyToken)) 3
  let m : Matcher := .strictOr [.literal "f", .anyToken]
  obtain ⟨matchers, rules⟩ := @attemptAt_local g input input' s s' rfl rfl rfl rfl
  refine ⟨g, input, input', s, s', m, rfl, rfl, rfl, rfl, ?_, ?_, ?_, ?_, ?_, _, _, rfl, rfl⟩
  · with_reducible exact rules 0
  · decide +kernel
  · decide +kernel
  · decide +kernel
  · exact matchers m

end Grammar
end LayeredParse
