import LayeredParse.Parse.Run
import LayeredParse.Proofs.Parse.Failing
/-!
# Nested — a fatal error ends every attempt around it

`Grammar.Makes` says which attempts an attempt makes directly, and from which states: the items of a sequence up to the
first that does not match, the alternatives tried, the chosen one once more, the rounds of a repetition, the matcher of a
rule.  `Grammar.During` is the same at any nesting.  Whichever of these fails for good, all that it is part of fails with
the same error, and nothing happens any more but that open rules are left (`attemptAt_fatal`).  Conversely an attempt
fails for good only because one made during it has nothing to go on with (`Grammar.Raises`).
-/
namespace LayeredParse

open Attempt (Matches Backtracks Compared Admitted Touching)

namespace Grammar

variable {g : Grammar} {input : Input} {m n : Matcher} {s t : State} {e : ParseError} {j : Journal}

/-- The error of a strict alternation that is tried at an index and of which a second alternative matches. -/
def tie (alternatives : List Matcher) (index : Nat) : ParseError :=
  .ambiguousAlternatives index (Matcher.render (.strictOr alternatives))

/-- **The attempts that an attempt makes directly**: `Makes g input m s n t` if attempting `m` from `s` attempts `n` from
`t`. -/
inductive Makes (g : Grammar) (input : Input) : Matcher → State → Matcher → State → Prop
  | item {items : List Matcher} {m : Matcher} {s t : State}
      (h : Comes (fun m => (g.attemptAt input m).Matches) items s m t) : Makes g input (.sequence items) s m t
  | alternative {ms : List Matcher} {m : Matcher} {s t : State}
      (h : Comes (fun m => (g.attemptAt input m).Backtracks) ms s m t) : Makes g input (.firstOf ms) s m t
  | candidate {ms : List Matcher} {m : Matcher} {s : State} {y : State × Option (Attempt Forest × Nat)}
      (h : Comes (fun m => Compared (g.attemptAt input m)) ms (s, none) m y) : Makes g input (.longestOne ms) s m y.1
  /-- The alternative that reached furthest is attempted once more, for good. -/
  | winner {ms : List Matcher} {m : Matcher} {s t : State} (hm : m ∈ ms)
      (h : Attempt.longest (ms.map (g.attemptAt input)) none s = (.ok (some (g.attemptAt input m)), t)) :
      Makes g input (.longestOne ms) s m t
  | contender {ms : List Matcher} {m : Matcher} {s : State} {y : State × Option (Attempt Forest)}
      (h : Comes (fun m => Admitted (g.attemptAt input m)) ms (s, none) m y) : Makes g input (.strictOr ms) s m y.1
  /-- The only alternative that matched is attempted once more, for good. -/
  | sole {ms : List Matcher} {m : Matcher} {s t : State} (hm : m ∈ ms)
      (h : Attempt.only (tie ms) (ms.map (g.attemptAt input)) none s = (.ok (some (g.attemptAt input m)), t)) :
      Makes g input (.strictOr ms) s m t
  | option {m : Matcher} {s : State} : Makes g input (.optional m) s m s
  | again {m : Matcher} {s t : State} (h : Relation.ReflTransGen (g.attemptAt input m).Round s t) :
      Makes g input (.zeroOrMore m) s m t
  | first {m : Matcher} {s : State} : Makes g input (.oneOrMore m) s m s
  | more {m : Matcher} {s t u : State} (h : (g.attemptAt input m).Matches s t)
      (hs : Relation.ReflTransGen (g.attemptAt input m).Round t u) : Makes g input (.oneOrMore m) s m u
  | next {m : Matcher} {s : State} : Makes g input (.next m) s m s
  | not {m : Matcher} {s : State} : Makes g input (.not m) s m s
  | adjacent {m : Matcher} {s : State} (h : Touching input s) : Makes g input (.adjacent m) s m s
  | skipping {m : Matcher} {s t : State} (h : Relation.ReflTransGen (Attempt.Skip input (g.attemptAt input m)) s t) :
      Makes g input (.till m) s m t
  /-- The match that the skipping ends at is made once more, for good. -/
  | terminator {m : Matcher} {s t : State} (h : (Attempt.skippedWords input (g.attemptAt input m)).Matches s t) :
      Makes g input (.till m) s m t
  | body {key : RuleKey} {rule : Rule} {s : State} (hr : g.rule? key = some rule) (hd : s.depth < input.config.maxDepth) :
      Makes g input (.rule key) s rule.matcher (s.enter rule.name)

/-- **The attempts made during an attempt**, itself and all that are nested in it. -/
def During (g : Grammar) (input : Input) (m : Matcher) (s : State) (n : Matcher) (t : State) : Prop :=
  Relation.ReflTransGen (fun x y : Matcher × State => g.Makes input x.1 x.2 y.1 y.2) (m, s) (n, t)

/-- **What an attempt fails for good with by itself**: a rule that is not there or for which there is no room, or a second
match of a strict alternation. -/
inductive Raises (g : Grammar) (input : Input) : Matcher → State → ParseError → Prop
  | foreign {key : RuleKey} {s : State} (hr : g.rule? key = none) : Raises g input (.rule key) s (.foreignRule key)
  | deep {key : RuleKey} {rule : Rule} {s : State} (hr : g.rule? key = some rule) (hd : input.config.maxDepth ≤ s.depth) :
      Raises g input (.rule key) s (.recursionLimit rule.name input.config.maxDepth)
  | tied {ms : List Matcher} {m : Matcher} {s t u : State} {a : Attempt Forest}
      (h : Comes (fun m => Admitted (g.attemptAt input m)) ms (s, none) m (t, some a))
      (hm : (g.attemptAt input m).Matches t u) : Raises g input (.strictOr ms) s (tie ms s.index)

end Grammar

/-- **Whether only rules have been left since**, `count` of them and without a match. -/
def Journal.Unwound (count : Nat) (earlier later : Journal) : Prop :=
  ∃ exits, later.entries = exits ++ earlier.entries ∧ exits.length = count ∧
    ∀ entry ∈ exits, ∃ name index, entry = .left name false index

namespace Journal.Unwound

variable {count count' : Nat} {j j' j'' : Journal}

theorem refl (j : Journal) : Unwound 0 j j :=
  ⟨[], rfl, rfl, fun _ h => nomatch h⟩

theorem leave (j : Journal) (name : String) (index : Nat) : Unwound 1 j (j.record (.left name false index)) :=
  ⟨[.left name false index], rfl, rfl, List.forall_mem_singleton.2 ⟨name, index, rfl⟩⟩

theorem trans (h : Unwound count j j') (h' : Unwound count' j' j'') : Unwound (count + count') j j'' := by
  obtain ⟨exits, heq, hcount, hleft⟩ := h
  obtain ⟨exits', heq', hcount', hleft'⟩ := h'
  refine ⟨exits' ++ exits, ?_, ?_, List.forall_mem_append.2 ⟨hleft', hleft⟩⟩
  · rw [heq', heq, List.append_assoc]
  · rw [List.length_append, hcount, hcount', Nat.add_comm]

end Journal.Unwound

namespace Attempt

variable {α : Type} {a : Attempt α} {s t : State}

theorem trial_eq (h : a.Matches s t) : trial a s = (.ok (some t.index), t.goTo s.index) := by
  obtain ⟨v, h⟩ := h
  rw [trial, h]

theorem exists_matches {k : Nat} (h : trial a s = (.ok (some k), t)) : ∃ u, a.Matches s u ∧ u.goTo s.index = t := by
  unfold trial at h
  unfold Matches
  generalize a s = r at h ⊢
  rcases r with ⟨v | _ | _, u⟩
  · cases h
    exact ⟨u, ⟨v, rfl⟩, rfl⟩
  · cases h
  · cases h

theorem Admitted.index {x y : State × Option (Attempt α)} (h : Admitted a x y) : y.1.index = x.1.index := by
  rcases h with ⟨h, -⟩ | ⟨⟨k, h⟩, -⟩
  · simpa [h] using trial_index a x.1
  · simpa [h] using trial_index a x.1

/-! ## No rule is left open on the way -/

section Depth

variable {input : Input} (ha : a.Advances input)

include ha

theorem Matches.depth (h : a.Matches s t) : t.depth = s.depth := by
  obtain ⟨v, h⟩ := h
  have hs := ha s
  rw [h] at hs
  exact hs.1

theorem Backtracks.depth (h : a.Backtracks s t) : t.depth = s.depth := by
  obtain ⟨why, h⟩ := h
  have hs := ha s
  rw [h] at hs
  exact hs

theorem trial_depth {r : Trial} (h : trial a s = (r, t)) : t.depth = s.depth := by
  simpa [h] using (trial_unmoved ha s).1

theorem Compared.depth {x y : State × Option (Attempt α × Nat)} (h : Compared a x y) : y.1.depth = x.1.depth := by
  obtain ⟨reached, h, -⟩ := h
  exact trial_depth ha h

theorem Admitted.depth {x y : State × Option (Attempt α)} (h : Admitted a x y) : y.1.depth = x.1.depth := by
  rcases h with ⟨h, -⟩ | ⟨⟨k, h⟩, -⟩
  · exact trial_depth ha h
  · exact trial_depth ha h

theorem rounds_depth (h : Relation.ReflTransGen a.Round s t) : t.depth = s.depth := by
  induction h with
  | refl => rfl
  | tail _ hround ih => exact (hround.1.depth ha).trans ih

theorem skips_depth (h : Relation.ReflTransGen (Skip input a) s t) : t.depth = s.depth := by
  induction h with
  | refl => rfl
  | tail _ hskip ih =>
    obtain ⟨-, u, h, rfl⟩ := hskip
    exact (trial_depth ha h).trans ih

end Depth

end Attempt

namespace Grammar

variable {g : Grammar} {input : Input} {m n : Matcher} {s t : State} {e : ParseError} {j : Journal}

theorem attemptAt_map (g : Grammar) (input : Input) (ms : List Matcher) :
    Matcher.attempts input (g.matchRule input) ms = ms.map (g.attemptAt input) :=
  Matcher.attempts_eq_map input (g.matchRule input) ms

/-! ## The attempts that are made in an attempt -/

theorem attemptAt_inside (g : Grammar) (input : Input) (m : Matcher) : (g.attemptAt input m).Within input := by
  intro s t ns h
  rw [attemptAt_eq] at h
  exact attempt_inside g input _ m s t ns h

theorem matchRule_foreign {key : RuleKey} (hr : g.rule? key = none) :
    (g.matchRule input key).Fails s e j ↔ .foreignRule key = e ∧ s.journal = j := by
  rw [Attempt.Fails, matchRule, enter_foreign hr]
  exact Iff.rfl

theorem matchRule_deep {key : RuleKey} {rule : Rule} (hr : g.rule? key = some rule)
    (hd : input.config.maxDepth ≤ s.depth) :
    (g.matchRule input key).Fails s e j ↔ .recursionLimit rule.name input.config.maxDepth = e ∧ s.journal = j := by
  rw [Attempt.Fails, matchRule_eq hr, if_pos hd]
  exact Iff.rfl

theorem matchRule_fails {key : RuleKey} {rule : Rule} (hr : g.rule? key = some rule)
    (hd : s.depth < input.config.maxDepth) : (g.matchRule input key).Fails s e j ↔
      ∃ j', (g.attemptAt input rule.matcher).Fails (s.enter rule.name) e j' ∧
        j = j'.record (.left rule.name false s.index) := by
  rw [Attempt.Fails, matchRule_eq hr, if_neg (Nat.not_le.2 hd)]
  exact Attempt.around_fails (g.attemptAt_balanced input rule.matcher)

/-- What is attempted is a part of what attempts it, with as many rules open, or the matcher of a rule that has been
entered. -/
theorem Makes.part (h : g.Makes input m s n t) : ((∀ key, m ≠ .rule key) ∧ t.depth = s.depth ∧ sizeOf n < sizeOf m) ∨
    ∃ key rule, m = .rule key ∧ g.rule? key = some rule ∧ n = rule.matcher ∧ s.depth < input.config.maxDepth ∧
      t = s.enter rule.name := by
  have ha : ∀ m, (g.attemptAt input m).Advances input := fun m => (g.attemptAt_balanced input m).advances
  have size : ∀ {ms : List Matcher}, n ∈ ms → sizeOf n < 1 + sizeOf ms := fun hn =>
    Nat.lt_add_left 1 (List.sizeOf_lt_of_mem hn)
  cases h with
  | item h => exact .inl ⟨nofun, h.kept State.depth (fun m _ _ hgo => hgo.depth (ha m)), by simpa using size h.mem⟩
  | alternative h => exact .inl ⟨nofun, h.kept State.depth (fun m _ _ hgo => hgo.depth (ha m)), by simpa using size h.mem⟩
  | candidate h =>
    exact .inl ⟨nofun, h.kept (fun x => x.1.depth) (fun m _ _ hgo => hgo.depth (ha m)), by simpa using size h.mem⟩
  | @winner ms m s t hm h =>
    have hchosen := Attempt.longest_chosen_map (g.attemptAt_balanced input) ms s
    rw [h] at hchosen
    exact .inl ⟨nofun, hchosen.1.1, by simpa using size hm⟩
  | contender h =>
    exact .inl ⟨nofun, h.kept (fun x => x.1.depth) (fun m _ _ hgo => hgo.depth (ha m)), by simpa using size h.mem⟩
  | @sole ms m s t hm h =>
    have hchosen := Attempt.only_chosen_map (g.attemptAt_balanced input) (tie ms) ms s
    rw [h] at hchosen
    exact .inl ⟨nofun, hchosen.1.1, by simpa using size hm⟩
  | option => exact .inl ⟨nofun, rfl, by simp⟩
  | again h => exact .inl ⟨nofun, Attempt.rounds_depth (ha n) h, by simp⟩
  | first => exact .inl ⟨nofun, rfl, by simp⟩
  | more h hs => exact .inl ⟨nofun, (Attempt.rounds_depth (ha n) hs).trans (h.depth (ha n)), by simp⟩
  | next => exact .inl ⟨nofun, rfl, by simp⟩
  | not => exact .inl ⟨nofun, rfl, by simp⟩
  | adjacent => exact .inl ⟨nofun, rfl, by simp⟩
  | skipping h => exact .inl ⟨nofun, Attempt.skips_depth (ha n) h, by simp⟩
  | terminator h => exact .inl ⟨nofun, h.depth (Attempt.skippedWords_advances (ha n)), by simp⟩
  | body hr hd => exact .inr ⟨_, _, rfl, hr, rfl, hd, rfl⟩

/-- **An error of an attempt ends the attempt that makes it** at once, unless that is a rule. -/
theorem Makes.fails (h : g.Makes input m s n t) (hm : ∀ key, m ≠ .rule key)
    (hfail : (g.attemptAt input n).Fails t e j) : (g.attemptAt input m).Fails s e j := by
  cases h with
  | item h =>
    rw [attemptAt, Matcher.attempt, attemptAt_map, Attempt.sequence, Attempt.atomic_fails, Attempt.chain_fails]
    exact ⟨n, t, h, hfail⟩
  | alternative h =>
    rw [attemptAt, Matcher.attempt, attemptAt_map, Attempt.firstOf_fails]
    exact ⟨n, t, h, hfail⟩
  | candidate h =>
    rw [attemptAt, Matcher.attempt, attemptAt_map, Attempt.longestOne_fails (g.attemptAt_balanced input)]
    exact .inl ⟨n, _, h, hfail⟩
  | winner hm h =>
    rw [attemptAt, Matcher.attempt, attemptAt_map, Attempt.longestOne_fails (g.attemptAt_balanced input)]
    exact .inr ⟨n, hm, t, h, hfail⟩
  | contender h =>
    rw [attemptAt, Matcher.attempt, attemptAt_map, Attempt.strictOr_fails (g.attemptAt_balanced input)]
    exact .inl ⟨n, _, h, .inl hfail⟩
  | sole hm h =>
    rw [attemptAt, Matcher.attempt, attemptAt_map, Attempt.strictOr_fails (g.attemptAt_balanced input)]
    exact .inr ⟨n, hm, t, h, hfail⟩
  | option => exact Attempt.optional_fails.2 hfail
  | again h =>
    exact Attempt.atomic_fails.2 ((Attempt.repeatedFrom_fails (g.attemptAt_inside input n)).2 ⟨t, h, hfail⟩)
  | first => exact (Attempt.oneOrMore_fails (g.attemptAt_inside input n)).2 (.inl hfail)
  | more h hs =>
    exact (Attempt.oneOrMore_fails (g.attemptAt_inside input n)).2 (.inr ⟨_, h, t, hs, hfail⟩)
  | next => exact Attempt.next_fails.2 hfail
  | not => exact (Attempt.not_fails n).2 hfail
  | adjacent h => exact (Attempt.adjacent_fails n).2 ⟨h, hfail⟩
  | skipping h => exact Attempt.till_fails.2 (.inl ⟨t, h, hfail⟩)
  | terminator h => exact Attempt.till_fails.2 (.inr ⟨t, h, hfail⟩)
  | @body key => exact absurd rfl (hm key)

/-- **An error of an attempt ends the attempt that makes it.**  A rule is left first. -/
theorem Makes.unwinds (h : g.Makes input m s n t) (hfail : (g.attemptAt input n).Fails t e j) :
    ∃ count j', (g.attemptAt input m).Fails s e j' ∧ t.depth = s.depth + count ∧ j.Unwound count j' := by
  rcases h.part with ⟨hm, hdepth, -⟩ | ⟨key, rule, rfl, hr, rfl, hd, rfl⟩
  · exact ⟨0, j, h.fails hm hfail, hdepth, .refl j⟩
  · exact ⟨1, _, Attempt.spliced_fails.2 ((matchRule_fails hr hd).2 ⟨j, hfail, rfl⟩), rfl, .leave j rule.name s.index⟩

theorem Makes.during {k : Matcher} {u : State} (h : g.Makes input m s n t) (h' : g.During input n t k u) :
    g.During input m s k u :=
  .head h h'

/-- **An error of an attempt ends every attempt that it is part of.** -/
theorem During.unwinds (h : g.During input m s n t) (hfail : (g.attemptAt input n).Fails t e j) :
    ∃ count j', (g.attemptAt input m).Fails s e j' ∧ t.depth = s.depth + count ∧ j.Unwound count j' := by
  have along : ∀ x : Matcher × State,
      Relation.ReflTransGen (fun x y : Matcher × State => g.Makes input x.1 x.2 y.1 y.2) x (n, t) →
        ∃ count j', (g.attemptAt input x.1).Fails x.2 e j' ∧ t.depth = x.2.depth + count ∧ j.Unwound count j' := by
    intro x hx
    induction hx using Relation.ReflTransGen.head_induction_on with
    | refl => exact ⟨0, j, hfail, rfl, .refl j⟩
    | head hmakes _ ih =>
      obtain ⟨count, j', hfail', hdepth, hunwound⟩ := ih
      obtain ⟨count', j'', hfail'', hdepth', hunwound'⟩ := hmakes.unwinds hfail'
      exact ⟨count + count', j'', hfail'', by omega, hunwound.trans hunwound'⟩
  exact along (m, s) h

theorem Raises.fails (h : g.Raises input m s e) : ∃ j, (g.attemptAt input m).Fails s e j := by
  cases h with
  | foreign hr => exact ⟨_, Attempt.spliced_fails.2 ((matchRule_foreign hr).2 ⟨rfl, rfl⟩)⟩
  | deep hr hd => exact ⟨_, Attempt.spliced_fails.2 ((matchRule_deep hr hd).2 ⟨rfl, rfl⟩)⟩
  | @tied ms m s t u a h hm =>
    refine ⟨u.journal, ?_⟩
    rw [attemptAt, Matcher.attempt, attemptAt_map, Attempt.strictOr_fails (g.attemptAt_balanced input)]
    have hindex : t.index = s.index := h.kept (fun x => x.1.index) (fun _ _ _ hgo => hgo.index)
    exact .inl ⟨m, _, h, .inr ⟨rfl, u.index, u.goTo t.index, Attempt.trial_eq hm, congrArg (tie ms) hindex, rfl⟩⟩

/-- **An attempt fails for good by itself or because of one that it makes.** -/
theorem raises_or_makes (h : (g.attemptAt input m).Fails s e j) :
    g.Raises input m s e ∨ ∃ n t j', g.Makes input m s n t ∧ (g.attemptAt input n).Fails t e j' := by
  cases m with
  | sequence items =>
    rw [attemptAt, Matcher.attempt, attemptAt_map, Attempt.sequence, Attempt.atomic_fails, Attempt.chain_fails] at h
    obtain ⟨n, t, hcomes, h⟩ := h
    exact .inr ⟨n, t, j, .item hcomes, h⟩
  | firstOf ms =>
    rw [attemptAt, Matcher.attempt, attemptAt_map, Attempt.firstOf_fails] at h
    obtain ⟨n, t, hcomes, h⟩ := h
    exact .inr ⟨n, t, j, .alternative hcomes, h⟩
  | longestOne ms =>
    rw [attemptAt, Matcher.attempt, attemptAt_map, Attempt.longestOne_fails (g.attemptAt_balanced input)] at h
    rcases h with ⟨n, y, hcomes, h⟩ | ⟨n, hn, t, hbest, h⟩
    · exact .inr ⟨n, y.1, j, .candidate hcomes, h⟩
    · exact .inr ⟨n, t, j, .winner hn hbest, h⟩
  | strictOr ms =>
    rw [attemptAt, Matcher.attempt, attemptAt_map, Attempt.strictOr_fails (g.attemptAt_balanced input)] at h
    rcases h with ⟨n, ⟨t, found⟩, hcomes, h | ⟨hfound, k, u, htrial, rfl, -⟩⟩ | ⟨n, hn, t, honly, h⟩
    · exact .inr ⟨n, t, j, .contender hcomes, h⟩
    · obtain ⟨a, rfl⟩ := Option.isSome_iff_exists.1 hfound
      obtain ⟨v, hmatch, rfl⟩ := Attempt.exists_matches htrial
      have hindex : t.index = s.index := hcomes.kept (fun x => x.1.index) (fun _ _ _ hgo => hgo.index)
      left
      show g.Raises input _ s (tie ms t.index)
      rw [hindex]
      exact .tied hcomes hmatch
    · exact .inr ⟨n, t, j, .sole hn honly, h⟩
  | optional item => exact .inr ⟨item, s, j, .option, Attempt.optional_fails.1 h⟩
  | zeroOrMore item =>
    obtain ⟨t, hrounds, h⟩ := (Attempt.repeatedFrom_fails (g.attemptAt_inside input item)).1 (Attempt.atomic_fails.1 h)
    exact .inr ⟨item, t, j, .again hrounds, h⟩
  | oneOrMore item =>
    rcases (Attempt.oneOrMore_fails (g.attemptAt_inside input item)).1 h with h | ⟨t, hmatch, u, hrounds, h⟩
    · exact .inr ⟨item, s, j, .first, h⟩
    · exact .inr ⟨item, u, j, .more hmatch hrounds, h⟩
  | next item => exact .inr ⟨item, s, j, .next, Attempt.next_fails.1 h⟩
  | not item => exact .inr ⟨item, s, j, .not, (Attempt.not_fails item).1 h⟩
  | adjacent item =>
    obtain ⟨htouch, h⟩ := (Attempt.adjacent_fails item).1 h
    exact .inr ⟨item, s, j, .adjacent htouch, h⟩
  | till terminator =>
    rcases Attempt.till_fails.1 h with ⟨t, hskips, h⟩ | ⟨t, hskipped, h⟩
    · exact .inr ⟨terminator, t, j, .skipping hskips, h⟩
    · exact .inr ⟨terminator, t, j, .terminator hskipped, h⟩
  | literal value => exact (Attempt.leaf_not_fails _ _ h).elim
  | regex pattern => exact (Attempt.leaf_not_fails _ _ h).elim
  | tokenType name => exact (Attempt.leaf_not_fails _ _ h).elim
  | anyToken => exact (Attempt.leaf_not_fails _ _ h).elim
  | endOfInput => exact (Attempt.endOfInput_not_fails h).elim
  | rule key =>
    have h : (g.matchRule input key).Fails s e j := Attempt.spliced_fails.1 h
    cases hr : g.rule? key with
    | none =>
      obtain ⟨rfl, -⟩ := (matchRule_foreign hr).1 h
      exact .inl (.foreign hr)
    | some rule =>
      rcases Nat.lt_or_ge s.depth input.config.maxDepth with hd | hd
      · obtain ⟨j', h, -⟩ := (matchRule_fails hr hd).1 h
        exact .inr ⟨rule.matcher, s.enter rule.name, j', .body hr hd, h⟩
      · obtain ⟨rfl, -⟩ := (matchRule_deep hr hd).1 h
        exact .inl (.deep hr hd)

/-- **An attempt fails for good only because one made during it has nothing to go on with.**  The induction is on the room
for rules and then on the matcher. -/
theorem exists_raises : ∀ {m : Matcher} {s : State} {j : Journal}, (g.attemptAt input m).Fails s e j →
    ∃ n t, g.During input m s n t ∧ g.Raises input n t e
  | m, s, j, h => by
    rcases raises_or_makes h with hraises | ⟨n, t, j', hmakes, h'⟩
    · exact ⟨m, s, .refl, hraises⟩
    · obtain ⟨k, u, hduring, hraises⟩ := exists_raises h'
      exact ⟨k, u, hmakes.during hduring, hraises⟩
termination_by m s => (input.config.maxDepth - s.depth, sizeOf m)
decreasing_by
  rcases hmakes.part with ⟨-, hdepth, hsize⟩ | ⟨key, rule, rfl, -, rfl, hd, rfl⟩
  · rw [hdepth]
    exact Prod.Lex.right _ hsize
  · refine Prod.Lex.left _ _ ?_
    show input.config.maxDepth - (s.depth + 1) < input.config.maxDepth - s.depth
    omega

theorem parseRule_fatal {key : RuleKey} {config : ParserConfig} {tokens : List Token}
    (h : (g.attemptAt { tokens := tokens.toArray, config } (.rule key)).Fails {} e j) :
    g.parseRule key config tokens = .error e ∧ (g.run key config tokens).state.journal = j := by
  obtain ⟨t, hmatch, rfl⟩ := Attempt.fails_iff.1 (show (g.matchRule _ key).Fails {} e j from Attempt.spliced_fails.1 h)
  simp only [parseRule, run, hmatch, and_self]

/-- A parse fails with the error of a state, or because an attempt made during it has nothing to go on with. -/
theorem parseRule_error {key : RuleKey} {config : ParserConfig} {tokens : List Token}
    (h : g.parseRule key config tokens = .error e) :
    (∃ t : State, e = t.failure { tokens := tokens.toArray, config }) ∨
      ∃ n t, g.During { tokens := tokens.toArray, config } (.rule key) {} n t ∧
        g.Raises { tokens := tokens.toArray, config } n t e := by
  unfold parseRule run at h
  dsimp only at h
  split at h
  · split at h
    · cases h
    · exact .inl ⟨_, (Except.error.inj h).symm⟩
  · exact .inl ⟨_, (Except.error.inj h).symm⟩
  · rename_i error t hfatal
    obtain rfl : error = e := Except.error.inj h
    exact .inr (exists_raises (Attempt.spliced_fails.2 (Attempt.fails_iff.2 ⟨t, hfatal, rfl⟩)))

/-- **Fatal errors are never recovered from.**

If any attempt made during an attempt fails for good, then so does the whole attempt, with the same error, and all that
happens in between is that the rules that are open are left.  So nothing fails for good during an attempt that matches or
backtracks.  Conversely the error of an attempt that fails for good is that of one made during it that has nothing to go
on with.  A parse during which an attempt fails for good is refused with the error. -/
theorem attemptAt_fatal (g : Grammar) (input : Input) (m : Matcher) (s : State) :
    (∀ n t e u, g.During input m s n t → g.attemptAt input n t = (.fatal e, u) →
      ∃ w, g.attemptAt input m s = (.fatal e, w) ∧ s.depth ≤ t.depth ∧
        u.journal.Unwound (t.depth - s.depth) w.journal) ∧
    (∀ w, (∃ ns, g.attemptAt input m s = (.matched ns, w)) ∨ (∃ why, g.attemptAt input m s = (.backtrack why, w)) →
      ∀ n t e u, g.During input m s n t → g.attemptAt input n t ≠ (.fatal e, u)) ∧
    (∀ e, (∃ w, g.attemptAt input m s = (.fatal e, w)) ↔ ∃ n t, g.During input m s n t ∧ g.Raises input n t e) ∧
    ∀ key config tokens n t e u, g.During { tokens := tokens.toArray, config } (.rule key) {} n t →
      g.attemptAt { tokens := tokens.toArray, config } n t = (.fatal e, u) →
      g.parseRule key config tokens = .error e ∧ u.journal.Unwound t.depth (g.run key config tokens).state.journal := by
  have ends : ∀ n t e u, g.During input m s n t → g.attemptAt input n t = (.fatal e, u) →
      ∃ w, g.attemptAt input m s = (.fatal e, w) ∧ s.depth ≤ t.depth ∧
        u.journal.Unwound (t.depth - s.depth) w.journal := by
    intro n t e u hduring h
    obtain ⟨count, j', hfails, hdepth, hunwound⟩ := hduring.unwinds (Attempt.fails_iff.2 ⟨u, h, rfl⟩)
    obtain ⟨w, hw, rfl⟩ := Attempt.fails_iff.1 hfails
    have hcount : t.depth - s.depth = count := by omega
    exact ⟨w, hw, by omega, hcount ▸ hunwound⟩
  refine ⟨ends, fun w hw n t e u hduring h => ?_, fun e => ⟨?_, ?_⟩, fun key config tokens n t e u hduring h => ?_⟩
  · obtain ⟨w', hfatal, -, -⟩ := ends n t e u hduring h
    rw [hfatal] at hw
    rcases hw with ⟨_, hw⟩ | ⟨_, hw⟩ <;> cases hw
  · rintro ⟨w, h⟩
    exact exists_raises (Attempt.fails_iff.2 ⟨w, h, rfl⟩)
  · rintro ⟨n, t, hduring, hraises⟩
    obtain ⟨j, hfails⟩ := hraises.fails
    obtain ⟨count, j', hfails, -, -⟩ := hduring.unwinds hfails
    obtain ⟨w, hw, -⟩ := Attempt.fails_iff.1 hfails
    exact ⟨w, hw⟩
  · obtain ⟨count, j', hfails, hdepth, hunwound⟩ := hduring.unwinds (Attempt.fails_iff.2 ⟨u, h, rfl⟩)
    obtain ⟨herror, hjournal⟩ := parseRule_fatal hfails
    have hcount : t.depth = count := hdepth.trans (Nat.zero_add count)
    rw [hjournal, hcount]
    exact ⟨herror, hunwound⟩

/-- A letter that is two things at once is ambiguous where it is only looked at, in an option that could be left out. -/
theorem attemptAt_fatal_lookahead : ∃ (g : Grammar) (tokens : List Token) (alternatives : List Matcher) (t u : State),
    t.depth = 2 ∧ g.During { tokens := tokens.toArray } (.rule 0) {} (.strictOr alternatives) t ∧
      g.attemptAt { tokens := tokens.toArray } (.strictOr alternatives) t = (.fatal (tie alternatives 0), u) ∧
      g.parseRule 0 {} tokens = .error (tie alternatives 0) ∧
      u.journal.Unwound 2 (g.run 0 {} tokens).state.journal := by
  let letter : Token := ⟨"a", TokenType.identifier, 1, 0, ⟨0, 1⟩⟩
  let alternatives : List Matcher := [.literal "a", .anyToken]
  let list : Rule := ⟨"list", .sequence [.optional (.not (.rule 1)), .anyToken], .never⟩
  let pick : Rule := ⟨"pick", .strictOr alternatives, .never⟩
  let g : Grammar := ⟨#[list, pick], 0⟩
  let input : Input := { tokens := [letter].toArray }
  let entered : State := State.enter {} "list"
  have outer : g.Makes input (.rule 0) {} list.matcher entered := .body rfl (by decide)
  have inner : g.Makes input (.rule 1) entered pick.matcher (entered.enter "pick") := .body rfl (by decide)
  have during : g.During input (.rule 0) {} (.strictOr alternatives) (entered.enter "pick") :=
    outer.during (Makes.during (.item .here) (Makes.during .option (Makes.during .not (inner.during .refl))))
  have fatal : g.attemptAt input (.strictOr alternatives) (entered.enter "pick") = (.fatal (tie alternatives 0), _) := rfl
  exact ⟨g, [letter], alternatives, entered.enter "pick", _, rfl, during, fatal,
    (attemptAt_fatal g input (.rule 0) {}).2.2.2 0 {} [letter] _ _ _ _ during fatal⟩

end Grammar
end LayeredParse
