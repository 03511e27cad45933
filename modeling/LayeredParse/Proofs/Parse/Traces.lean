import LayeredParse.Event
import LayeredParse.Proofs.Lists
import LayeredParse.Proofs.Parse.Limits
import LayeredParse.Proofs.Parse.Nested
/-!
# Traces — rules are left in the reverse order of their entries

A trace is bracketed if rules are entered and left in pairs, one pair inside another or behind it, and a rule that did not
match is left at the index at which it was entered (`Event.Bracketed`).  A matcher writes down one bracketed trace after
another, and a rule puts a pair around what its matcher writes down, so that rules nest in a trace no deeper than there is
room for them (`Grammar.enter_traced`, `Grammar.run_bracketed`).  In a bracketed trace every entry has its exit and every
exit its entry (`Bracketed.exists_pair`), and no other (`Pair.exit_unique`, `Pair.entry_unique`).  A parse that is refused
for the nesting of its rules does nothing any more but leave them, so that they are all open before it does
(`Grammar.run_limit_reached`).
-/
namespace LayeredParse

namespace Event

/-- By how much there are more open rules after the event. -/
def step : Event → Int
  | enteredRule .. => 1
  | leftRule .. => -1
  | builtGrammar .. | failedParse .. | fellBack => 0

/-- How many more rules are entered than left. -/
def opened : List Event → Int
  | [] => 0
  | e :: events => step e + opened events

theorem opened_append : ∀ (xs ys : List Event), opened (xs ++ ys) = opened xs + opened ys
  | [], ys => (Int.zero_add _).symm
  | e :: xs, ys => by rw [List.cons_append, opened, opened, opened_append xs ys, Int.add_assoc]

/-- **Whether all rules that are entered are left again, and no others are left.** -/
structure Closed (events : List Event) : Prop where
  opened_eq : opened events = 0
  opened_nonneg : ∀ before, before <+: events → 0 ≤ opened before

/-- **An entry, what is traced until the rule is left, and the exit.**  A rule that did not match is left at the index at
which it was entered. -/
inductive Pair : Event → List Event → Event → Prop
  | intro {rule : String} {index stop : Nat} {matched : Bool} {inside : List Event} (closed : Closed inside)
      (le : index ≤ stop) (unmoved : matched = false → stop = index) :
      Pair (enteredRule rule index) inside (leftRule rule matched stop)

/-- **Traces of rules that are entered and left in pairs**, nested up to a limit. -/
inductive Bracketed : (limit : Nat) → List Event → Prop
  | nil {limit : Nat} : Bracketed limit []
  | append {limit : Nat} {xs ys : List Event} (hx : Bracketed limit xs) (hy : Bracketed limit ys) :
      Bracketed limit (xs ++ ys)
  | pair {limit : Nat} {rule : String} {index stop : Nat} {matched : Bool} {inside : List Event}
      (hinside : Bracketed limit inside) (le : index ≤ stop) (unmoved : matched = false → stop = index) :
      Bracketed (limit + 1) (enteredRule rule index :: (inside ++ [leftRule rule matched stop]))

variable {limit : Nat} {events before inside inside' : List Event} {entry entry' exit exit' : Event}

/-! ## Open rules -/

theorem Bracketed.opened_eq (h : Bracketed limit events) : opened events = 0 := by
  induction h with
  | nil => rfl
  | append hx hy ihx ihy => rw [opened_append, ihx, ihy, Int.add_zero]
  | pair hinside le unmoved ih =>
    rw [opened, opened_append, ih]
    rfl

/-- **The open rules are at no place fewer than none or more than the limit.** -/
theorem Bracketed.opened_bounds (h : Bracketed limit events) :
    ∀ before, before <+: events → 0 ≤ opened before ∧ opened before ≤ limit := by
  induction h with
  | nil =>
    intro before hbefore
    rw [List.prefix_nil.1 hbefore]
    exact ⟨Int.le_refl 0, Int.natCast_nonneg _⟩
  | append hx hy ihx ihy =>
    rintro before ⟨after, heq⟩
    rcases List.append_eq_append_iff.1 heq with ⟨more, hxs, -⟩ | ⟨more, rfl, hys⟩
    · exact ihx before ⟨more, hxs.symm⟩
    · rw [opened_append, hx.opened_eq, Int.zero_add]
      exact ihy more ⟨after, hys.symm⟩
  | @pair limit rule index stop matched inside hinside le unmoved ih =>
    intro before hbefore
    rcases List.prefix_cons_iff.1 hbefore with rfl | ⟨more, rfl, hmore⟩
    · exact ⟨Int.le_refl 0, Int.natCast_nonneg _⟩
    · rw [opened, step]
      rcases List.prefix_concat_iff.1 hmore with rfl | hmore
      · rw [opened_append, hinside.opened_eq, opened, step, opened]
        exact ⟨Int.le_refl 0, Int.natCast_nonneg _⟩
      · have := ih more hmore
        omega

theorem Bracketed.closed (h : Bracketed limit events) : Closed events :=
  ⟨h.opened_eq, fun before hbefore => (h.opened_bounds before hbefore).1⟩

/-! ## Pairs -/

/-- **Every entry has its exit, and every exit its entry.** -/
theorem Bracketed.exists_pair (h : Bracketed limit events) : ∀ {before rest : List Event} {e : Event},
    events = before ++ e :: rest → (∃ inside exit after, rest = inside ++ exit :: after ∧ Pair e inside exit) ∨
      ∃ outer entry inside, before = outer ++ entry :: inside ∧ Pair entry inside e := by
  induction h with
  | nil =>
    intro before rest e heq
    cases before <;> cases heq
  | @append limit xs ys hx hy ihx ihy =>
    -- Entry and exit are both in the one part or both in the other.
    intro before rest e heq
    rcases List.append_eq_append_cons heq with ⟨more, hxs, rfl⟩ | ⟨more, hys, rfl⟩
    · rcases ihx hxs with ⟨inside, exit, after, rfl, hpair⟩ | hentry
      · exact .inl ⟨inside, exit, after ++ ys, by rw [List.append_assoc, List.cons_append], hpair⟩
      · exact .inr hentry
    · rcases ihy hys with hexit | ⟨outer, entry, inside, rfl, hpair⟩
      · exact .inl hexit
      · exact .inr ⟨xs ++ outer, entry, inside, by rw [List.append_assoc], hpair⟩
  | @pair limit rule index stop matched inside hinside le unmoved ih =>
    -- The event is the entry itself, inside, or the exit itself.
    intro before rest e heq
    have hpair : Pair (enteredRule rule index) inside (leftRule rule matched stop) := .intro hinside.closed le unmoved
    rcases List.cons_eq_append_iff.1 heq with ⟨rfl, heq⟩ | ⟨before, rfl, hbefore⟩
    · cases heq
      exact .inl ⟨inside, _, [], rfl, hpair⟩
    · rcases List.append_eq_append_cons hbefore with ⟨more, hmore, rfl⟩ | ⟨more, hmore, rfl⟩
      · rcases ih hmore with ⟨inner, exit, after, rfl, hpair'⟩ | ⟨outer, entry, inner, rfl, hpair'⟩
        · exact .inl ⟨inner, exit, after ++ [leftRule rule matched stop], by rw [List.append_assoc, List.cons_append], hpair'⟩
        · exact .inr ⟨enteredRule rule index :: outer, entry, inner, rfl, hpair'⟩
      · cases more with
        | nil =>
          cases hmore
          exact .inr ⟨[], _, inside, by rw [List.append_nil]; rfl, hpair⟩
        | cons _ more => cases more <;> cases hmore

/-- Right after a closed part at the beginning of a closed trace no rule is left. -/
theorem Closed.step_nonneg {e : Event} {more : List Event} (h : Closed inside) (h' : Closed (inside ++ e :: more)) :
    0 ≤ step e := by
  have hopened := h'.opened_nonneg (inside ++ [e]) ((List.prefix_append_right_inj inside).2 ⟨more, rfl⟩)
  rwa [opened_append, h.opened_eq, Int.zero_add, opened, opened, Int.add_zero] at hopened

/-- Right before a closed part at the end of a closed trace no rule is entered. -/
theorem Closed.step_nonpos {e : Event} {more : List Event} (h : Closed inside) (h' : Closed (more ++ e :: inside)) :
    step e ≤ 0 := by
  have hopened := h'.opened_nonneg more (List.prefix_append more _)
  have htotal := h'.opened_eq
  rw [opened_append, opened, h.opened_eq] at htotal
  omega

theorem Pair.closed : Pair entry inside exit → Closed inside
  | .intro closed _ _ => closed

theorem Pair.step_entry : Pair entry inside exit → step entry = 1
  | .intro .. => rfl

theorem Pair.step_exit : Pair entry inside exit → step exit = -1
  | .intro .. => rfl

/-- **An entry has one exit only.** -/
theorem Pair.exit_unique {after after' : List Event} (h : Pair entry inside exit) (h' : Pair entry' inside' exit')
    (heq : inside ++ exit :: after = inside' ++ exit' :: after') : inside = inside' := by
  have hexit := h.step_exit
  have hexit' := h'.step_exit
  rcases List.append_eq_append_cons heq with ⟨more, rfl, -⟩ | ⟨more, hmore, rfl⟩
  · have := h'.closed.step_nonneg h.closed
    omega
  · cases more with
    | nil => rw [List.append_nil]
    | cons e more =>
      cases hmore
      have := h.closed.step_nonneg h'.closed
      omega

/-- **An exit has one entry only.** -/
theorem Pair.entry_unique {outer outer' : List Event} (h : Pair entry inside exit) (h' : Pair entry' inside' exit')
    (heq : outer ++ entry :: inside = outer' ++ entry' :: inside') : inside = inside' := by
  have hentry := h.step_entry
  have hentry' := h'.step_entry
  rcases List.append_eq_append_cons heq with ⟨more, rfl, rfl⟩ | ⟨more, hmore, rfl⟩
  · have := h.closed.step_nonpos h'.closed
    omega
  · cases more with
    | nil =>
      cases hmore
      rfl
    | cons e more =>
      cases hmore
      have := h'.closed.step_nonpos h.closed
      omega

end Event

/-! ## What is traced -/

namespace Journal

/-- The rule entries and exits, the oldest first. -/
def trace (j : Journal) : List Event :=
  j.entries.reverse.filterMap Event.ofEntry?

theorem trace_record (j : Journal) (e : Entry) : (j.record e).trace = j.trace ++ (Event.ofEntry? e).toList := by
  rw [trace, record, List.reverse_cons, List.filterMap_append, trace]
  cases h : Event.ofEntry? e <;> simp [h]

end Journal

namespace State

/-- Whether what is traced between two states is bracketed. -/
def Traced (limit : Nat) (s t : State) : Prop :=
  ∃ inside, t.journal.trace = s.journal.trace ++ inside ∧ Event.Bracketed limit inside

variable {limit : Nat} {s t u : State}

theorem Traced.refl (s : State) : Traced limit s s :=
  ⟨[], (List.append_nil _).symm, .nil⟩

theorem Traced.trans (h : Traced limit s t) (h' : Traced limit t u) : Traced limit s u := by
  obtain ⟨inside, heq, hinside⟩ := h
  obtain ⟨inside', heq', hinside'⟩ := h'
  exact ⟨inside ++ inside', by rw [heq', heq, List.append_assoc], hinside.append hinside'⟩

theorem traced_miss (s : State) (expected : Expectation) : Traced limit s (s.miss expected) :=
  ⟨[], s.journal.trace_record _, .nil⟩

theorem trace_enter (s : State) (rule : String) :
    (s.enter rule).journal.trace = s.journal.trace ++ [.enteredRule rule s.index] :=
  s.journal.trace_record _

theorem trace_leave (s : State) (rule : String) (matched : Bool) :
    (s.leave rule matched).journal.trace = s.journal.trace ++ [.leftRule rule matched s.index] :=
  s.journal.trace_record _

/-- Going back and missing something leave no trace. -/
theorem traced_stable (input : Input) (limit : Nat) (s : State) : Comparison.Stable input (Traced limit s) where
  back _ h := h
  next h _ := h
  miss h expected := h.trans (traced_miss _ expected)

end State

/-- **A rule puts a pair around what its matcher writes down.** -/
theorem Attempt.around_traced {input : Input} {limit : Nat} {rule : Rule} {a : Attempt Forest} {s : State}
    (hbalanced : a.Balanced input) (ha : (s.enter rule.name).Traced limit (a (s.enter rule.name)).2) :
    s.Traced (limit + 1) (rule.around a s).2 := by
  obtain ⟨inside, heq, hinside⟩ := ha
  have hsteady := hbalanced (s.enter rule.name)
  unfold Rule.around
  generalize a (s.enter rule.name) = r at heq hsteady ⊢
  have hpair : s.index ≤ r.2.index ∧ (r.1.isMatch = false → r.2.index = s.index) := by
    rcases r with ⟨_ | _ | _, t⟩
    · exact ⟨hsteady.2.1, nofun⟩
    · exact ⟨Nat.le_of_eq hsteady.2.symm, fun _ => hsteady.2⟩
    · exact ⟨Nat.le_of_eq hsteady.2.symm, fun _ => hsteady.2⟩
  have htrace : (r.2.leave rule.name r.1.isMatch).journal.trace = s.journal.trace ++
      .enteredRule rule.name s.index :: (inside ++ [.leftRule rule.name r.1.isMatch r.2.index]) := by
    rw [State.trace_leave, heq, State.trace_enter, List.append_assoc, List.append_assoc]
    rfl
  exact ⟨_, htrace, .pair hinside hpair.1 hpair.2⟩

namespace Grammar

open Event (Bracketed Pair opened)

variable {g : Grammar} {key : RuleKey} {config : ParserConfig} {tokens : List Token}

/-- **What is traced while a rule is matched is bracketed**, and no deeper than there is room for rules. -/
theorem enter_traced (g : Grammar) (input : Input) : ∀ (room : Nat) (key : RuleKey) (s : State),
    s.Traced room (g.enter input room key s).2
  | room, key, s => by
    cases hr : g.rule? key with
    | none =>
      rw [enter_foreign hr]
      exact .refl s
    | some rule =>
      cases room with
      | zero =>
        rw [enter_zero hr]
        exact .refl s
      | succ room =>
        rw [enter_succ hr]
        have hcall : ∀ key t, (s.enter rule.name).Traced room t → (s.enter rule.name).Traced room (g.enter input room key t).2 :=
          fun key t ht => ht.trans (enter_traced g input room key t)
        exact Attempt.around_traced (g.attempt_balanced input room rule.matcher)
          (Matcher.attempt_keeps (State.traced_stable input room _) hcall rule.matcher (.refl _))

/-- **The trace of a parse is bracketed**, whatever its outcome. -/
theorem run_bracketed (g : Grammar) (key : RuleKey) (config : ParserConfig) (tokens : List Token) :
    Bracketed config.maxDepth (g.run key config tokens).state.journal.trace := by
  have htraced : State.Traced config.maxDepth {} (g.run key config tokens).state := by
    have hmatch : State.Traced config.maxDepth {} (g.matchRule { tokens := tokens.toArray, config } key {}).2 :=
      enter_traced g _ config.maxDepth key {}
    unfold run
    dsimp only
    split
    · rename_i node s heq
      rw [heq] at hmatch
      split
      · exact hmatch
      · exact hmatch.trans (s.traced_miss _)
    · rename_i heq
      rw [heq] at hmatch
      exact hmatch
    · rename_i heq
      rw [heq] at hmatch
      exact hmatch
  obtain ⟨inside, heq, hinside⟩ := htraced
  exact heq ▸ hinside

/-! ## Where there is no room -/

theorem opened_exits : ∀ {exits : List Entry}, (∀ entry ∈ exits, ∃ name index, entry = .left name false index) →
    opened (exits.filterMap Event.ofEntry?) = -exits.length
  | [], _ => rfl
  | entry :: exits, h => by
    obtain ⟨name, index, rfl⟩ := h entry List.mem_cons_self
    have hrest := opened_exits (fun e he => h e (List.mem_cons_of_mem _ he))
    have hexit : Event.ofEntry? (.left name false index) = some (.leftRule name false index) := rfl
    rw [List.filterMap_cons_some hexit, Event.opened, hrest, Event.step, List.length_cons]
    omega

/-- **The rules that are only left from here on are open here.** -/
theorem opened_unwound {count : Nat} {j j' : Journal} (h : j.Unwound count j') :
    j.trace <+: j'.trace ∧ opened j'.trace = opened j.trace - count := by
  obtain ⟨exits, heq, rfl, hexits⟩ := h
  have htrace : j'.trace = j.trace ++ exits.reverse.filterMap Event.ofEntry? := by
    rw [Journal.trace, heq, List.reverse_append, List.filterMap_append, Journal.trace]
  have hopened := opened_exits (fun e he => hexits e (List.mem_reverse.1 he))
  rw [List.length_reverse] at hopened
  exact ⟨⟨_, htrace.symm⟩, by rw [htrace, Event.opened_append, hopened, Int.sub_eq_add_neg]⟩

/-- **A refusal to enter a rule finds as many rules open as may be.** -/
theorem run_limit_reached {rule : String} {limit : Nat}
    (h : (g.run key config tokens).outcome = .error (.recursionLimit rule limit)) :
    ∃ before, before <+: (g.run key config tokens).state.journal.trace ∧ opened before = config.maxDepth := by
  have hbracketed := run_bracketed g key config tokens
  rcases parseRule_error h with ⟨t, hfailure⟩ | ⟨n, t, hduring, hraises⟩
  · exact absurd ⟨rule, limit, hfailure.symm⟩ State.failure_not_limit
  · have hdeep : config.maxDepth ≤ t.depth := by
      cases hraises with
      | deep _ hd => exact hd
    obtain ⟨j, hfails⟩ := hraises.fails
    obtain ⟨count, j', hfails', hdepth, hunwound⟩ := hduring.unwinds hfails
    obtain ⟨-, rfl⟩ := parseRule_fatal hfails'
    -- In the whole trace all rules are left, so that those that are left since the refusal were open there.
    obtain ⟨hbefore, hopened⟩ := opened_unwound hunwound
    have hbound := (hbracketed.opened_bounds _ hbefore).2
    have hdepth : t.depth = count := hdepth.trans (Nat.zero_add count)
    rw [hbracketed.opened_eq] at hopened
    exact ⟨j.trace, hbefore, by omega⟩

/-! ## The events of a parse -/

theorem level_ofEntry {entry : Entry} {e : Event} (h : Event.ofEntry? entry = some e) : e.level = .trace := by
  cases entry <;> cases h <;> rfl

theorem filter_events (g : Grammar) (key : RuleKey) (p : Parse) (h : config.traceRules = true) :
    (g.events key config p).filter (·.level == .trace) = p.state.journal.trace := by
  have hentries : p.state.journal.trace.filter (·.level == .trace) = p.state.journal.trace := by
    refine List.filter_eq_self.2 fun e he => ?_
    obtain ⟨entry, -, hentry⟩ := List.mem_filterMap.1 he
    exact beq_iff_eq.2 (level_ofEntry hentry)
  rw [events, State.events, if_pos h, List.filter_append]
  cases p.outcome with
  | ok root => exact (List.append_nil _).trans hentries
  | error e => exact (List.append_nil _).trans hentries

/-- **Rules are left in the reverse order of their entries.**

In the trace of a parse, whatever its outcome, every entry of a rule has one exit that belongs to it, and every exit one entry:
it is of the same rule, all that is entered in between is left in between, and the exit is at the index of the entry or, if the
rule matched, after it.  No more rules are open at any place than may be, and if the parse is refused for the nesting of its
rules, then as many are open at some place. -/
theorem events_nest (g : Grammar) (key : RuleKey) (maxDepth : Nat) (tokens : List Token) :
    let config : ParserConfig := { maxDepth, traceRules := true }
    let parse := g.run key config tokens
    let trace := (g.events key config parse).filter (·.level == .trace)
    (∀ before rule index rest, trace = before ++ .enteredRule rule index :: rest →
      ∃! inside, ∃ exit after, rest = inside ++ exit :: after ∧ Pair (.enteredRule rule index) inside exit) ∧
    (∀ before rule matched index after, trace = before ++ .leftRule rule matched index :: after →
      ∃! inside, ∃ outer entry, before = outer ++ entry :: inside ∧ Pair entry inside (.leftRule rule matched index)) ∧
    (∀ before, before <+: trace → 0 ≤ opened before ∧ opened before ≤ maxDepth) ∧
    ∀ rule limit, parse.outcome = .error (.recursionLimit rule limit) →
      ∃ before, before <+: trace ∧ opened before = maxDepth := by
  intro config parse trace
  have htrace : trace = parse.state.journal.trace := filter_events g key parse rfl
  have hbracketed : Bracketed maxDepth trace := htrace ▸ run_bracketed g key config tokens
  refine ⟨fun before rule index rest heq => ?_, fun before rule matched index after heq => ?_, hbracketed.opened_bounds,
    fun rule limit hlimit => htrace ▸ run_limit_reached hlimit⟩
  · rcases hbracketed.exists_pair heq with ⟨inside, exit, after, rfl, hpair⟩ | ⟨outer, entry, inside, -, hpair⟩
    · refine ⟨inside, ⟨exit, after, rfl, hpair⟩, ?_⟩
      rintro inside' ⟨exit', after', heq', hpair'⟩
      exact (hpair.exit_unique hpair' heq').symm
    · cases hpair
  · rcases hbracketed.exists_pair heq with ⟨inside, exit, after, -, hpair⟩ | ⟨outer, entry, inside, rfl, hpair⟩
    · cases hpair
    · refine ⟨inside, ⟨outer, entry, rfl, hpair⟩, ?_⟩
      rintro inside' ⟨outer', entry', heq', hpair'⟩
      exact (hpair.entry_unique hpair' heq').symm

/-- A list in a list in a list, where no more than two rules may be open. -/
theorem events_nest_refused : ∃ (g : Grammar) (tokens : List Token) (config : ParserConfig) (trace : List Event),
    config = { maxDepth := 2, traceRules := true } ∧
      (g.run 0 config tokens).outcome = .error (.recursionLimit "list" 2) ∧
      (g.events 0 config (g.run 0 config tokens)).filter (·.level == .trace) = trace ∧
      trace = [.enteredRule "list" 0, .enteredRule "list" 1, .leftRule "list" false 1, .leftRule "list" false 0] ∧
      (∃! inside, ∃ exit after, trace.tail = inside ++ exit :: after ∧ Pair (.enteredRule "list" 0) inside exit) ∧
      ∃ before, before <+: trace ∧ opened before = 2 := by
  let bracket (column : Nat) : Token := ⟨"(", TokenType.punctuator, 1, column, ⟨column, column + 1⟩⟩
  let list : Rule := ⟨"list", .sequence [.literal "(", .rule 0, .literal ")"], .never⟩
  let g : Grammar := ⟨#[list], 0⟩
  let tokens : List Token := [bracket 0, bracket 1, bracket 2]
  obtain ⟨hentry, -, -, hrefused⟩ := events_nest g 0 2 tokens
  exact ⟨g, tokens, _, _, rfl, rfl, rfl, rfl, hentry [] "list" 0 _ rfl, hrefused "list" 2 rfl⟩

end Grammar
end LayeredParse
