import LayeredParse.Proofs.Parse.Limits
import LayeredParse.Proofs.Peg.Outcomes
/-!
# Sound — what is found is derived

A grammar that keeps to the operators of parsing expression grammars derives whatever its rules find (`rule_sound`): for
every combinator what comes of it is derived if what comes of its parts is, and so, by induction on the room to nest
rules, is what comes of a rule.  The parse fails for good only where rules nest too deep.
-/
namespace LayeredParse

open Attempt (outcome)
open Outcome (success failure)

variable {g : Grammar} {input : Input} {room : Nat} {m : Matcher} {i : Nat}

/-- Whether what came of a matcher at an index is derived; rules may nest too deep. -/
def Derived (g : Grammar) (tokens : Array Token) (m : Matcher) (i : Nat) : Except ParseError Outcome → Prop
  | .ok o => Derives g tokens m i o
  | .error error => error.IsLimit

/-- Whether a matcher finds what is derived, from every state and with room to nest so many rules. -/
def Sound (g : Grammar) (input : Input) (room : Nat) (m : Matcher) : Prop :=
  ∀ s, Derived g input.tokens m s.index (outcome (m.attempt input (g.enter input room) s))

theorem Derived.imp {m' : Matcher} {i' : Nat} (h : ∀ o, Derives g input.tokens m i o → Derives g input.tokens m' i' o) :
    ∀ {r : Except ParseError Outcome}, Derived g input.tokens m i r → Derived g input.tokens m' i' r
  | .ok _, hr => h _ hr
  | .error _, hr => hr

theorem leaf_sound {accepts : Token → Bool} (h : m.accepts? = some accepts) : Sound g input room m := by
  intro s
  rw [attempt_leaf h]
  unfold Attempt.leaf
  split
  · rename_i token hread
    split
    · rename_i haccepts
      exact .token h hread haccepts
    · rename_i hrefuses
      refine .noToken h (fun token' hread' => ?_)
      cases hread.symm.trans hread'
      exact Bool.eq_false_iff.2 hrefuses
  · rename_i hread
    exact .noToken h (fun token hread' => nomatch hread.symm.trans hread')

theorem endOfInput_sound : Sound g input room .endOfInput := by
  intro s
  show Derived g input.tokens _ s.index (outcome (Attempt.endOfInput input s))
  unfold Attempt.endOfInput
  split
  · rename_i hend
    exact .atEnd (State.atEnd_iff.1 hend)
  · rename_i hbefore
    obtain ⟨token, hread⟩ := Option.ne_none_iff_exists'.1 (fun hend => hbefore (State.atEnd_iff.2 hend))
    exact .notAtEnd hread

theorem chain_derived : ∀ (ms : List Matcher), (∀ m ∈ ms, Sound g input room m) → ∀ s : State,
    Derived g input.tokens (.sequence ms) s.index
      (outcome (Attempt.chain (Matcher.attempts input (g.enter input room) ms) s))
  | [], _, _ => .noItems
  | m :: ms, h, s => by
    have hm := h m List.mem_cons_self s
    have hms := chain_derived ms (fun n hn => h n (List.mem_cons_of_mem m hn))
    rw [Matcher.attempts, Attempt.outcome_chain_cons]
    generalize m.attempt input (g.enter input room) s = r at hm ⊢
    rcases r with ⟨_ | _ | _, t⟩
    · exact (hms t).imp (fun _ => .firstItem hm)
    · exact .brokenItem hm
    · exact hm

theorem firstOf_derived : ∀ (ms : List Matcher), (∀ m ∈ ms, Sound g input room m) → ∀ s : State,
    Derived g input.tokens (.firstOf ms) s.index
      (outcome (Attempt.firstOf (Matcher.attempts input (g.enter input room) ms) s))
  | [], _, _ => .noChoice
  | m :: ms, h, s => by
    have hm := h m List.mem_cons_self s
    have hb := g.attempt_balanced input room m s
    have hms := firstOf_derived ms (fun n hn => h n (List.mem_cons_of_mem m hn))
    rw [Matcher.attempts, Attempt.outcome_firstOf_cons]
    generalize m.attempt input (g.enter input room) s = r at hm hb ⊢
    rcases r with ⟨_ | _ | _, t⟩
    · exact .firstChoice hm
    · have hrest := hms t
      rw [hb.2] at hrest
      exact hrest.imp (fun _ => .laterChoice hm)
    · exact hm

theorem optional_sound (h : Sound g input room m) : Sound g input room (.optional m) := by
  intro s
  have hm := h s
  have hb := g.attempt_balanced input room m s
  show Derived g input.tokens _ s.index (outcome (Attempt.optional (m.attempt input (g.enter input room)) s))
  rw [Attempt.outcome_optional]
  generalize m.attempt input (g.enter input room) s = r at hm hb ⊢
  rcases r with ⟨_ | _ | _, t⟩
  · exact .present hm
  · simp only [hb.2]
    exact .absent hm
  · exact hm

theorem repeated_derived (h : Sound g input room m) : ∀ {limit : Nat} {s : State}, input.size - s.index < limit →
    Derived g input.tokens (.zeroOrMore m) s.index
      (outcome (Attempt.repeated (m.attempt input (g.enter input room)) limit s))
  | 0, _, hlimit => absurd hlimit (Nat.not_lt_zero _)
  | limit + 1, s, hlimit => by
    have hm := h s
    have hb := g.attempt_balanced input room m s
    have hinside := attempt_inside g input room m s
    rw [Attempt.outcome_repeated_succ]
    generalize m.attempt input (g.enter input room) s = r at hm hb hinside ⊢
    rcases r with ⟨ns | _ | _, t⟩
    · obtain ⟨hle, hmax⟩ := hinside t ns rfl
      have hm : Derives g input.tokens m s.index (success t.index) := hm
      simp only
      split
      · rename_i hsame
        rw [hsame] at hm ⊢
        exact .noProgress hm
      · rename_i hmoved
        have hrest := repeated_derived h (show input.size - t.index < limit by omega)
        exact hrest.imp (fun _ => .again hm hmoved)
    · simp only [hb.2]
      exact .noMore hm
    · exact hm

theorem zeroOrMore_sound (h : Sound g input room m) : Sound g input room (.zeroOrMore m) := by
  intro s
  show Derived g input.tokens _ s.index (outcome (Attempt.atomic (Attempt.repeatedFrom input _) s))
  rw [Attempt.outcome_atomic]
  exact repeated_derived h (Nat.lt_succ_self _)

theorem oneOrMore_sound (h : Sound g input room m) : Sound g input room (.oneOrMore m) := by
  intro s
  have hm := h s
  show Derived g input.tokens _ s.index (outcome (Attempt.atomic (Attempt.chain [m.attempt input (g.enter input room), _]) s))
  rw [Attempt.outcome_atomic, Attempt.outcome_chain_cons]
  generalize m.attempt input (g.enter input room) s = r at hm ⊢
  rcases r with ⟨_ | _ | _, t⟩
  · have hrest := repeated_derived h (Nat.lt_succ_self (input.size - t.index))
    simp only
    rw [Attempt.outcome_chain_singleton]
    exact hrest.imp (fun _ => .oneAndMore hm)
  · exact .notOne hm
  · exact hm

theorem next_sound (h : Sound g input room m) : Sound g input room (.next m) := by
  intro s
  have hm := h s
  show Derived g input.tokens _ s.index (outcome (Attempt.next (m.attempt input (g.enter input room)) s))
  rw [Attempt.outcome_next]
  generalize m.attempt input (g.enter input room) s = r at hm ⊢
  rcases r with ⟨_ | _ | _, t⟩
  · exact .ahead hm
  · exact .notAhead hm
  · exact hm

theorem not_sound (h : Sound g input room m) : Sound g input room (.not m) := by
  intro s
  have hm := h s
  show Derived g input.tokens _ s.index (outcome (Attempt.not m (m.attempt input (g.enter input room)) s))
  rw [Attempt.outcome_not]
  generalize m.attempt input (g.enter input room) s = r at hm ⊢
  rcases r with ⟨_ | _ | _, t⟩
  · exact .unwanted hm
  · exact .unseen hm
  · exact hm

/-- Whether a matcher keeps to the operators of parsing expression grammars and to the rules of the grammar. -/
def Grammar.Reads (g : Grammar) (m : Matcher) : Prop :=
  ∀ f ∈ m.subforms, f.isPegOperator = true ∧ ∀ key, f = .rule key → key < g.size

theorem Grammar.Reads.self (h : g.Reads m) : m.isPegOperator = true ∧ ∀ key, m = .rule key → key < g.size :=
  (Form.forall_mem_subforms.1 h).1

theorem Grammar.Reads.item (h : g.Reads m) {c : Matcher} (hc : c ∈ m.items) : g.Reads c :=
  Form.forall_mem_item h hc

/-- A matcher is sound if the rules that it can enter are. -/
theorem sound_of_calls (hcall : ∀ key, key < g.size → Sound g input room (.rule key)) (hm : g.Reads m) :
    Sound g input room m := by
  induction m using Form.parts_induction with
  | sequence items ih =>
    intro s
    show Derived g input.tokens _ s.index (outcome (Attempt.atomic (Attempt.chain _) s))
    rw [Attempt.outcome_atomic]
    exact chain_derived items (fun c hc => ih c hc (hm.item hc)) s
  | firstOf alternatives ih => exact firstOf_derived alternatives (fun c hc => ih c hc (hm.item hc))
  | optional item ih => exact optional_sound (ih (hm.item List.mem_cons_self))
  | zeroOrMore item ih => exact zeroOrMore_sound (ih (hm.item List.mem_cons_self))
  | oneOrMore item ih => exact oneOrMore_sound (ih (hm.item List.mem_cons_self))
  | next item ih => exact next_sound (ih (hm.item List.mem_cons_self))
  | not item ih => exact not_sound (ih (hm.item List.mem_cons_self))
  | literal value | regex pattern | tokenType name | anyToken => exact leaf_sound rfl
  | endOfInput => exact endOfInput_sound
  | rule key => exact hcall key (hm.self.2 key rfl)
  | longestOne alternatives | strictOr alternatives | adjacent item | till terminator => cases hm.self.1

theorem Grammar.reads_rule (hbuilt : g.Built) (hpeg : g.IsPeg) {key : RuleKey} {rule : Rule}
    (hr : g.rule? key = some rule) : g.Reads rule.matcher :=
  fun f hf => ⟨hpeg key rule hr f hf, hbuilt.closed hr f hf⟩

/-- **Whatever a rule finds is derived**, and the parse fails for good only where rules nest too deep. -/
theorem rule_sound (hbuilt : g.Built) (hpeg : g.IsPeg) (input : Input) : ∀ (room : Nat) (key : RuleKey), key < g.size →
    Sound g input room (.rule key)
  | 0, key, hkey, s => by
    have hr : g.rule? key = some g.rules[key] := Array.getElem?_eq_getElem hkey
    show Derived g input.tokens _ s.index (outcome (Attempt.spliced (g.enter input 0 key) s))
    rw [Grammar.enter_zero hr]
    exact ⟨_, _, rfl⟩
  | room + 1, key, hkey, s => by
    have hr : g.rule? key = some g.rules[key] := Array.getElem?_eq_getElem hkey
    have hbody := sound_of_calls (rule_sound hbuilt hpeg input room) (g.reads_rule hbuilt hpeg hr)
    show Derived g input.tokens _ s.index (outcome (Attempt.spliced (g.enter input (room + 1) key) s))
    rw [Attempt.outcome_spliced, Grammar.enter_succ hr, Attempt.outcome_around]
    exact (hbody (s.enter g.rules[key].name)).imp (fun _ => .rule hr)

end LayeredParse
