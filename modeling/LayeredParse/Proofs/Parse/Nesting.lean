import LayeredParse.Proofs.Parse.Idle
import LayeredParse.Proofs.Parse.Limits
/-!
# Nesting — how deep rules nest without left recursion

A refusal of what a combinator makes is a refusal of one of the attempts that it is made of, made at or after the index of
the whole (`Attempt.RefusesFrom`); in a chain, if no token was taken before it, those before it are idle.  So a refusal of
a matcher is a refusal of a rule, and where no token was taken on the way the form of the matcher leads to that rule
(`Grammar.attempt_refused`).  A rule in a rule is thus entered further on, or it has a lower rank; a refusal uses up all
the room, of which there is no more than that (`Grammar.room_le`).
-/
namespace LayeredParse

open Outcome (success failure)

/-- Whether what was to come is the refusal to enter a rule. -/
def Refused {α : Type} (r : Except ParseError α) : Prop :=
  ∃ e, r = .error e ∧ e.IsLimit

@[simp] theorem not_refused_ok {α : Type} (v : α) : ¬Refused (.ok v) := by
  rintro ⟨e, he, -⟩
  cases he

theorem refused_error {α β : Type} {e : ParseError} (h : Refused (.error e : Except ParseError α)) :
    Refused (.error e : Except ParseError β) := by
  obtain ⟨_, he, hlimit⟩ := h
  cases he
  exact ⟨e, rfl, hlimit⟩

namespace Attempt

open State (Onward Unmoved)

variable {α : Type} {input : Input} {a : Attempt Forest} {as : List (Attempt Forest)} {s t : State}

/-- Whether the attempt is refused from a state that may come of another one. -/
def RefusesFrom (input : Input) (s : State) (a : Attempt Forest) : Prop :=
  ∃ t, Onward input s t ∧ Refused (outcome (a t))

theorem refusesFrom_self (h : Refused (outcome (a s))) : RefusesFrom input s a :=
  ⟨s, Onward.refl s, h⟩

theorem RefusesFrom.after (hst : Onward input s t) : RefusesFrom input t a → RefusesFrom input s a := by
  rintro ⟨u, htu, hu⟩
  exact ⟨u, hst.trans htu, hu⟩

theorem refused_atomic {a : Attempt α} (h : Refused (outcome (atomic a s))) : Refused (outcome (a s)) := by
  rwa [outcome_atomic] at h

theorem refused_trial {a : Attempt α} (h : Refused (trial a s).1) : Refused (outcome (a s)) := by
  unfold trial at h
  generalize a s = r at h ⊢
  rcases r with ⟨_ | _ | _, t⟩
  · exact absurd h (not_refused_ok _)
  · exact absurd h (not_refused_ok _)
  · exact refused_error h

/-- **A refused chain is refused by one of its attempts**, before which all attempts are idle unless a token was taken. -/
theorem chain_refused : ∀ {as : List (Attempt Forest)} {s : State}, (∀ a ∈ as, Advances input a) →
    Refused (outcome (chain as s)) → ∃ before a after t, as = before ++ a :: after ∧ Onward input s t ∧
      Refused (outcome (a t)) ∧ (t.index = s.index → ∀ b ∈ before, Idle b)
  | [], _, _, h => absurd h (not_refused_ok _)
  | a :: rest, s, h, hs => by
    have ha := h a List.mem_cons_self s
    rw [outcome_chain_cons] at hs
    rcases hr : a s with ⟨first | _ | _, t⟩ <;> rw [hr] at hs ha
    · obtain ⟨before, b, after, u, rfl, htu, hu, hidle⟩ :=
        chain_refused (fun c hc => h c (List.mem_cons_of_mem a hc)) hs
      refine ⟨a :: before, b, after, u, rfl, ha.trans htu, hu, fun hstay => ?_⟩
      have hst : t.index = s.index := Nat.le_antisymm (hstay ▸ htu.2.1) ha.2.1
      exact List.forall_mem_cons.2 ⟨⟨s, by rw [hr, outcome, hst]⟩, hidle (hstay.trans hst.symm)⟩
    · exact absurd hs (not_refused_ok _)
    · exact ⟨[], a, rest, s, rfl, Onward.refl s, by rw [hr]; exact hs, fun _ => List.forall_mem_nil _⟩

theorem firstOf_refused : ∀ {as : List (Attempt Forest)} {s : State}, (∀ a ∈ as, Balanced input a) →
    Refused (outcome (firstOf as s)) → ∃ a ∈ as, RefusesFrom input s a
  | [], _, _, h => absurd h (not_refused_ok _)
  | a :: rest, s, h, hs => by
    have ha := h a List.mem_cons_self s
    rw [outcome_firstOf_cons] at hs
    rcases hr : a s with ⟨first | _ | _, t⟩ <;> rw [hr] at hs ha
    · exact absurd hs (not_refused_ok _)
    · obtain ⟨b, hb, hrefuses⟩ := firstOf_refused (fun c hc => h c (List.mem_cons_of_mem a hc)) hs
      exact ⟨b, List.mem_cons_of_mem a hb, hrefuses.after ha.onward⟩
    · exact ⟨a, List.mem_cons_self, refusesFrom_self (by rw [hr]; exact hs)⟩

/-! ## Alternations that try everything first -/

theorem longest_refused : ∀ {as : List (Attempt Forest)} {best : Option (Attempt Forest × Nat)} {s : State},
    (∀ a ∈ as, Balanced input a) → Refused (longest as best s).1 → ∃ a ∈ as, RefusesFrom input s a
  | [], _, _, _, h => absurd h (not_refused_ok _)
  | a :: rest, best, s, h, hs => by
    have ht := trial_unmoved (h a List.mem_cons_self).advances s
    unfold longest at hs
    rcases hr : trial a s with ⟨error | reached, t⟩ <;> rw [hr] at hs ht
    · have htrial : Refused (trial a s).1 := by rw [hr]; exact refused_error hs
      exact ⟨a, List.mem_cons_self, refusesFrom_self (refused_trial htrial)⟩
    · obtain ⟨b, hb, hrefuses⟩ := longest_refused (fun c hc => h c (List.mem_cons_of_mem a hc)) hs
      exact ⟨b, List.mem_cons_of_mem a hb, hrefuses.after ht.onward⟩

/-- A tie is no refusal. -/
theorem only_refused (text : String) : ∀ {as : List (Attempt Forest)} {found : Option (Attempt Forest)} {s : State},
    (∀ a ∈ as, Balanced input a) → Refused (only (.ambiguousAlternatives · text) as found s).1 →
      ∃ a ∈ as, RefusesFrom input s a
  | [], _, _, _, h => absurd h (not_refused_ok _)
  | a :: rest, found, s, h, hs => by
    have ht := trial_unmoved (h a List.mem_cons_self).advances s
    have hrest : ∀ {found : Option (Attempt Forest)},
        Refused (only (.ambiguousAlternatives · text) rest found (trial a s).2).1 →
          ∃ b ∈ a :: rest, RefusesFrom input s b := by
      intro found hfound
      obtain ⟨b, hb, hrefuses⟩ := only_refused text (fun c hc => h c (List.mem_cons_of_mem a hc)) hfound
      exact ⟨b, List.mem_cons_of_mem a hb, hrefuses.after ht.onward⟩
    unfold only at hs
    rcases hr : trial a s with ⟨error | _ | reached, t⟩ <;> rw [hr] at hs hrest
    · have htrial : Refused (trial a s).1 := by rw [hr]; exact refused_error hs
      exact ⟨a, List.mem_cons_self, refusesFrom_self (refused_trial htrial)⟩
    · exact hrest hs
    · simp only at hs
      split at hs
      · obtain ⟨_, he, rule, limit, rfl⟩ := hs
        cases he
      · exact hrest hs

theorem make_refused {r : Except ParseError (Option (Attempt Forest)) × State} (hr : Chosen as s r)
    (herror : Refused r.1 → ∃ a ∈ as, RefusesFrom input s a) (h : Refused (outcome (make r))) :
    ∃ a ∈ as, RefusesFrom input s a := by
  obtain ⟨hunmoved, hm⟩ := hr
  rcases r with ⟨error | _ | a, t⟩
  · exact herror (refused_error h)
  · exact absurd h (not_refused_ok _)
  · exact ⟨a, hm a rfl, t, hunmoved.onward, h⟩

theorem longestOne_refused (h : ∀ a ∈ as, Balanced input a) :
    Refused (outcome (longestOne as s)) → ∃ a ∈ as, RefusesFrom input s a :=
  make_refused (longest_chosen as as none s h (fun _ ha => ha) (fun _ hp => nomatch hp)) (longest_refused h)

theorem strictOr_refused (text : String) (h : ∀ a ∈ as, Balanced input a) :
    Refused (outcome (strictOr (.ambiguousAlternatives · text) as s)) → ∃ a ∈ as, RefusesFrom input s a :=
  make_refused (only_chosen _ as as none s h (fun _ ha => ha) (fun _ ha => nomatch ha)) (only_refused text h)

/-! ## What is made of a single attempt -/

theorem optional_refused (h : Refused (outcome (optional a s))) : Refused (outcome (a s)) := by
  rw [outcome_optional] at h
  generalize a s = r at h ⊢
  rcases r with ⟨_ | _ | _, t⟩
  · exact h
  · exact absurd h (not_refused_ok _)
  · exact h

theorem repeated_refused (ha : Balanced input a) : ∀ {limit : Nat} {s : State}, Refused (outcome (repeated a limit s)) →
    RefusesFrom input s a
  | 0, _, h => absurd h (not_refused_ok _)
  | limit + 1, s, h => by
    have hb := ha s
    rw [outcome_repeated_succ] at h
    rcases hr : a s with ⟨ns | _ | _, t⟩ <;> rw [hr] at h hb
    · simp only at h
      split at h
      · exact absurd h (not_refused_ok _)
      · exact (repeated_refused ha h).after hb
    · exact absurd h (not_refused_ok _)
    · exact refusesFrom_self (by rw [hr]; exact h)

theorem zeroOrMore_refused (ha : Balanced input a) (h : Refused (outcome (zeroOrMore input a s))) :
    RefusesFrom input s a :=
  repeated_refused ha (refused_atomic h)

theorem pair_refused {b : Attempt Forest} (ha : Advances input a) (h : Refused (outcome (sequence [a, b] s))) :
    RefusesFrom input s a ∨ RefusesFrom input s b := by
  have h := refused_atomic h
  have hs := ha s
  rw [outcome_chain_cons] at h
  rcases hr : a s with ⟨ns | _ | _, t⟩ <;> rw [hr] at h hs
  · simp only [outcome_chain_singleton] at h
    exact .inr ⟨t, hs, h⟩
  · exact absurd h (not_refused_ok _)
  · exact .inl (refusesFrom_self (by rw [hr]; exact h))

theorem oneOrMore_refused (ha : Balanced input a) (h : Refused (outcome (oneOrMore input a s))) :
    RefusesFrom input s a := by
  rcases pair_refused ha.advances h with hfirst | ⟨t, hst, ht⟩
  · exact hfirst
  · exact (repeated_refused ha ht).after hst

theorem next_refused (h : Refused (outcome (next a s))) : Refused (outcome (a s)) := by
  rw [outcome_next] at h
  generalize a s = r at h ⊢
  rcases r with ⟨_ | _ | _, t⟩
  · exact absurd h (not_refused_ok _)
  · exact h
  · exact h

theorem not_refused {m : Matcher} (h : Refused (outcome (not m a s))) : Refused (outcome (a s)) := by
  rw [outcome_not] at h
  generalize a s = r at h ⊢
  rcases r with ⟨_ | _ | _, t⟩
  · exact absurd h (not_refused_ok _)
  · exact absurd h (not_refused_ok _)
  · exact h

theorem adjacent_refused {m : Matcher} (h : Refused (outcome (adjacent input m a s))) : Refused (outcome (a s)) := by
  unfold adjacent at h
  split at h
  · split at h
    · rwa [outcome_wrapped] at h
    · exact absurd h (not_refused_ok _)
  · exact absurd h (not_refused_ok _)
  · exact absurd h (not_refused_ok _)

theorem skipTo_refused (ha : Balanced input a) : ∀ {left : Nat} {s : State}, s.index + left ≤ max s.index input.size →
    Refused (outcome (skipTo a left s)) → RefusesFrom input s a
  | left, s, hle, h => by
    have ht := trial_unmoved ha.advances s
    unfold skipTo at h
    rcases hr : trial a s with ⟨error | _ | reached, t⟩ <;> rw [hr] at h ht
    · have htrial : Refused (trial a s).1 := by rw [hr]; exact refused_error h
      exact refusesFrom_self (refused_trial htrial)
    · cases left with
      | zero => exact absurd h (not_refused_ok _)
      | succ left =>
        have hnext : (t.goTo (t.index + 1)).index = s.index + 1 := congrArg (· + 1) ht.2
        have hstep : Onward input s (t.goTo (t.index + 1)) := ⟨ht.1, by omega, fun _ => by omega⟩
        exact (skipTo_refused ha (by omega) h).after hstep
    · exact absurd h (not_refused_ok _)

theorem skippedWords_refused (ha : Balanced input a) (h : Refused (outcome (skippedWords input a s))) :
    RefusesFrom input s a := by
  have hle : s.index + (input.size - s.index) ≤ max s.index input.size := by omega
  refine skipTo_refused ha hle ?_
  unfold skippedWords at h
  generalize skipTo a (input.size - s.index) s = r at h ⊢
  rcases r with ⟨_ | _ | _, t⟩
  · exact absurd h (not_refused_ok _)
  · exact absurd h (not_refused_ok _)
  · exact h

theorem till_refused (ha : Balanced input a) (h : Refused (outcome (till input a s))) : RefusesFrom input s a := by
  unfold till at h
  rw [outcome_wrapped] at h
  rcases pair_refused (skippedWords_advances ha.advances) h with ⟨t, hst, ht⟩ | hlast
  · exact (skippedWords_refused ha ht).after hst
  · exact hlast

theorem leaf_refused {m : Matcher} {accepts : Token → Bool} : ¬Refused (outcome (leaf input m accepts s)) := by
  unfold leaf
  split
  · split
    · exact not_refused_ok _
    · exact not_refused_ok _
  · exact not_refused_ok _

theorem endOfInput_refused : ¬Refused (outcome (endOfInput input s)) := by
  unfold endOfInput
  split
  · exact not_refused_ok _
  · exact not_refused_ok _

end Attempt

namespace Grammar

open Attempt
open State (Onward)

variable {g : Grammar} {input : Input} {room : Nat} {key : RuleKey} {m : Matcher} {ms : List Matcher} {s : State}

/-- Whether a rule that the matcher comes to is refused from a state that may come of another one; if no token was taken
before, the form of the matcher leads to the rule. -/
def RefusesRule (g : Grammar) (input : Input) (room : Nat) (m : Matcher) (s : State) : Prop :=
  ∃ key t, Onward input s t ∧ Refused (outcome (g.enter input room key t)) ∧ (t.index = s.index → g.LeadsTo key m)

theorem RefusesRule.of_item {item : Matcher}
    (h : ∀ {t}, Refused (outcome (item.attempt input (g.enter input room) t)) → g.RefusesRule input room item t)
    (hlead : ∀ {key}, g.LeadsTo key item → g.LeadsTo key m)
    (hitem : RefusesFrom input s (item.attempt input (g.enter input room))) : g.RefusesRule input room m s := by
  obtain ⟨t, hst, ht⟩ := hitem
  obtain ⟨key, u, htu, hu, hkey⟩ := h ht
  refine ⟨key, u, hst.trans htu, hu, fun hstay => hlead (hkey ?_)⟩
  have := hst.2.1
  have := htu.2.1
  omega

theorem RefusesRule.of_some
    (h : ∀ m ∈ ms, ∀ {t}, Refused (outcome (m.attempt input (g.enter input room) t)) → g.RefusesRule input room m t)
    (hlead : ∀ {key n}, n ∈ ms → g.LeadsTo key n → g.LeadsTo key m)
    (hsome : ∃ a ∈ Matcher.attempts input (g.enter input room) ms, RefusesFrom input s a) :
    g.RefusesRule input room m s := by
  obtain ⟨a, ha, hrefuses⟩ := hsome
  rw [Matcher.attempts_eq_map] at ha
  obtain ⟨n, hn, rfl⟩ := List.mem_map.1 ha
  exact .of_item (h n hn) (hlead hn) hrefuses

/-- **A refusal of a matcher is a refusal of a rule that it comes to.** -/
theorem attempt_refused (g : Grammar) (input : Input) (room : Nat) (m : Matcher) {s : State}
    (h : Refused (outcome (m.attempt input (g.enter input room) s))) : g.RefusesRule input room m s := by
  have balanced := g.attempt_balanced input room
  have each := attempts_balanced g input room
  induction m using Form.parts_induction generalizing s with
  | sequence items ih =>
    obtain ⟨before, a, after, t, heq, hst, ht, hidle⟩ :=
      chain_refused (fun a ha => (each items a ha).advances) (refused_atomic h)
    rw [Matcher.attempts_eq_map] at heq
    obtain ⟨first, rest, rfl, rfl, hrest⟩ := List.map_eq_append_iff.1 heq
    obtain ⟨m, last, rfl, rfl, rfl⟩ := List.map_eq_cons_iff.1 hrest
    obtain ⟨key, u, htu, hu, hkey⟩ := ih m (List.mem_append_right first List.mem_cons_self) ht
    refine ⟨key, u, hst.trans htu, hu, fun hstay => ?_⟩
    have hst' : t.index = s.index := Nat.le_antisymm (hstay ▸ htu.2.1) hst.2.1
    refine .sequence (fun n hn => ?_) (hkey (hstay.trans hst'.symm))
    exact nullable_of_idle g input room n (hidle hst' _ (List.mem_map_of_mem hn))
  | firstOf alternatives ih => exact .of_some ih .firstOf (firstOf_refused (each alternatives) h)
  | longestOne alternatives ih => exact .of_some ih .longestOne (longestOne_refused (each alternatives) h)
  | strictOr alternatives ih => exact .of_some ih .strictOr (strictOr_refused _ (each alternatives) h)
  | optional item ih => exact .of_item ih .optional (refusesFrom_self (optional_refused h))
  | zeroOrMore item ih => exact .of_item ih .zeroOrMore (zeroOrMore_refused (balanced item) h)
  | oneOrMore item ih => exact .of_item ih .oneOrMore (oneOrMore_refused (balanced item) h)
  | next item ih => exact .of_item ih .next (refusesFrom_self (next_refused h))
  | not item ih => exact .of_item ih .not (refusesFrom_self (not_refused h))
  | adjacent item ih => exact .of_item ih .adjacent (refusesFrom_self (adjacent_refused h))
  | till terminator ih => exact .of_item ih .till (till_refused (balanced terminator) h)
  | literal value => exact absurd h leaf_refused
  | regex pattern => exact absurd h leaf_refused
  | tokenType name => exact absurd h leaf_refused
  | anyToken => exact absurd h leaf_refused
  | endOfInput => exact absurd h endOfInput_refused
  | rule key =>
    refine ⟨key, s, Onward.refl s, ?_, fun _ => .rule⟩
    rw [← outcome_spliced]
    exact h

theorem refused_rule (h : Refused (outcome (g.enter input room key s))) : ∃ rule, g.rule? key = some rule := by
  cases hr : g.rule? key with
  | none =>
    rw [enter_foreign hr] at h
    obtain ⟨e, he, rule, limit, rfl⟩ := h
    cases he
  | some rule => exact ⟨rule, rfl⟩

theorem lt_size {rule : Rule} (hr : g.rule? key = some rule) : key < g.size :=
  (Array.getElem?_eq_some_iff.1 hr).1

/-- **A rule that is refused has used up its room**, and that is bounded: for every token left as much as there are
rules, and the rank of the rule. -/
theorem room_le (hleft : ¬g.LeftRecursive) : ∀ {room : Nat} {key : RuleKey} {s : State}, s.index ≤ input.size →
    Refused (outcome (g.enter input room key s)) → room ≤ g.size * (input.size - s.index) + g.rank key
  | 0, _, _, _, _ => Nat.zero_le _
  | room + 1, key, s, hs, h => by
    obtain ⟨rule, hr⟩ := refused_rule h
    rw [enter_succ hr, outcome_around] at h
    obtain ⟨key', t, hst, ht, hlead⟩ := attempt_refused g input room rule.matcher h
    obtain ⟨rule', hr'⟩ := refused_rule ht
    have hle := room_le hleft (hst.2.2 hs) ht
    have hend : t.index ≤ input.size := hst.2.2 hs
    have hindex : s.index ≤ t.index := hst.2.1
    by_cases hstay : t.index = s.index
    · have hrank := rank_lt_rank hleft (lt_size hr') ⟨rule, hr, hlead hstay⟩
      rw [hstay] at hle
      omega
    · have hrank := rank_lt hleft (lt_size hr')
      have hfewer : input.size - t.index + 1 ≤ input.size - s.index := by omega
      have hmul := Nat.mul_le_mul_left g.size hfewer
      rw [Nat.mul_succ] at hmul
      omega

/-- What is left over, and what backtracks, is a failure at a token and no refusal. -/
theorem run_refused {config : ParserConfig} {tokens : List Token} (h : Refused (g.run key config tokens).outcome) :
    Refused (outcome (g.enter { tokens := tokens.toArray, config } config.maxDepth key {})) := by
  have failed : ∀ t : State, ¬Refused (.error (t.failure { tokens := tokens.toArray, config }) : Except ParseError Node) := by
    rintro t ⟨e, he, hlimit⟩
    cases he
    exact State.failure_not_limit hlimit
  unfold run at h
  simp only at h
  rcases hr : g.matchRule { tokens := tokens.toArray, config } key {} with ⟨node | why | error, t⟩ <;> rw [hr] at h
  · simp only at h
    split at h
    · exact absurd h (not_refused_ok _)
    · exact absurd h (failed _)
  · exact absurd h (failed t)
  · have hentered : g.enter { tokens := tokens.toArray, config } config.maxDepth key {} = (.fatal error, t) := hr
    rw [hentered]
    exact refused_error h

/-- **Without left recursion a parse is never refused with a limit that is high enough**: as many nested rules as there
are rules, for every token and once more. -/
theorem parseRule_unrefused (hleft : ¬g.LeftRecursive) (key : RuleKey) (config : ParserConfig) (tokens : List Token)
    {d : Nat} (hd : g.size * (tokens.length + 1) ≤ d) : ¬g.RefusedAt key config tokens d := by
  rintro ⟨name, limit, h⟩
  have hrefused := run_refused ⟨_, h, name, limit, rfl⟩
  obtain ⟨rule, hr⟩ := refused_rule hrefused
  have hle : d ≤ g.size * tokens.length + g.rank key := room_le hleft (Nat.zero_le _) hrefused
  have hrank := rank_lt hleft (lt_size hr)
  rw [Nat.mul_succ] at hd
  omega

/-- A sum of letters, one of which may be a sum in parentheses: a sum comes to a letter first, and a letter to a sum only
after its parenthesis.  Three tokens take at most eight rules in one another. -/
theorem parseRule_unrefused_sum : ∃ (g : Grammar) (tokens : List Token), ¬g.LeftRecursive ∧ g.LeftCalls 0 1 ∧
    g.size * (tokens.length + 1) = 8 ∧ ¬g.RefusedAt 0 {} tokens 8 ∧ g.RefusedAt 0 {} tokens 2 := by
  let letter : String → Token := fun value => ⟨value, TokenType.identifier, 1, 0, ⟨0, 1⟩⟩
  let sum : Matcher := .sequence [.rule 1, .zeroOrMore (.sequence [.literal "+", .rule 1])]
  let atom : Matcher := .firstOf [.literal "x", .sequence [.literal "(", .rule 0, .literal ")"]]
  let g : Grammar := ⟨#[⟨"sum", sum, .never⟩, ⟨"atom", atom, .never⟩], 0⟩
  let tokens : List Token := [letter "(", letter "x", letter ")"]
  have group : ¬g.Nullable (.sequence [.literal "(", .rule 0, .literal ")"]) := by
    rintro ⟨hall⟩
    cases hall _ List.mem_cons_self
  have later : ∀ caller callee, g.LeftCalls caller callee → caller < callee := by
    rintro (_ | _ | _) callee ⟨rule, hr, hlead⟩
    · cases hr
      rcases leadsTo_cons.1 hlead with hlead | ⟨hnull, -⟩
      · cases hlead
        exact Nat.one_pos
      · cases hnull with
        | rule hr hnull =>
          cases hr
          cases hnull with
          | firstOf hm hnull =>
            rcases List.mem_pair.1 hm with rfl | rfl
            · cases hnull
            · exact absurd hnull group
    · cases hr
      cases hlead with
      | firstOf hm hlead =>
        rcases List.mem_pair.1 hm with rfl | rfl
        · cases hlead
        · rcases leadsTo_cons.1 hlead with hlead | ⟨hnull, -⟩
          · cases hlead
          · cases hnull
    · cases hr
  have hleft : ¬g.LeftRecursive := not_leftRecursive later
  have first : g.LeftCalls 0 1 := ⟨_, rfl, leadsTo_cons.2 (.inl .rule)⟩
  refine ⟨g, tokens, hleft, first, rfl, parseRule_unrefused hleft 0 {} tokens (Nat.le_refl _), "sum", 2, ?_⟩
  rfl

end Grammar
end LayeredParse
