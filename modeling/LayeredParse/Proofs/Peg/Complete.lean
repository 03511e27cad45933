import LayeredParse.Proofs.Peg.Sound
import Mathlib.Order.Filter.AtTopBot.Basic
/-!
# Complete — what is derived is found

With enough room to nest rules, and with any room above that, a matcher finds what it derives (`Derives.given`).  So a
rule gets an answer with some limit exactly if it derives one (`matchRule_derives`); a rule that begins with itself
derives none and is always refused (`matchRule_endless`).
-/
namespace LayeredParse

open Attempt (outcome)
open Outcome (success failure)

variable {g : Grammar} {tokens : Array Token} {room : Nat} {m : Matcher} {ms : List Matcher} {key : RuleKey} {i j : Nat}
  {o : Outcome} {s : State}

/-- Whether attempting a matcher at an index comes to an outcome with room to nest so many rules, whatever the
configuration is and whatever happened before. -/
def Gives (g : Grammar) (tokens : Array Token) (room : Nat) (m : Matcher) (i : Nat) (o : Outcome) : Prop :=
  ∀ (config : ParserConfig) (s : State), s.index = i →
    outcome (m.attempt { tokens, config } (g.enter { tokens, config } room) s) = .ok o

namespace Gives

theorem matched (h : Gives g tokens room m i (success j)) (config : ParserConfig) {s : State} (hs : s.index = i) :
    ∃ ns t, m.attempt { tokens, config } (g.enter { tokens, config } room) s = (.matched ns, t) ∧ t.index = j :=
  Attempt.outcome_success (h config s hs)

theorem failed (h : Gives g tokens room m i failure) (config : ParserConfig) {s : State} (hs : s.index = i) :
    ∃ why t, m.attempt { tokens, config } (g.enter { tokens, config } room) s = (.backtrack why, t) ∧ t.index = i := by
  obtain ⟨why, t, ha⟩ := Attempt.outcome_failure (h config s hs)
  have hb := g.attempt_balanced { tokens, config } room m s
  rw [ha] at hb
  exact ⟨why, t, ha, hb.2.trans hs⟩

theorem token {accepts : Token → Bool} {token : Token} (h : m.accepts? = some accepts) (hread : tokens[i]? = some token)
    (haccepts : accepts token = true) : Gives g tokens room m i (success (i + 1)) := by
  rintro config s rfl
  have hread : Input.read { tokens, config } s.index = some token := hread
  rw [attempt_leaf h, Attempt.leaf, hread]
  dsimp only
  rw [if_pos haccepts]
  rfl

theorem noToken {accepts : Token → Bool} (h : m.accepts? = some accepts)
    (hrefuses : ∀ token, tokens[i]? = some token → accepts token = false) : Gives g tokens room m i failure := by
  rintro config s rfl
  rw [attempt_leaf h]
  unfold Attempt.leaf
  split
  · rename_i token hread
    rw [hrefuses token hread]
    rfl
  · rfl

theorem atEnd (h : tokens[i]? = none) : Gives g tokens room .endOfInput i (success i) := by
  rintro config s rfl
  show outcome (Attempt.endOfInput { tokens, config } s) = _
  rw [Attempt.endOfInput, if_pos (State.atEnd_iff.2 h)]
  rfl

theorem notAtEnd {token : Token} (h : tokens[i]? = some token) : Gives g tokens room .endOfInput i failure := by
  rintro config s rfl
  have hbefore : ¬s.atEnd { tokens, config } = true := fun hend => nomatch h.symm.trans (State.atEnd_iff.1 hend)
  show outcome (Attempt.endOfInput { tokens, config } s) = _
  rw [Attempt.endOfInput, if_neg hbefore]
  rfl

theorem sequence_iff : Gives g tokens room (.sequence ms) i o ↔ ∀ (config : ParserConfig) (s : State), s.index = i →
    outcome (Attempt.chain (Matcher.attempts { tokens, config } (g.enter { tokens, config } room) ms) s) = .ok o :=
  forall₂_congr fun config s => imp_congr_right fun _ =>
    Eq.congr_left (Attempt.outcome_atomic
      (Attempt.chain (Matcher.attempts { tokens, config } (g.enter { tokens, config } room) ms)) s)

theorem noItems : Gives g tokens room (.sequence []) i (success i) := by
  rintro config s rfl
  rfl

theorem firstItem (hm : Gives g tokens room m i (success j)) (hms : Gives g tokens room (.sequence ms) j o) :
    Gives g tokens room (.sequence (m :: ms)) i o := by
  rw [sequence_iff] at hms ⊢
  intro config s hs
  obtain ⟨ns, t, ha, ht⟩ := hm.matched config hs
  rw [Matcher.attempts, Attempt.outcome_chain_cons, ha]
  exact hms config t ht

theorem brokenItem (hm : Gives g tokens room m i failure) : Gives g tokens room (.sequence (m :: ms)) i failure := by
  rw [sequence_iff]
  intro config s hs
  obtain ⟨why, t, ha, -⟩ := hm.failed config hs
  rw [Matcher.attempts, Attempt.outcome_chain_cons, ha]
  rfl

theorem noChoice : Gives g tokens room (.firstOf []) i failure :=
  fun _ _ _ => rfl

theorem firstChoice (hm : Gives g tokens room m i (success j)) : Gives g tokens room (.firstOf (m :: ms)) i (success j) := by
  intro config s hs
  obtain ⟨ns, t, ha, rfl⟩ := hm.matched config hs
  show outcome (Attempt.firstOf (_ :: Matcher.attempts _ _ ms) s) = _
  rw [Attempt.outcome_firstOf_cons, ha]
  rfl

theorem laterChoice (hm : Gives g tokens room m i failure) (hms : Gives g tokens room (.firstOf ms) i o) :
    Gives g tokens room (.firstOf (m :: ms)) i o := by
  intro config s hs
  obtain ⟨why, t, ha, ht⟩ := hm.failed config hs
  show outcome (Attempt.firstOf (_ :: Matcher.attempts _ _ ms) s) = _
  rw [Attempt.outcome_firstOf_cons, ha]
  exact hms config t ht

theorem present (hm : Gives g tokens room m i (success j)) : Gives g tokens room (.optional m) i (success j) := by
  intro config s hs
  obtain ⟨ns, t, ha, rfl⟩ := hm.matched config hs
  show outcome (Attempt.optional _ s) = _
  rw [Attempt.outcome_optional, ha]
  rfl

theorem absent (hm : Gives g tokens room m i failure) : Gives g tokens room (.optional m) i (success i) := by
  intro config s hs
  obtain ⟨why, t, ha, rfl⟩ := hm.failed config hs
  show outcome (Attempt.optional _ s) = _
  rw [Attempt.outcome_optional, ha]

theorem zeroOrMore_iff : Gives g tokens room (.zeroOrMore m) i o ↔ ∀ (config : ParserConfig) (s : State), s.index = i →
    outcome (Attempt.repeatedFrom { tokens, config } (m.attempt { tokens, config } (g.enter { tokens, config } room)) s) =
      .ok o :=
  forall₂_congr fun config s => imp_congr_right fun _ =>
    Eq.congr_left (Attempt.outcome_atomic
      (Attempt.repeatedFrom { tokens, config } (m.attempt { tokens, config } (g.enter { tokens, config } room))) s)

theorem noMore (hm : Gives g tokens room m i failure) : Gives g tokens room (.zeroOrMore m) i (success i) := by
  rw [zeroOrMore_iff]
  intro config s hs
  obtain ⟨why, t, ha, rfl⟩ := hm.failed config hs
  rw [Attempt.outcome_repeatedFrom (attempt_inside g _ room m), ha]

theorem noProgress (hm : Gives g tokens room m i (success i)) : Gives g tokens room (.zeroOrMore m) i (success i) := by
  rw [zeroOrMore_iff]
  intro config s hs
  obtain ⟨ns, t, ha, rfl⟩ := hm.matched config hs
  rw [Attempt.outcome_repeatedFrom (attempt_inside g _ room m), ha]
  exact if_pos hs.symm

theorem again (hm : Gives g tokens room m i (success j)) (hij : j ≠ i) (hms : Gives g tokens room (.zeroOrMore m) j o) :
    Gives g tokens room (.zeroOrMore m) i o := by
  rw [zeroOrMore_iff] at hms ⊢
  intro config s hs
  obtain ⟨ns, t, ha, rfl⟩ := hm.matched config hs
  rw [Attempt.outcome_repeatedFrom (attempt_inside g _ room m), ha]
  exact (if_neg (hs ▸ hij)).trans (hms config t rfl)

theorem oneAndMore (hm : Gives g tokens room m i (success j)) (hms : Gives g tokens room (.zeroOrMore m) j o) :
    Gives g tokens room (.oneOrMore m) i o := by
  rw [zeroOrMore_iff] at hms
  intro config s hs
  obtain ⟨ns, t, ha, ht⟩ := hm.matched config hs
  show outcome (Attempt.atomic (Attempt.chain [_, _]) s) = _
  rw [Attempt.outcome_atomic, Attempt.outcome_chain_cons, ha]
  exact (Attempt.outcome_chain_singleton t).trans (hms config t ht)

theorem notOne (hm : Gives g tokens room m i failure) : Gives g tokens room (.oneOrMore m) i failure := by
  intro config s hs
  obtain ⟨why, t, ha, -⟩ := hm.failed config hs
  show outcome (Attempt.atomic (Attempt.chain [_, _]) s) = _
  rw [Attempt.outcome_atomic, Attempt.outcome_chain_cons, ha]
  rfl

theorem ahead (hm : Gives g tokens room m i (success j)) : Gives g tokens room (.next m) i (success i) := by
  rintro config s rfl
  obtain ⟨ns, t, ha, -⟩ := hm.matched config rfl
  show outcome (Attempt.next _ s) = _
  rw [Attempt.outcome_next, ha]

theorem notAhead (hm : Gives g tokens room m i failure) : Gives g tokens room (.next m) i failure := by
  intro config s hs
  obtain ⟨why, t, ha, -⟩ := hm.failed config hs
  show outcome (Attempt.next _ s) = _
  rw [Attempt.outcome_next, ha]
  rfl

theorem unwanted (hm : Gives g tokens room m i (success j)) : Gives g tokens room (.not m) i failure := by
  intro config s hs
  obtain ⟨ns, t, ha, -⟩ := hm.matched config hs
  show outcome (Attempt.not m _ s) = _
  rw [Attempt.outcome_not, ha]

theorem unseen (hm : Gives g tokens room m i failure) : Gives g tokens room (.not m) i (success i) := by
  rintro config s rfl
  obtain ⟨why, t, ha, -⟩ := hm.failed config rfl
  show outcome (Attempt.not m _ s) = _
  rw [Attempt.outcome_not, ha]

/-- A rule takes room for one more. -/
theorem rule {key : RuleKey} {rule : Rule} (hr : g.rule? key = some rule) (hm : Gives g tokens room rule.matcher i o) :
    Gives g tokens (room + 1) (.rule key) i o := by
  intro config s hs
  show outcome (Attempt.spliced (g.enter _ (room + 1) key) s) = _
  rw [Attempt.outcome_spliced, Grammar.enter_succ hr, Attempt.outcome_around]
  exact hm config (s.enter rule.name) hs

end Gives

/-- **Whatever is derived is found** with enough room to nest rules, and with any room above that. -/
theorem Derives.given (h : Derives g tokens m i o) : ∀ᶠ room in Filter.atTop, Gives g tokens room m i o := by
  induction h with
  | token h hread haccepts => exact .of_forall fun _ => .token h hread haccepts
  | noToken h hrefuses => exact .of_forall fun _ => .noToken h hrefuses
  | atEnd h => exact .of_forall fun _ => .atEnd h
  | notAtEnd h => exact .of_forall fun _ => .notAtEnd h
  | noItems => exact .of_forall fun _ => .noItems
  | firstItem _ _ hm hms => exact hm.mp (hms.mono fun _ hms hm => hm.firstItem hms)
  | brokenItem _ hm => exact hm.mono fun _ => .brokenItem
  | noChoice => exact .of_forall fun _ => .noChoice
  | firstChoice _ hm => exact hm.mono fun _ => .firstChoice
  | laterChoice _ _ hm hms => exact hm.mp (hms.mono fun _ hms hm => hm.laterChoice hms)
  | present _ hm => exact hm.mono fun _ => .present
  | absent _ hm => exact hm.mono fun _ => .absent
  | noMore _ hm => exact hm.mono fun _ => .noMore
  | noProgress _ hm => exact hm.mono fun _ => .noProgress
  | again _ hij _ hm hms => exact hm.mp (hms.mono fun _ hms hm => hm.again hij hms)
  | oneAndMore _ _ hm hms => exact hm.mp (hms.mono fun _ hms hm => hm.oneAndMore hms)
  | notOne _ hm => exact hm.mono fun _ => .notOne
  | ahead _ hm => exact hm.mono fun _ => .ahead
  | notAhead _ hm => exact hm.mono fun _ => .notAhead
  | unwanted _ hm => exact hm.mono fun _ => .unwanted
  | unseen _ hm => exact hm.mono fun _ => .unseen
  | rule hr _ hm =>
    obtain ⟨enough, hm⟩ := Filter.eventually_atTop.1 hm
    refine Filter.eventually_atTop.2 ⟨enough + 1, fun room hroom => ?_⟩
    obtain ⟨room, rfl⟩ := Nat.exists_eq_add_one_of_ne_zero (Nat.ne_zero_of_lt hroom)
    exact .rule hr (hm room (Nat.le_of_succ_le_succ hroom))

namespace Grammar

theorem matchRule_derived (hbuilt : g.Built) (hpeg : g.IsPeg) (input : Input) {key : RuleKey} (hkey : key < g.size)
    (s : State) : Derived g input.tokens (.rule key) s.index (outcome (g.matchRule input key s)) := by
  have h : Derived g input.tokens (.rule key) s.index
      (outcome (Attempt.spliced (g.enter input (input.config.maxDepth - s.depth) key) s)) :=
    rule_sound hbuilt hpeg input _ key hkey s
  rwa [Attempt.outcome_spliced] at h

/-- What is derived for a rule is found with some limit. -/
theorem exists_matchRule (h : Derives g tokens (.rule key) s.index o) (config : ParserConfig) :
    ∃ d, outcome (g.matchRule { tokens, config := { config with maxDepth := d } } key s) = .ok o := by
  obtain ⟨room, h⟩ := h.given.exists
  refine ⟨room + s.depth, ?_⟩
  have h : outcome (Attempt.spliced (g.enter _ room key) s) = .ok o :=
    h { config with maxDepth := room + s.depth } s rfl
  rw [matchRule, Nat.add_sub_cancel, ← Attempt.outcome_spliced]
  exact h

/-- **A rule that begins with itself never gets an answer**: it is refused with every limit, from every state. -/
theorem matchRule_endless (hbuilt : g.Built) (hpeg : g.IsPeg) {S : Matcher → Prop}
    (hS : ∀ m, S m → ∃ c, g.begins? m = some c ∧ S c) (hkey : key < g.size) (hself : S (.rule key)) (input : Input) :
    ∃ rule limit, (g.matchRule input key s).1 = .fatal (.recursionLimit rule limit) := by
  have hfound := matchRule_derived hbuilt hpeg input hkey s
  generalize g.matchRule input key s = r at hfound ⊢
  rcases r with ⟨_ | _ | error, t⟩
  · exact (Derives.not_endless hS hfound hself).elim
  · exact (Derives.not_endless hS hfound hself).elim
  · obtain ⟨rule, limit, rfl⟩ := hfound
    exact ⟨rule, limit, rfl⟩

/-- **Matching decides a parsing expression grammar.**  From any state, a rule of a built grammar that keeps to the
operators of such grammars matches up to an index with some limit exactly if it derives success up to there, and
backtracks with some limit exactly if it derives failure.  With every limit, the only reason for which it fails for good
is that rules nest too deep. -/
theorem matchRule_derives (hbuilt : g.Built) (hpeg : g.IsPeg) (tokens : Array Token) (config : ParserConfig)
    {key : RuleKey} (hkey : key < g.size) (s : State) :
    (∀ j, (∃ d node t, g.matchRule { tokens, config := { config with maxDepth := d } } key s = (.matched node, t) ∧
        t.index = j) ↔ Derives g tokens (.rule key) s.index (success j)) ∧
    ((∃ d why t, g.matchRule { tokens, config := { config with maxDepth := d } } key s = (.backtrack why, t)) ↔
      Derives g tokens (.rule key) s.index failure) ∧
    ∀ d error t, g.matchRule { tokens, config := { config with maxDepth := d } } key s = (.fatal error, t) →
      ∃ rule limit, error = .recursionLimit rule limit := by
  have found := fun d => matchRule_derived hbuilt hpeg { tokens, config := { config with maxDepth := d } } hkey s
  refine ⟨fun j => ⟨?_, fun h => ?_⟩, ⟨?_, fun h => ?_⟩, fun d error t h => ?_⟩
  · rintro ⟨d, node, t, h, rfl⟩
    have hd := found d
    rw [h] at hd
    exact hd
  · obtain ⟨d, hd⟩ := exists_matchRule h config
    obtain ⟨node, t, hd, ht⟩ := Attempt.outcome_success hd
    exact ⟨d, node, t, hd, ht⟩
  · rintro ⟨d, why, t, h⟩
    have hd := found d
    rw [h] at hd
    exact hd
  · obtain ⟨d, hd⟩ := exists_matchRule h config
    exact ⟨d, Attempt.outcome_failure hd⟩
  · have hd := found d
    rw [h] at hd
    exact hd

/-- Letters with commas between them, where a letter may be a list in parentheses, and an option over and over after them:
two letters are a list, which ends before what is no comma, and there is no list at the comma.  With the limit 1 no letter
is entered. -/
theorem matchRule_derives_letters : ∃ (g : Grammar) (tokens : Array Token), g.Built ∧ g.IsPeg ∧
    Derives g tokens (.rule 0) 0 (success 3) ∧ Derives g tokens (.rule 0) 1 failure ∧
      (g.matchRule { tokens, config := { maxDepth := 1 } } 0 {}).1.isMatch = false ∧
      ∀ error t, g.matchRule { tokens, config := { maxDepth := 1 } } 0 {} = (.fatal error, t) →
        ∃ rule limit, error = .recursionLimit rule limit := by
  let word : String → Token := fun value => ⟨value, TokenType.identifier, 1, 0, ⟨0, 1⟩⟩
  let list : Expr := .sequence [.rule 1, .zeroOrMore (.sequence [.literal ",", .rule 1]), .not (.literal ","),
    .zeroOrMore (.optional (.literal "!"))]
  let letter : Expr := .firstOf [.literal "x", .sequence [.literal "(", .rule 0, .literal ")"]]
  let draft : Draft := { definitions := #[{ name := "list", body := some list }, { name := "letter", body := some letter }] }
  let list' : Matcher := .sequence [.rule 1, .zeroOrMore (.sequence [.literal ",", .rule 1]), .not (.literal ","),
    .zeroOrMore (.optional (.literal "!"))]
  let letter' : Matcher := .firstOf [.literal "x", .sequence [.literal "(", .rule 0, .literal ")"]]
  let g : Grammar := ⟨#[⟨"list", list', .never⟩, ⟨"letter", letter', .never⟩], 0⟩
  let tokens : Array Token := #[word "x", word ",", word "x", word ";"]
  have hbuilt : g.Built := ⟨draft, 0, Regex.engine, rfl⟩
  have hpeg : g.IsPeg := by
    intro key rule hr
    rcases key with _ | _ | key
    · cases hr
      decide
    · cases hr
      decide
    · cases hr
  have derives := fun s => matchRule_derives hbuilt hpeg tokens {} (show 0 < g.size by decide) s
  refine ⟨g, tokens, hbuilt, hpeg, (((derives {}).1 3).1 ⟨2, ?_⟩), ((derives { index := 1 }).2.1.1 ⟨2, ?_⟩), ?_,
    (derives {}).2.2 1⟩
  · exact ⟨_, _, rfl, rfl⟩
  · exact ⟨_, _, rfl⟩
  · decide +kernel

end Grammar
end LayeredParse
