import LayeredParse.Proofs.Parse.Furthest
import LayeredParse.Proofs.Parse.Interchange
import LayeredParse.Proofs.Parse.Nested
/-!
# Explaining — no mismatch goes unexplained

A state explains itself from an index on if something was expected in vain there or after it (`State.Explained`); it
reaches the index if it is there, or explains itself from there on.  An attempt made from a state that reaches an index
leaves one that does if it matches, and one that explains itself if it backtracks (`Attempt.Explains`): of the
combinators that have nothing to write down themselves, each backtracks only after an attempt that did.  The exceptions
are alternations of nothing.  Without these an attempt that backtracks has explained itself from where it started, and
the error of a failed parse expects something (`attemptAt_explained`).
-/
namespace LayeredParse

namespace Form

variable {ρ : Type}

/-- Whether the form is an alternation of nothing. -/
def isVain : Form ρ → Bool
  | firstOf [] | longestOne [] | strictOr [] => true
  | _ => false

/-- Whether every alternation in the form has an alternative. -/
def Offers (m : Form ρ) : Prop :=
  ∀ f ∈ m.subforms, f.isVain = false

instance (m : Form ρ) : Decidable m.Offers :=
  inferInstanceAs (Decidable (∀ f ∈ m.subforms, f.isVain = false))

end Form

namespace Grammar

def Offers (g : Grammar) : Prop :=
  ∀ rule ∈ g.rules.toList, rule.matcher.Offers

instance (g : Grammar) : Decidable g.Offers :=
  inferInstanceAs (Decidable (∀ rule ∈ g.rules.toList, rule.matcher.Offers))

theorem Offers.rule {g : Grammar} {key : RuleKey} {rule : Rule} (h : g.Offers) (hr : g.rule? key = some rule) :
    rule.matcher.Offers :=
  h rule (Array.mem_toList_iff.2 (Array.mem_of_getElem? hr))

end Grammar

/-! ## What states explain -/

/-- What an error says was expected, unless it is fatal. -/
def ParseError.expected? : ParseError → Option (List String)
  | unexpectedToken _ _ _ _ _ expected | unexpectedEnd _ expected => some expected
  | ambiguousAlternatives .. | recursionLimit .. | foreignRule _ => none

theorem mem_expectedAt {log : List (Nat × String)} {index : Nat} {text : String} :
    text ∈ expectedAt log index ↔ (index, text) ∈ log := by
  rw [expectedAt, List.mem_eraseDups, List.mem_map]
  constructor
  · rintro ⟨⟨_, _⟩, hp, rfl⟩
    obtain ⟨hp, hindex⟩ := List.mem_filter.1 hp
    exact eq_of_beq hindex ▸ hp
  · exact fun h => ⟨_, List.mem_filter.2 ⟨h, beq_self_eq_true index⟩, rfl⟩

theorem exists_mem_furthestOf {log : List (Nat × String)} (h : log ≠ []) : ∃ text, (furthestOf log, text) ∈ log := by
  cases hmax : (log.map Prod.fst).max? with
  | none => exact absurd (List.map_eq_nil_iff.1 (List.max?_eq_none_iff.1 hmax)) h
  | some index =>
    obtain ⟨⟨_, text⟩, hp, rfl⟩ := List.mem_map.1 (List.max?_mem hmax)
    rw [furthestOf, hmax]
    exact ⟨text, hp⟩

namespace State

variable {i : Nat} {s t : State}

/-- **Something was expected in vain at the index or after it.** -/
def Explained (i : Nat) (s : State) : Prop :=
  ∃ p ∈ s.log, i ≤ p.1

def Reaches (i : Nat) (s : State) : Prop :=
  i ≤ s.index ∨ s.Explained i

/-- The furthest failure shows what a state explains. -/
theorem explained_iff : s.Explained i ↔ i ≤ s.furthest.index ∧ s.furthest.expected ≠ [] := by
  obtain ⟨hindex, hexpected⟩ : s.furthest.Tells s.log := s.journal.furthest_tells
  constructor
  · rintro ⟨p, hp, hi⟩
    obtain ⟨text, htext⟩ := exists_mem_furthestOf (List.ne_nil_of_mem hp)
    refine ⟨hindex ▸ Nat.le_trans hi (le_furthestOf hp), List.ne_nil_of_mem (a := text) ?_⟩
    rw [hexpected, mem_expectedAt, hindex]
    exact htext
  · rintro ⟨hi, hne⟩
    obtain ⟨text, htext⟩ := List.exists_mem_of_ne_nil _ hne
    rw [hexpected, mem_expectedAt] at htext
    exact ⟨_, htext, hi⟩

theorem failure_expected? (input : Input) (s : State) : (s.failure input).expected? = some s.furthest.expected := by
  unfold failure
  dsimp only
  split <;> rfl

theorem Explained.of_grows (h : s.Explained i) (hlog : s.log <+: t.log) : t.Explained i := by
  obtain ⟨p, hp, hi⟩ := h
  exact ⟨p, hlog.subset hp, hi⟩

theorem explained_enter (name : String) : (s.enter name).Explained i ↔ s.Explained i := by
  rw [Explained, log_enter, Explained]

theorem explained_leave (name : String) (matched : Bool) : (s.leave name matched).Explained i ↔ s.Explained i := by
  rw [Explained, log_leave, Explained]

/-- What is expected in vain explains the index where it was expected. -/
theorem Reaches.miss (h : s.Reaches i) (expected : Expectation) : (s.miss expected).Explained i := by
  unfold Explained
  rw [log_miss]
  rcases h with hi | ⟨p, hp, hi⟩
  · exact ⟨_, List.mem_append_right _ List.mem_cons_self, hi⟩
  · exact ⟨p, List.mem_append_left _ hp, hi⟩

end State

namespace Attempt

open State (Explained Reaches)

variable {α : Type} {i k : Nat} {s t : State} {a : Attempt α} {input : Input}

/-! ## Attempts that explain themselves -/

/-- What an attempt leaves that has got to an index: it reached it, or explains itself from there on. -/
def Arrived (i : Nat) : Answer α × State → Prop
  | (.matched _, t) => t.Reaches i
  | (.backtrack _, t) => t.Explained i
  | (.fatal _, _) => True

/-- **Whether an attempt takes nothing back and does the same again**: the log grows, and from where it matched once, it
matches as far once more. -/
structure Consistent (a : Attempt α) : Prop where
  grows : ∀ s, s.log <+: (a s).2.log
  repeats : ∀ {s u t v}, a s = (.matched v, t) → u.index = s.index → ∃ w, a u = (.matched v, w) ∧ w.index = t.index

/-- **Whether an attempt that is made at an index gets to it.** -/
structure Explains (i : Nat) (a : Attempt α) : Prop extends Consistent a where
  arrives : ∀ s, s.Reaches i → Arrived i (a s)

theorem atomic_arrived (h : Arrived i (a s)) : Arrived i (atomic a s) := by
  unfold atomic
  generalize a s = r at h ⊢
  rcases r with ⟨_ | _ | _, t⟩ <;> exact h

/-- What a trial leaves that has got to an index. -/
def Tried (i : Nat) : Trial × State → Prop
  | (.ok (some j), t) => i ≤ j ∨ t.Explained i
  | (.ok none, t) => t.Explained i
  | (.error _, _) => True

theorem trial_tried (h : Arrived i (a s)) : Tried i (trial a s) := by
  unfold trial
  generalize a s = r at h ⊢
  rcases r with ⟨_ | _ | _, t⟩ <;> exact h

theorem Consistent.trial_grows (h : Consistent a) (s : State) : s.log <+: (trial a s).2.log := by
  have hgrows := h.grows s
  unfold trial
  generalize a s = r at hgrows ⊢
  rcases r with ⟨_ | _ | _, t⟩ <;> exact hgrows

/-- An attempt that a trial found to reach an index reaches it from wherever it is made again. -/
theorem Consistent.arrived_again (h : Consistent a) {j : Nat} (ht : trial a s = (.ok (some j), t)) (hi : i ≤ j)
    {u : State} (hu : u.index = s.index) : Arrived i (a u) := by
  obtain ⟨v, ⟨value, hv⟩, -⟩ := exists_matches ht
  rw [trial_eq ⟨value, hv⟩] at ht
  obtain ⟨w, hw, hindex⟩ := h.repeats hv hu
  obtain rfl : v.index = j := Option.some.inj (Except.ok.inj (congrArg Prod.fst ht))
  rw [hw]
  exact .inl (hindex ▸ hi)

/-! ## One after the other, and one of several -/

theorem chain_arrived {a : Attempt Forest} {rest : List (Attempt Forest)}
    (hrest : ∀ t, t.Reaches i → Arrived i (chain rest t)) (h : Arrived i (a s)) : Arrived i (chain (a :: rest) s) := by
  unfold chain
  generalize a s = r at h ⊢
  rcases r with ⟨first | _ | _, t⟩
  · have hr := hrest t h
    simp only
    generalize chain rest t = r at hr ⊢
    rcases r with ⟨_ | _ | _, u⟩ <;> exact hr
  · exact h
  · exact h

theorem chain_arrives : ∀ {as : List (Attempt Forest)}, (∀ a ∈ as, Explains i a) → ∀ s, s.Reaches i →
    Arrived i (chain as s)
  | [], _, _, hs => hs
  | _ :: _, h, s, hs =>
    chain_arrived (chain_arrives fun b hb => h b (List.mem_cons_of_mem _ hb)) ((h _ List.mem_cons_self).arrives s hs)

theorem firstOf_explained : ∀ {as : List (Attempt α)}, (∀ a ∈ as, Explains i a) → ∀ {s}, s.Explained i →
    Arrived i (firstOf as s)
  | [], _, _, hs => hs
  | a :: rest, h, s, hs => by
    have ha := (h a List.mem_cons_self).arrives s (.inr hs)
    unfold firstOf
    generalize a s = r at ha ⊢
    rcases r with ⟨_ | _ | _, t⟩
    · exact ha
    · exact firstOf_explained (fun b hb => h b (List.mem_cons_of_mem _ hb)) ha
    · exact ha

theorem firstOf_arrived {rest : List (Attempt α)} (hrest : ∀ b ∈ rest, Explains i b) (h : Arrived i (a s)) :
    Arrived i (firstOf (a :: rest) s) := by
  unfold firstOf
  generalize a s = r at h ⊢
  rcases r with ⟨_ | _ | _, t⟩
  · exact h
  · exact firstOf_explained hrest h
  · exact h

theorem firstOf_arrives {as : List (Attempt α)} (hne : as ≠ []) (h : ∀ a ∈ as, Explains i a) (s : State)
    (hs : s.Reaches i) : Arrived i (firstOf as s) := by
  cases as with
  | nil => exact absurd rfl hne
  | cons a rest =>
    exact firstOf_arrived (fun b hb => h b (List.mem_cons_of_mem _ hb)) ((h a List.mem_cons_self).arrives s hs)

/-! ## Alternations that try everything first -/

/-- An attempt that was found to reach an index from index `k`, and reaches it again if that is as far as `i`. -/
structure Candidate (i k : Nat) (p : Attempt α × Nat) : Prop where
  explains : Explains i p.1
  again : i ≤ p.2 → ∀ u, u.index = k → Arrived i (p.1 u)

/-- Whether what has been found so far gets to an index. -/
def Promising (i : Nat) (best : Option (Attempt α × Nat)) (s : State) : Prop :=
  s.Explained i ∨ ∃ p ∈ best, i ≤ p.2

theorem better_candidate {best : Option (Attempt α × Nat)} (ha : Explains i a)
    (hbest : ∀ p ∈ best, Candidate i s.index p) {reached : Option Nat} (ht : trial a s = (.ok reached, t)) :
    ∀ p ∈ better best a reached, Candidate i s.index p := by
  have hnew : ∀ j, reached = some j → Candidate i s.index (a, j) := by
    rintro j rfl
    exact ⟨ha, fun hi u hu => ha.arrived_again ht hi hu⟩
  intro p hp
  unfold better at hp
  split at hp
  · exact hbest p hp
  · cases hp
    exact hnew _ rfl
  · split at hp
    · cases hp
      exact hnew _ rfl
    · cases hp
      exact hbest _ rfl

theorem better_promising {best : Option (Attempt α × Nat)} {reached : Option Nat} (h : Tried i (.ok reached, t)) :
    Promising i (better best a reached) t := by
  rcases reached with _ | j
  · exact .inl h
  · rcases h with hj | ht
    · rcases best with _ | ⟨b, far⟩
      · exact .inr ⟨_, rfl, hj⟩
      · unfold better
        by_cases hlt : far < j
        · exact .inr ⟨_, if_pos hlt, hj⟩
        · exact .inr ⟨_, if_neg hlt, Nat.le_trans hj (Nat.le_of_not_lt hlt)⟩
    · exact .inl ht

theorem better_keeps {best : Option (Attempt α × Nat)} (reached : Option Nat) (h : ∃ p ∈ best, i ≤ p.2) :
    ∃ p ∈ better best a reached, i ≤ p.2 := by
  obtain ⟨⟨b, far⟩, rfl, hi⟩ := h
  rcases reached with _ | j
  · exact ⟨_, rfl, hi⟩
  · unfold better
    by_cases hlt : far < j
    · exact ⟨_, if_pos hlt, Nat.le_trans hi (Nat.le_of_lt hlt)⟩
    · exact ⟨_, if_neg hlt, hi⟩

theorem longest_arrived : ∀ {as : List (Attempt α)}, (∀ a ∈ as, Explains i a) →
    ∀ {best : Option (Attempt α × Nat)} {s}, (∀ p ∈ best, Candidate i s.index p) → Promising i best s →
      Arrived i (make (longest as best s))
  | [], _, best, s, hbest, hs => by
    rcases best with _ | p
    · exact hs.resolve_right fun ⟨_, hp, _⟩ => nomatch hp
    · have hp := hbest p rfl
      rcases hs with hs | ⟨_, ⟨⟩, hi⟩
      · exact hp.explains.arrives s (.inr hs)
      · exact hp.again hi s rfl
  | a :: rest, h, best, s, hbest, hs => by
    have ha := h a List.mem_cons_self
    have hindex := trial_index a s
    have hgrows := ha.trial_grows s
    unfold longest
    rcases ht : trial a s with ⟨_ | reached, t⟩ <;> rw [ht] at hindex hgrows
    · trivial
    · have hbetter := better_candidate ha hbest ht
      rw [← hindex] at hbetter
      refine longest_arrived (fun b hb => h b (List.mem_cons_of_mem _ hb)) hbetter ?_
      rcases hs with hs | hfar
      · exact .inl (hs.of_grows hgrows)
      · exact .inr (better_keeps reached hfar)

/-- If a trial has got to the index, so does what is chosen. -/
theorem longest_tried {rest : List (Attempt α)} (ha : Explains i a) (hrest : ∀ b ∈ rest, Explains i b)
    {best : Option (Attempt α × Nat)} (hbest : ∀ p ∈ best, Candidate i s.index p) (h : Arrived i (a s)) :
    Arrived i (make (longest (a :: rest) best s)) := by
  have htried := trial_tried h
  have hindex := trial_index a s
  unfold longest
  rcases ht : trial a s with ⟨_ | reached, t⟩ <;> rw [ht] at hindex htried
  · trivial
  · have hbetter := better_candidate ha hbest ht
    rw [← hindex] at hbetter
    exact longest_arrived hrest hbetter (better_promising htried)

theorem longestOne_arrives {as : List (Attempt α)} (hne : as ≠ []) (h : ∀ a ∈ as, Explains i a) (s : State)
    (hs : s.Reaches i) : Arrived i (longestOne as s) := by
  cases as with
  | nil => exact absurd rfl hne
  | cons a rest =>
    have ha := h a List.mem_cons_self
    exact longest_tried ha (fun b hb => h b (List.mem_cons_of_mem _ hb)) (fun _ hp => nomatch hp) (ha.arrives s hs)

theorem only_arrived (tie : Nat → ParseError) : ∀ {as : List (Attempt α)}, (∀ a ∈ as, Explains i a) →
    ∀ {found : Option (Attempt α)} {s}, (∀ b ∈ found, Explains i b) →
      (s.Explained i ∨ ∃ b ∈ found, ∀ u, u.index = s.index → Arrived i (b u)) → Arrived i (make (only tie as found s))
  | [], _, found, s, hfound, hs => by
    rcases found with _ | b
    · exact hs.resolve_right fun ⟨_, hb, _⟩ => nomatch hb
    · rcases hs with hs | ⟨_, ⟨⟩, hb⟩
      · exact (hfound b rfl).arrives s (.inr hs)
      · exact hb s rfl
  | a :: rest, h, found, s, hfound, hs => by
    have ha := h a List.mem_cons_self
    have hindex := trial_index a s
    have hgrows := ha.trial_grows s
    have hrest := fun b hb => h b (List.mem_cons_of_mem _ hb)
    unfold only
    rcases ht : trial a s with ⟨_ | _ | j, t⟩ <;> rw [ht] at hindex hgrows
    · trivial
    · refine only_arrived tie hrest hfound ?_
      rw [hindex]
      exact hs.imp_left (·.of_grows hgrows)
    · cases found with
      | some _ => trivial
      | none =>
        have hexplained := hs.resolve_right fun ⟨_, hb, _⟩ => nomatch hb
        exact only_arrived tie hrest (fun b hb => by cases hb; exact ha) (.inl (hexplained.of_grows hgrows))

theorem only_tried (tie : Nat → ParseError) {rest : List (Attempt α)} (ha : Explains i a)
    (hrest : ∀ b ∈ rest, Explains i b) {found : Option (Attempt α)} (hfound : ∀ b ∈ found, Explains i b)
    (h : Arrived i (a s)) : Arrived i (make (only tie (a :: rest) found s)) := by
  have htried := trial_tried h
  have hindex := trial_index a s
  unfold only
  rcases ht : trial a s with ⟨_ | _ | j, t⟩ <;> rw [ht] at hindex htried
  · trivial
  · exact only_arrived tie hrest hfound (.inl htried)
  · cases found with
    | some _ => trivial
    | none =>
      refine only_arrived tie hrest (fun b hb => by cases hb; exact ha) ?_
      rcases htried with hj | htried
      · refine .inr ⟨a, rfl, fun u hu => ha.arrived_again ht hj (hu.trans hindex)⟩
      · exact .inl htried

theorem strictOr_arrives (tie : Nat → ParseError) {as : List (Attempt α)} (hne : as ≠ []) (h : ∀ a ∈ as, Explains i a)
    (s : State) (hs : s.Reaches i) : Arrived i (strictOr tie as s) := by
  cases as with
  | nil => exact absurd rfl hne
  | cons a rest =>
    have ha := h a List.mem_cons_self
    exact only_tried tie ha (fun b hb => h b (List.mem_cons_of_mem _ hb)) (fun _ hb => nomatch hb) (ha.arrives s hs)

/-! ## Options and repetitions -/

theorem optional_arrived {a : Attempt Forest} (h : Arrived i (a s)) : Arrived i (optional a s) := by
  unfold optional
  generalize a s = r at h ⊢
  rcases r with ⟨_ | _ | _, t⟩
  · exact h
  · exact .inr h
  · exact h

theorem repeated_arrived {a : Attempt Forest} {limit : Nat} (hrest : ∀ t, t.Reaches i → Arrived i (repeated a limit t))
    (h : Arrived i (a s)) : Arrived i (repeated a (limit + 1) s) := by
  unfold repeated
  generalize a s = r at h ⊢
  rcases r with ⟨first | _ | _, t⟩
  · have hr := hrest t h
    simp only
    split
    · exact h
    · generalize repeated a limit t = r at hr ⊢
      rcases r with ⟨_ | _ | _, u⟩ <;> exact hr
  · exact .inr h
  · exact h

theorem repeated_arrives {a : Attempt Forest} (ha : Explains i a) : ∀ (limit : Nat) (s : State), s.Reaches i →
    Arrived i (repeated a limit s)
  | 0, _, hs => hs
  | limit + 1, s, hs => repeated_arrived (repeated_arrives ha limit) (ha.arrives s hs)

theorem oneOrMore_arrived {a : Attempt Forest} (ha : Explains i a) (h : Arrived i (a s)) :
    Arrived i (oneOrMore input a s) := by
  refine atomic_arrived (chain_arrived (fun t ht => ?_) h)
  exact chain_arrived (fun _ hu => hu) (repeated_arrives ha _ t ht)

/-! ## Lookaheads, leaves and what is made of them -/

theorem next_arrives (ha : Explains i a) (s : State) (hs : s.Reaches i) : Arrived i (next a s) := by
  have htried := trial_tried (ha.arrives s hs)
  have hindex := trial_index a s
  have hgrows := ha.trial_grows s
  unfold next
  generalize trial a s = r at htried hindex hgrows ⊢
  rcases r with ⟨_ | _ | j, t⟩
  · trivial
  · exact htried
  · exact hs.imp (hindex ▸ ·) (·.of_grows hgrows)

theorem not_arrives (m : Matcher) (ha : Explains i a) (s : State) (hs : s.Reaches i) : Arrived i (not m a s) := by
  have hindex := trial_index a s
  have hgrows := ha.trial_grows s
  unfold not
  generalize trial a s = r at hindex hgrows ⊢
  have ht : r.2.Reaches i := hs.imp (hindex ▸ ·) (·.of_grows hgrows)
  rcases r with ⟨_ | _ | j, t⟩
  · trivial
  · exact ht
  · exact ht.miss _

theorem leaf_arrives (m : Matcher) (accepts : Token → Bool) (s : State) (hs : s.Reaches i) :
    Arrived i (leaf input m accepts s) := by
  unfold leaf
  split
  · split
    · exact hs.imp_left Nat.le_succ_of_le
    · exact hs.miss _
  · exact hs.miss _

theorem endOfInput_arrives (s : State) (hs : s.Reaches i) : Arrived i (endOfInput input s) := by
  unfold endOfInput
  split
  · exact hs
  · exact hs.miss _

theorem wrapped_arrived (name : String) {a : Attempt Forest} (h : Arrived i (a s)) : Arrived i (wrapped name a s) := by
  unfold wrapped
  generalize a s = r at h ⊢
  rcases r with ⟨_ | _ | _, t⟩ <;> exact h

theorem adjacent_arrives (m : Matcher) {a : Attempt Forest} (ha : Explains i a) (s : State) (hs : s.Reaches i) :
    Arrived i (adjacent input m a s) := by
  unfold adjacent
  split
  · split
    · exact wrapped_arrived _ (ha.arrives s hs)
    · exact hs.miss _
  · exact hs.miss _
  · exact hs.miss _

/-- What skipping leaves if the attempt that it stops for gets to an index. -/
def Skipped (i : Nat) (a : Attempt Forest) : Answer Unit × State → Prop
  | (.matched _, t) => Arrived i (a t)
  | (.backtrack _, t) => t.Explained i
  | (.fatal _, _) => True

theorem skipTo_arrived {a : Attempt Forest} (ha : Explains i a) : ∀ (left : Nat) {s : State}, Arrived i (a s) →
    Skipped i a (skipTo a left s)
  | left, s, h => by
    have htried := trial_tried h
    have hindex := trial_index a s
    unfold skipTo
    rcases ht : trial a s with ⟨_ | _ | j, t⟩ <;> rw [ht] at htried hindex
    · trivial
    · cases left with
      | zero => exact htried
      | succ left => exact skipTo_arrived ha left (ha.arrives _ (.inr htried))
    · rcases htried with hj | htried
      · exact ha.arrived_again ht hj hindex
      · exact ha.arrives t (.inr htried)

theorem till_arrived {a : Attempt Forest} (h : Skipped i a (skipTo a (input.size - s.index) s)) :
    Arrived i (till input a s) := by
  refine wrapped_arrived _ (atomic_arrived ?_)
  unfold chain skippedWords
  generalize skipTo a (input.size - s.index) s = r at h ⊢
  rcases r with ⟨_ | _ | _, t⟩
  · have hr : Arrived i (chain [a] t) := chain_arrived (fun _ hu => hu) h
    simp only
    generalize chain [a] t = r at hr ⊢
    rcases r with ⟨_ | _ | _, u⟩ <;> exact hr
  · exact h
  · exact h

theorem spliced_arrived {a : Attempt Node} (h : Arrived i (a s)) : Arrived i (spliced a s) := by
  unfold spliced
  generalize a s = r at h ⊢
  rcases r with ⟨_ | _ | _, t⟩ <;> exact h

theorem around_arrived (rule : Rule) {a : Attempt Forest} (h : Arrived i (a (s.enter rule.name))) :
    Arrived i (rule.around a s) := by
  unfold Rule.around
  generalize a (s.enter rule.name) = r at h ⊢
  rcases r with ⟨_ | _ | _, t⟩
  · exact h.imp_right (State.explained_leave _ _).2
  · exact (State.explained_leave _ _).2 h
  · exact h

end Attempt

/-! ## Matchers and rules -/

open Attempt (Consistent Explains Arrived Echo)

/-- The log grows, whatever is attempted. -/
theorem State.log_lasting (input : Input) (log : List (Nat × String)) :
    Comparison.Lasting input (fun s => log <+: s.log) where
  back _ ht := ht
  next hs _ := hs
  miss {s} hs expected := by
    rw [State.log_miss]
    exact hs.trans (List.prefix_append _ _)
  enter {s} hs name := by
    rw [State.log_enter]
    exact hs
  leave {s} hs name matched := by
    rw [State.log_leave]
    exact hs

namespace Grammar

variable {g : Grammar} {input : Input}

theorem attempt_consistent (g : Grammar) (input : Input) (room : Nat) (m : Matcher) :
    Consistent (m.attempt input (g.enter input room)) where
  grows s := by
    have hlasting := State.log_lasting input s.log
    exact Comparison.alike_kept (attempt_agree (Comparison.same_lawful hlasting.toStable rfl) (hlasting.rules g) room m
      s s ⟨rfl, List.prefix_rfl⟩)
  repeats {s u t v} h hu := by
    have hself : g.Interchange (fun _ _ => True) input g := fun key => by
      cases g.rule? key with
      | none => exact .none
      | some rule => exact .some ⟨rfl, rfl, .refl Attempt.blind_link _⟩
    have hm : Echo (fun _ _ => True) (m.attempt input (g.enter input room)) (m.attempt input (g.enter input room)) :=
      Matcher.attempt_echo Attempt.blind_link (hself.enter Attempt.blind_link room) m
    have hecho := hm s u ⟨hu.symm, trivial⟩
    rw [h] at hecho
    generalize m.attempt input (g.enter input room) u = r at hecho ⊢
    cases hecho with
    | matched hw => exact ⟨_, rfl, hw.index_eq.symm⟩

theorem forall_mem_attempts {P : Attempt Forest → Prop} {call : RuleKey → Attempt Node} {ms : List Matcher}
    (h : ∀ m ∈ ms, P (m.attempt input call)) : ∀ a ∈ Matcher.attempts input call ms, P a := by
  rw [Matcher.attempts_eq_map]
  exact List.forall_mem_map.2 h

theorem attempts_ne_nil {call : RuleKey → Attempt Node} {ms : List Matcher} (h : ms ≠ []) :
    Matcher.attempts input call ms ≠ [] := by
  rw [Matcher.attempts_eq_map]
  exact fun heq => h (List.map_eq_nil_iff.1 heq)

/-- **Whatever a matcher of the grammar attempts explains itself**, if all alternations offer something. -/
theorem attempt_explains (hg : g.Offers) (input : Input) (i : Nat) : ∀ (room : Nat) {m : Matcher}, m.Offers →
    Explains i (m.attempt input (g.enter input room))
  | room, m, hm => by
    refine ⟨attempt_consistent g input room m, ?_⟩
    induction m using Form.items_induction with
    | made m ih =>
    have hitems : ∀ c ∈ m.items, Explains i (Matcher.attempt input (g.enter input room) c) := fun c hc =>
      ⟨attempt_consistent g input room c, ih c hc (Form.forall_mem_item hm hc)⟩
    have hself : m.isVain = false := hm m (Form.mem_subforms_self m)
    cases m with
    | sequence items =>
      exact fun s hs => Attempt.atomic_arrived (Attempt.chain_arrives (forall_mem_attempts hitems) s hs)
    | firstOf alternatives =>
      refine Attempt.firstOf_arrives (attempts_ne_nil ?_) (forall_mem_attempts hitems)
      rintro rfl
      cases hself
    | longestOne alternatives =>
      refine Attempt.longestOne_arrives (attempts_ne_nil ?_) (forall_mem_attempts hitems)
      rintro rfl
      cases hself
    | strictOr alternatives =>
      refine Attempt.strictOr_arrives _ (attempts_ne_nil ?_) (forall_mem_attempts hitems)
      rintro rfl
      cases hself
    | optional item =>
      exact fun s hs => Attempt.optional_arrived ((hitems item List.mem_cons_self).arrives s hs)
    | zeroOrMore item =>
      exact fun s hs => Attempt.atomic_arrived (Attempt.repeated_arrives (hitems item List.mem_cons_self) _ s hs)
    | oneOrMore item =>
      have hitem := hitems item List.mem_cons_self
      exact fun s hs => Attempt.oneOrMore_arrived hitem (hitem.arrives s hs)
    | next item => exact Attempt.next_arrives (hitems item List.mem_cons_self)
    | not item => exact Attempt.not_arrives item (hitems item List.mem_cons_self)
    | adjacent item => exact Attempt.adjacent_arrives item (hitems item List.mem_cons_self)
    | till terminator =>
      have hitem := hitems terminator List.mem_cons_self
      exact fun s hs => Attempt.till_arrived (Attempt.skipTo_arrived hitem _ (hitem.arrives s hs))
    | literal value => exact Attempt.leaf_arrives _ _
    | regex pattern => exact Attempt.leaf_arrives _ _
    | tokenType name => exact Attempt.leaf_arrives _ _
    | anyToken => exact Attempt.leaf_arrives _ _
    | endOfInput => exact Attempt.endOfInput_arrives
    | rule key =>
      intro s hs
      refine Attempt.spliced_arrived ?_
      cases hr : g.rule? key with
      | none =>
        rw [enter_foreign hr]
        trivial
      | some rule =>
        cases room with
        | zero =>
          rw [enter_zero hr]
          trivial
        | succ room =>
          rw [enter_succ hr]
          have hentered : (s.enter rule.name).Reaches i := hs.imp_right (State.explained_enter _).2
          exact Attempt.around_arrived rule ((attempt_explains hg input i room (hg.rule hr)).arrives _ hentered)

theorem Raises.expected?_eq_none {m : Matcher} {s : State} {e : ParseError} (h : g.Raises input m s e) :
    e.expected? = none := by
  cases h <;> rfl

/-- A parse fails at the end of a match, or because its rule does not match, or for good. -/
theorem parseRule_error_cases {key : RuleKey} {config : ParserConfig} {tokens : List Token} {e : ParseError}
    (h : g.parseRule key config tokens = .error e) :
    let input : Input := { tokens := tokens.toArray, config }
    (∃ ns t, g.attemptAt input (.rule key) {} = (.matched ns, t) ∧ e = (t.miss (.matching .endOfInput)).failure input) ∨
    (∃ why t, g.attemptAt input (.rule key) {} = (.backtrack why, t) ∧ e = t.failure input) ∨
    ∃ t, g.attemptAt input (.rule key) {} = (.fatal e, t) := by
  unfold parseRule run at h
  dsimp only at h ⊢
  simp only [attemptAt, Matcher.attempt, Attempt.spliced]
  split at h
  · rename_i node t hmatch
    split at h
    · cases h
    · rw [hmatch]
      exact .inl ⟨_, t, rfl, (Except.error.inj h).symm⟩
  · rename_i why t hmatch
    rw [hmatch]
    exact .inr (.inl ⟨why, t, rfl, (Except.error.inj h).symm⟩)
  · rename_i error t hmatch
    rw [hmatch, ← Except.error.inj h]
    exact .inr (.inr ⟨t, rfl⟩)

/-- **The error of a parse whose rule gets to an index** is fatal, or the failure of a state that explains itself from
there on. -/
theorem parseRule_arrived {key : RuleKey} {config : ParserConfig} {tokens : List Token} {e : ParseError} {i : Nat}
    (h : g.parseRule key config tokens = .error e)
    (harrived : Arrived i (g.attemptAt { tokens := tokens.toArray, config } (.rule key) {})) :
    e.expected? = none ∨ ∃ s : State, s.Explained i ∧ e = s.failure { tokens := tokens.toArray, config } := by
  rcases parseRule_error_cases h with ⟨ns, t, hmatch, he⟩ | ⟨why, t, hmatch, he⟩ | ⟨t, hmatch⟩
  · rw [hmatch] at harrived
    exact .inr ⟨_, State.Reaches.miss harrived _, he⟩
  · rw [hmatch] at harrived
    exact .inr ⟨t, harrived, he⟩
  · obtain ⟨m, u, -, hraises⟩ := exists_raises (Attempt.fails_iff.2 ⟨t, hmatch, rfl⟩)
    exact .inl hraises.expected?_eq_none

theorem attemptAt_arrives (hg : g.Offers) (input : Input) {m : Matcher} (hm : m.Offers) {i : Nat} {s : State}
    (hs : s.Reaches i) : Arrived i (g.attemptAt input m s) := by
  rw [attemptAt_eq]
  exact (attempt_explains hg input i _ hm).arrives s hs

theorem offers_rule (key : RuleKey) : (Form.rule key : Matcher).Offers :=
  List.forall_mem_singleton.2 rfl

/-- **No mismatch goes unexplained.**  If every alternation of a grammar has an alternative, and so has every
alternation of a matcher, then whenever an attempt of the matcher backtracks, the furthest failure is where it was made
or further, and something was expected there.  So the error of a failed parse expects something unless it is fatal, also
if its rule has matched some of the tokens only. -/
theorem attemptAt_explained (hg : g.Offers) :
    (∀ (input : Input) (m : Matcher), m.Offers → ∀ (s t : State) (why : Backtrack),
      g.attemptAt input m s = (.backtrack why, t) → s.index ≤ t.furthest.index ∧ t.furthest.expected ≠ []) ∧
    ∀ (key : RuleKey) (config : ParserConfig) (tokens : List Token) (e : ParseError),
      g.parseRule key config tokens = .error e → ∀ expected, e.expected? = some expected → expected ≠ [] := by
  constructor
  · intro input m hm s t why h
    have harrived := attemptAt_arrives hg input hm (.inl (Nat.le_refl s.index))
    rw [h] at harrived
    exact State.explained_iff.1 harrived
  · intro key config tokens e h expected he
    have hstart : State.Reaches 0 {} := .inl (Nat.zero_le _)
    rcases parseRule_arrived h (attemptAt_arrives hg _ (offers_rule key) hstart) with hnone | ⟨s, hs, rfl⟩
    · rw [hnone] at he
      cases he
    · rw [State.failure_expected?] at he
      exact Option.some.inj he ▸ (State.explained_iff.1 hs).2

/-- A list of pairs is matched up to a pair that breaks off.  The alternation that fails for it says what was expected,
the list, which matches without it, that the input should have ended there. -/
theorem attemptAt_explained_pairs : ∃ (g : Grammar) (tokens : List Token) (t : State) (error : ParseError)
    (expected : List String), g.Offers ∧
      (∃ why, g.attemptAt { tokens := tokens.toArray } (.rule 1) { index := 2 } = (.backtrack why, t)) ∧
      2 ≤ t.furthest.index ∧ t.furthest.expected ≠ [] ∧ g.parseRule 0 {} tokens = .error error ∧
      error.expected? = some expected ∧ "end of input" ∈ expected ∧ expected ≠ [] := by
  let letter : String → Token := fun value => ⟨value, TokenType.identifier, 1, 0, ⟨0, 1⟩⟩
  let tokens := [letter "a", letter "x", letter "b"]
  let first : Matcher := .firstOf [.literal "a", .next (.literal "b")]
  let pair : Matcher := .sequence [first, .longestOne [.literal "x", .literal "y"]]
  let g : Grammar := ⟨#[⟨"list", .zeroOrMore (.rule 1), .never⟩, ⟨"pair", pair, .never⟩], 0⟩
  have hg : g.Offers := by decide
  obtain ⟨explained, parses⟩ := attemptAt_explained hg
  have hpair := explained { tokens := tokens.toArray } (.rule 1) (by decide) { index := 2 } _ .mismatch rfl
  have hparse := parses 0 {} tokens _ rfl _ rfl
  exact ⟨g, tokens, _, _, _, hg, ⟨.mismatch, rfl⟩, hpair.1, hpair.2, rfl, rfl, by decide +kernel, hparse⟩

end Grammar
end LayeredParse
