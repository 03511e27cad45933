import LayeredParse.Proofs.Parse.Linked
/-!
# Echo — attempts that do the same, whatever they say is expected

Two attempts echo each other if, from states at the same index, they match the same and go on at the same index, or both
backtrack, or fail for good with the same error, up to the texts of matchers that the error quotes (`Attempt.Echo`).  What
they wrote down need not be the same, but has to be linked by a relation that goes along with recording, whatever is said
to be expected (`Journal.Link`).  Unlike agreeing attempts, attempts that echo each other may backtrack for different
reasons and name different matchers, so that each combinator respects echoes with a matcher of its own on either side.
-/
namespace LayeredParse

/-- The error without the texts of matchers that it quotes. -/
def ParseError.unworded : ParseError → ParseError
  | unexpectedToken index found line column offset _ => unexpectedToken index found line column offset []
  | unexpectedEnd index _ => unexpectedEnd index []
  | ambiguousAlternatives index _ => ambiguousAlternatives index ""
  | recursionLimit rule limit => recursionLimit rule limit
  | foreignRule key => foreignRule key

/-- **An equivalence of journals that goes along with recording**, whatever is said to be expected. -/
structure Journal.Link (J : Journal → Journal → Prop) : Prop extends Equivalence J where
  record : ∀ {j j'}, J j j' → ∀ e, J (j.record e) (j'.record e)
  missed : ∀ {j j'}, J j j' → ∀ index expected expected',
    J (j.record (.missed index expected)) (j'.record (.missed index expected'))

variable {J : Journal → Journal → Prop} {input : Input}

/-- States at the same index, with linked journals. -/
structure State.Echoes (J : Journal → Journal → Prop) (s s' : State) : Prop where
  index_eq : s.index = s'.index
  journal : J s.journal s'.journal

namespace State.Echoes

variable {s s' t t' u : State}

theorem refl (hJ : Journal.Link J) (s : State) : s.Echoes J s :=
  ⟨rfl, hJ.refl _⟩

theorem symm (hJ : Journal.Link J) (h : s.Echoes J s') : s'.Echoes J s :=
  ⟨h.index_eq.symm, hJ.symm h.journal⟩

theorem trans (hJ : Journal.Link J) (h : s.Echoes J t) (h' : t.Echoes J u) : s.Echoes J u :=
  ⟨h.index_eq.trans h'.index_eq, hJ.trans h.journal h'.journal⟩

theorem goTo (h : s.Echoes J s') (index : Nat) : (s.goTo index).Echoes J (s'.goTo index) :=
  ⟨rfl, h.journal⟩

theorem back (h : s.Echoes J s') (h' : t.Echoes J t') : (t.goTo s.index).Echoes J (t'.goTo s'.index) :=
  h.index_eq ▸ h'.goTo s.index

theorem miss (hJ : Journal.Link J) (h : s.Echoes J s') (expected expected' : Expectation) :
    (s.miss expected).Echoes J (s'.miss expected') := by
  obtain ⟨hindex, hjournal⟩ := h
  refine ⟨hindex, ?_⟩
  unfold State.miss
  rw [← hindex]
  exact hJ.missed hjournal s.index expected expected'

theorem enter (hJ : Journal.Link J) (h : s.Echoes J s') (name : String) : (s.enter name).Echoes J (s'.enter name) := by
  obtain ⟨hindex, hjournal⟩ := h
  refine ⟨hindex, ?_⟩
  unfold State.enter
  rw [← hindex]
  exact hJ.record hjournal _

theorem leave (hJ : Journal.Link J) (h : s.Echoes J s') (name : String) (matched : Bool) :
    (s.leave name matched).Echoes J (s'.leave name matched) := by
  obtain ⟨hindex, hjournal⟩ := h
  refine ⟨hindex, ?_⟩
  unfold State.leave
  rw [← hindex]
  exact hJ.record hjournal _

theorem previous_eq (h : s.Echoes J s') : s.previous input = s'.previous input := by
  unfold State.previous
  rw [h.index_eq]

end State.Echoes

namespace Attempt

open State (Echoes)

variable {α β : Type} {s s' : State}

/-- Nothing need be seen of what happened. -/
theorem blind_link : Journal.Link (fun _ _ => True) where
  refl _ := trivial
  symm _ := trivial
  trans _ _ := trivial
  record _ _ := trivial
  missed _ _ _ _ := trivial

/-- Outcomes that are the same but for the reason to backtrack, the texts in an error, and the journal. -/
inductive Echoed (J : Journal → Journal → Prop) : Answer α × State → Answer α × State → Prop
  | matched {v : α} {t t' : State} (h : t.Echoes J t') : Echoed J (.matched v, t) (.matched v, t')
  | backtrack {why why' : Backtrack} {t t' : State} (h : t.Echoes J t') : Echoed J (.backtrack why, t) (.backtrack why', t')
  | fatal {e e' : ParseError} {t t' : State} (he : e.unworded = e'.unworded) (h : t.Echoes J t') :
      Echoed J (.fatal e, t) (.fatal e', t')

/-- **The same outcome from states at the same index**, but for what is said to be expected. -/
def Echo (J : Journal → Journal → Prop) (a b : Attempt α) : Prop :=
  ∀ s s', s.Echoes J s' → Echoed J (a s) (b s')

/-- What is looked for is found on both sides and related, or neither side gets to find anything. -/
inductive EchoedFind (J : Journal → Journal → Prop) (R : β → β → Prop) :
    Except ParseError β × State → Except ParseError β × State → Prop
  | found {x y : β} {t t' : State} (hxy : R x y) (h : t.Echoes J t') : EchoedFind J R (.ok x, t) (.ok y, t')
  | error {e e' : ParseError} {t t' : State} (he : e.unworded = e'.unworded) (h : t.Echoes J t') :
      EchoedFind J R (.error e, t) (.error e', t')

theorem Echoed.symm (hJ : Journal.Link J) {r r' : Answer α × State} (h : Echoed J r r') : Echoed J r' r := by
  cases h with
  | matched h => exact .matched (h.symm hJ)
  | backtrack h => exact .backtrack (h.symm hJ)
  | fatal he h => exact .fatal he.symm (h.symm hJ)

theorem Echoed.trans (hJ : Journal.Link J) {r r' r'' : Answer α × State} (h : Echoed J r r') (h' : Echoed J r' r'') :
    Echoed J r r'' := by
  cases h with
  | matched h =>
    obtain ⟨h'⟩ := h'
    exact .matched (h.trans hJ h')
  | backtrack h =>
    obtain ⟨⟩ | ⟨h'⟩ := h'
    exact .backtrack (h.trans hJ h')
  | fatal he h =>
    obtain ⟨⟩ | ⟨⟩ | ⟨he', h'⟩ := h'
    exact .fatal (he.trans he') (h.trans hJ h')

theorem Echo.symm (hJ : Journal.Link J) {a b : Attempt α} (h : Echo J a b) : Echo J b a :=
  fun s s' hs => (h s' s (hs.symm hJ)).symm hJ

theorem Echo.trans (hJ : Journal.Link J) {a b c : Attempt α} (h : Echo J a b) (h' : Echo J b c) : Echo J a c :=
  fun s s' hs => (h s s' hs).trans hJ (h' s' s' (.refl hJ s'))

theorem atomic_echo {a b : Attempt α} (h : Echo J a b) : Echo J (atomic a) (atomic b) := by
  intro s s' hs
  have ha := h s s' hs
  unfold atomic
  generalize a s = r at ha ⊢
  generalize b s' = r' at ha ⊢
  cases ha with
  | matched ht => exact .matched ht
  | backtrack ht => exact .backtrack (hs.back ht)
  | fatal he ht => exact .fatal he (hs.back ht)

theorem trial_echoed {a b : Attempt α} (h : Echo J a b) (hs : s.Echoes J s') :
    EchoedFind J Eq (trial a s) (trial b s') := by
  have ha := h s s' hs
  unfold trial
  generalize a s = r at ha ⊢
  generalize b s' = r' at ha ⊢
  cases ha with
  | matched ht => exact .found (congrArg some ht.index_eq) (hs.back ht)
  | backtrack ht => exact .found rfl (hs.back ht)
  | fatal he ht => exact .error he (hs.back ht)

theorem chain_echo {as bs : List (Attempt Forest)} (h : List.Forall₂ (Echo J) as bs) : Echo J (chain as) (chain bs) := by
  induction h with
  | nil => exact fun _ _ hs => .matched hs
  | @cons a b as bs hab _ ih =>
    intro s s' hs
    have ha := hab s s' hs
    unfold chain
    generalize a s = r at ha ⊢
    generalize b s' = r' at ha ⊢
    cases ha with
    | @matched first t t' ht =>
      have hr := ih t t' ht
      simp only
      generalize chain as t = r at hr ⊢
      generalize chain bs t' = r' at hr ⊢
      cases hr with
      | matched hu => exact .matched hu
      | backtrack hu => exact .backtrack hu
      | fatal he hu => exact .fatal he hu
    | backtrack ht => exact .backtrack ht
    | fatal he ht => exact .fatal he ht

theorem sequence_echo {as bs : List (Attempt Forest)} (h : List.Forall₂ (Echo J) as bs) :
    Echo J (sequence as) (sequence bs) :=
  atomic_echo (chain_echo h)

theorem firstOf_echo {as bs : List (Attempt α)} (h : List.Forall₂ (Echo J) as bs) : Echo J (firstOf as) (firstOf bs) := by
  induction h with
  | nil => exact fun _ _ hs => .backtrack hs
  | @cons a b as bs hab _ ih =>
    intro s s' hs
    have ha := hab s s' hs
    unfold firstOf
    generalize a s = r at ha ⊢
    generalize b s' = r' at ha ⊢
    cases ha with
    | matched ht => exact .matched ht
    | backtrack ht => exact ih _ _ ht
    | fatal he ht => exact .fatal he ht

/-! ## Alternations that try everything first -/

/-- Best attempts so far that echo each other and reach the same index. -/
abbrev EchoedBest (J : Journal → Journal → Prop) : Option (Attempt α × Nat) → Option (Attempt α × Nat) → Prop :=
  Option.Rel fun p q => Echo J p.1 q.1 ∧ p.2 = q.2

theorem better_echoed {best best' : Option (Attempt α × Nat)} (h : EchoedBest J best best') {a b : Attempt α}
    (hab : Echo J a b) : ∀ reached : Option Nat, EchoedBest J (better best a reached) (better best' b reached)
  | none => h
  | some there => by
    cases h with
    | none => exact .some ⟨hab, rfl⟩
    | @some p q hpq =>
      obtain ⟨p, far⟩ := p
      obtain ⟨q, _⟩ := q
      obtain ⟨hp, rfl⟩ : Echo J p q ∧ far = _ := hpq
      unfold better
      by_cases hfarther : far < there
      · simp only [if_pos hfarther]
        exact .some ⟨hab, rfl⟩
      · simp only [if_neg hfarther]
        exact .some ⟨hp, rfl⟩

theorem longest_echoed {as bs : List (Attempt α)} (h : List.Forall₂ (Echo J) as bs) :
    ∀ {best best' : Option (Attempt α × Nat)}, EchoedBest J best best' → ∀ {s s' : State}, s.Echoes J s' →
      EchoedFind J (Option.Rel (Echo J)) (longest as best s) (longest bs best' s') := by
  induction h with
  | nil =>
    intro best best' hbest s s' hs
    cases hbest with
    | none => exact .found .none hs
    | some hpq => exact .found (.some hpq.1) hs
  | @cons a b as bs hab _ ih =>
    intro best best' hbest s s' hs
    have ht := trial_echoed hab hs
    unfold longest
    generalize trial a s = r at ht ⊢
    generalize trial b s' = r' at ht ⊢
    cases ht with
    | @found reached _ t t' heq ht =>
      subst heq
      exact ih (better_echoed hbest hab reached) ht
    | error he ht => exact .error he ht

theorem only_echoed (text text' : String) {as bs : List (Attempt α)} (h : List.Forall₂ (Echo J) as bs) :
    ∀ {found found' : Option (Attempt α)}, Option.Rel (Echo J) found found' → ∀ {s s' : State}, s.Echoes J s' →
      EchoedFind J (Option.Rel (Echo J)) (only (.ambiguousAlternatives · text) as found s)
        (only (.ambiguousAlternatives · text') bs found' s') := by
  induction h with
  | nil => exact fun hfound _ _ hs => .found hfound hs
  | @cons a b as bs hab _ ih =>
    intro found found' hfound s s' hs
    have ht := trial_echoed hab hs
    unfold only
    generalize trial a s = r at ht ⊢
    generalize trial b s' = r' at ht ⊢
    cases ht with
    | @found reached _ t t' heq ht =>
      subst heq
      rcases reached with _ | there
      · exact ih hfound ht
      · cases hfound with
        | none => exact ih (.some hab) ht
        | some _ =>
          have htie : (ParseError.ambiguousAlternatives t.index text).unworded =
              (ParseError.ambiguousAlternatives t'.index text').unworded := by
            rw [ht.index_eq]
            rfl
          exact .error htie ht
    | error he ht => exact .error he ht

theorem make_echoed {r r' : Except ParseError (Option (Attempt α)) × State}
    (h : EchoedFind J (Option.Rel (Echo J)) r r') : Echoed J (make r) (make r') := by
  cases h with
  | found hchosen h =>
    cases hchosen with
    | none => exact .backtrack h
    | some hab => exact hab _ _ h
  | error he h => exact .fatal he h

theorem longestOne_echo {as bs : List (Attempt α)} (h : List.Forall₂ (Echo J) as bs) :
    Echo J (longestOne as) (longestOne bs) :=
  fun _ _ hs => make_echoed (longest_echoed h .none hs)

theorem strictOr_echo (text text' : String) {as bs : List (Attempt α)} (h : List.Forall₂ (Echo J) as bs) :
    Echo J (strictOr (.ambiguousAlternatives · text) as) (strictOr (.ambiguousAlternatives · text') bs) :=
  fun _ _ hs => make_echoed (only_echoed text text' h .none hs)

/-! ## Options, repetitions and lookaheads -/

theorem optional_echo {a b : Attempt Forest} (h : Echo J a b) : Echo J (optional a) (optional b) := by
  intro s s' hs
  have ha := h s s' hs
  unfold optional
  generalize a s = r at ha ⊢
  generalize b s' = r' at ha ⊢
  cases ha with
  | matched ht => exact .matched ht
  | backtrack ht => exact .matched ht
  | fatal he ht => exact .fatal he ht

theorem repeated_echo {a b : Attempt Forest} (hab : Echo J a b) : ∀ (limit : Nat), Echo J (repeated a limit) (repeated b limit)
  | 0, _, _, hs => .matched hs
  | limit + 1, s, s', hs => by
    have ha := hab s s' hs
    unfold repeated
    generalize a s = r at ha ⊢
    generalize b s' = r' at ha ⊢
    cases ha with
    | @matched first t t' ht =>
      simp only [← hs.index_eq, ← ht.index_eq]
      by_cases hstop : t.index = s.index
      · rw [if_pos hstop, if_pos hstop]
        exact .matched ht
      · rw [if_neg hstop, if_neg hstop]
        have hr := repeated_echo hab limit t t' ht
        generalize repeated a limit t = r at hr ⊢
        generalize repeated b limit t' = r' at hr ⊢
        cases hr with
        | matched hu => exact .matched hu
        | backtrack hu => exact .backtrack hu
        | fatal he hu => exact .fatal he hu
    | backtrack ht => exact .matched ht
    | fatal he ht => exact .fatal he ht

theorem repeatedFrom_echo {a b : Attempt Forest} (h : Echo J a b) :
    Echo J (repeatedFrom input a) (repeatedFrom input b) := by
  intro s s' hs
  unfold repeatedFrom
  rw [hs.index_eq]
  exact repeated_echo h _ s s' hs

theorem zeroOrMore_echo {a b : Attempt Forest} (h : Echo J a b) : Echo J (zeroOrMore input a) (zeroOrMore input b) :=
  atomic_echo (repeatedFrom_echo h)

theorem oneOrMore_echo {a b : Attempt Forest} (h : Echo J a b) : Echo J (oneOrMore input a) (oneOrMore input b) :=
  sequence_echo (.cons h (.cons (repeatedFrom_echo h) .nil))

theorem next_echo {a b : Attempt α} (h : Echo J a b) : Echo J (next a) (next b) := by
  intro s s' hs
  have ht := trial_echoed h hs
  unfold next
  generalize trial a s = r at ht ⊢
  generalize trial b s' = r' at ht ⊢
  cases ht with
  | @found reached _ t t' heq ht =>
    subst heq
    rcases reached with _ | there
    · exact .backtrack ht
    · exact .matched ht
  | error he ht => exact .fatal he ht

theorem not_echo (hJ : Journal.Link J) (m m' : Matcher) {a b : Attempt α} (h : Echo J a b) :
    Echo J (not m a) (not m' b) := by
  intro s s' hs
  have ht := trial_echoed h hs
  unfold not
  generalize trial a s = r at ht ⊢
  generalize trial b s' = r' at ht ⊢
  cases ht with
  | @found reached _ t t' heq ht =>
    subst heq
    rcases reached with _ | there
    · exact .matched ht
    · exact .backtrack (ht.miss hJ _ _)
  | error he ht => exact .fatal he ht

/-! ## Leaves and nodes of their own -/

theorem leaf_echo (hJ : Journal.Link J) (m : Matcher) (accepts : Token → Bool) :
    Echo J (leaf input m accepts) (leaf input m accepts) := by
  intro s s' hs
  unfold leaf
  rw [← hs.index_eq]
  split
  · by_cases haccepts : accepts ‹_› = true
    · rw [if_pos haccepts, if_pos haccepts]
      exact .matched (hs.goTo _)
    · rw [if_neg haccepts, if_neg haccepts]
      exact .backtrack (hs.miss hJ _ _)
  · exact .backtrack (hs.miss hJ _ _)

theorem endOfInput_echo (hJ : Journal.Link J) : Echo J (endOfInput input) (endOfInput input) := by
  intro s s' hs
  unfold endOfInput State.atEnd
  rw [← hs.index_eq]
  split
  · exact .matched hs
  · exact .backtrack (hs.miss hJ _ _)

theorem wrapped_echo (name : String) {a b : Attempt Forest} (h : Echo J a b) : Echo J (wrapped name a) (wrapped name b) := by
  intro s s' hs
  have ha := h s s' hs
  unfold wrapped
  generalize a s = r at ha ⊢
  generalize b s' = r' at ha ⊢
  cases ha with
  | matched ht =>
    simp only [hs.index_eq, ht.index_eq]
    exact .matched ht
  | backtrack ht => exact .backtrack ht
  | fatal he ht => exact .fatal he ht

theorem adjacent_echo (hJ : Journal.Link J) (m m' : Matcher) {a b : Attempt Forest} (h : Echo J a b) :
    Echo J (adjacent input m a) (adjacent input m' b) := by
  intro s s' hs
  unfold adjacent
  rw [← hs.previous_eq, ← hs.index_eq]
  split
  · rename_i before after _ _
    by_cases htouch : touches before after = true
    · rw [if_pos htouch, if_pos htouch]
      exact wrapped_echo "adjacent" h s s' hs
    · rw [if_neg htouch, if_neg htouch]
      exact .backtrack (hs.miss hJ _ _)
  · exact .backtrack (hs.miss hJ _ _)
  · exact .backtrack (hs.miss hJ _ _)

theorem skipTo_echo {a b : Attempt Forest} (h : Echo J a b) : ∀ (left : Nat), Echo J (skipTo a left) (skipTo b left)
  | left, s, s', hs => by
    have ht := trial_echoed h hs
    unfold skipTo
    generalize trial a s = r at ht ⊢
    generalize trial b s' = r' at ht ⊢
    cases ht with
    | @found reached _ t t' heq ht =>
      subst heq
      rcases reached with _ | there
      · cases left with
        | zero => exact .backtrack ht
        | succ left =>
          simp only [← ht.index_eq]
          exact skipTo_echo h left _ _ (ht.goTo (t.index + 1))
      · exact .matched ht
    | error he ht => exact .fatal he ht

theorem skippedWords_echo {a b : Attempt Forest} (h : Echo J a b) :
    Echo J (skippedWords input a) (skippedWords input b) := by
  intro s s' hs
  have ht := skipTo_echo h (input.size - s.index) s s' hs
  unfold skippedWords
  rw [← hs.index_eq]
  generalize skipTo a (input.size - s.index) s = r at ht ⊢
  generalize skipTo b (input.size - s.index) s' = r' at ht ⊢
  cases ht with
  | matched ht =>
    simp only [ht.index_eq]
    exact .matched ht
  | backtrack ht => exact .backtrack ht
  | fatal he ht => exact .fatal he ht

theorem till_echo {a b : Attempt Forest} (h : Echo J a b) : Echo J (till input a) (till input b) :=
  wrapped_echo "till" (sequence_echo (.cons (skippedWords_echo h) (.cons h .nil)))

theorem spliced_echo {a b : Attempt Node} (h : Echo J a b) : Echo J (spliced a) (spliced b) := by
  intro s s' hs
  have ha := h s s' hs
  unfold spliced
  generalize a s = r at ha ⊢
  generalize b s' = r' at ha ⊢
  cases ha with
  | matched ht => exact .matched ht
  | backtrack ht => exact .backtrack ht
  | fatal he ht => exact .fatal he ht

/-- **Rules of one name and policy echo each other** if what they attempt does. -/
theorem around_echo (hJ : Journal.Link J) {rule rule' : Rule} (hname : rule.name = rule'.name)
    (hpolicy : rule.policy = rule'.policy) {a b : Attempt Forest} (h : Echo J a b) :
    Echo J (rule.around a) (rule'.around b) := by
  intro s s' hs
  have ha := h _ _ (hs.enter hJ rule.name)
  unfold Rule.around Rule.node
  rw [← hname, ← hpolicy]
  generalize a (s.enter rule.name) = r at ha ⊢
  generalize b (s'.enter rule.name) = r' at ha ⊢
  cases ha with
  | matched ht =>
    simp only [hs.index_eq, ht.index_eq]
    exact .matched (ht.leave hJ rule.name true)
  | backtrack ht => exact .backtrack (ht.leave hJ rule.name false)
  | fatal he ht => exact .fatal he (ht.leave hJ rule.name false)

/-- **All combinators respect echoes.** -/
theorem echo_linked (hJ : Journal.Link J) : Linked input input (Echo J) where
  sequence _ _ h := sequence_echo h
  firstOf _ _ h := firstOf_echo h
  longestOne _ _ h := longestOne_echo h
  strictOr text _ _ h := strictOr_echo text text h
  optional _ _ h := optional_echo h
  zeroOrMore _ _ h := zeroOrMore_echo h
  oneOrMore _ _ h := oneOrMore_echo h
  next _ _ h := next_echo h
  not m _ _ h := not_echo hJ m m h
  till _ _ h := till_echo h
  leaf m accepts _ := leaf_echo hJ m accepts
  endOfInput := endOfInput_echo hJ
  adjacent m _ _ h := adjacent_echo hJ m m h

end Attempt
end LayeredParse
