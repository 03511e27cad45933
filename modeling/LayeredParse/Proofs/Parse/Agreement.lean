import LayeredParse.Proofs.Parse.Linked
/-!
# Agreement — attempts of two parses that do the same

Two parses are compared by what corresponds in them: indices, states, nodes, forests and errors (`Comparison`).  Attempts
agree if from corresponding states they have corresponding outcomes, unless the first one fails with an error that is set
aside (`Attempt.Agree`).  If a comparison goes along with all that attempts do to a state (`Comparison.Lockstep`) and with
what they see there (`Comparison.Lawful`), all combinators respect agreement (`agree_linked`), so that matchers agree as
soon as the rules they enter do.  The rules may be those of two grammars with the same matchers (`Comparison.Rules`,
`Grammar.enter_agree`).

The simplest comparison is that of a parse with itself, or with one of the same tokens, on the states of a set
(`Comparison.same`).  So what a set of states says of all states of a parse is checked on what happens to them one by one
(`Comparison.Lasting`, `Grammar.matchRule_keeps`).
-/
namespace LayeredParse

/-- The nodes that matchers put around what they match by themselves. -/
inductive Wrapper where
  | adjacent
  | till
  deriving DecidableEq, Repr

def Wrapper.name : Wrapper → String
  | adjacent => "adjacent"
  | till => "till"

/-- **What two parses are compared by.**  The index `i` of the first corresponds to the index `i'` of the second if
`i + there = i' + here`. -/
structure Comparison where
  here : Nat
  there : Nat
  states : State → State → Prop
  nodes : Node → Node → Prop
  forests : List Node → List Node → Prop
  errors : ParseError → ParseError → Prop
  /-- Once the first parse fails like this, the second may do anything. -/
  aside : ParseError → Prop

/-- **The correspondence goes along with what attempts do**: states that correspond still do after the same change, and
what corresponds makes trees that correspond.  Nothing is said of the tokens there. -/
structure Comparison.Lockstep (input input' : Input) (C : Comparison) : Prop where
  index_eq : ∀ {s s'}, C.states s s' → s.index + C.there = s'.index + C.here
  left_eq : ∀ {s s'}, C.states s s' → input.size - s.index = input'.size - s'.index
  back : ∀ {s s' t t'}, C.states s s' → C.states t t' → C.states (t.goTo s.index) (t'.goTo s'.index)
  next : ∀ {s s'}, C.states s s' → s.index < input.size → C.states (s.goTo (s.index + 1)) (s'.goTo (s'.index + 1))
  miss : ∀ {s s'}, C.states s s' → ∀ expected, C.states (s.miss expected) (s'.miss expected)
  nil : C.forests [] []
  append : ∀ {ns ns' ms ms'}, C.forests ns ns' → C.forests ms ms' → C.forests (ns ++ ms) (ns' ++ ms')
  words : ∀ {s s' t t'}, C.states s s' → C.states t t' →
    C.forests [.leaf (Attempt.words input s.index t.index) s.index t.index]
      [.leaf (Attempt.words input' s'.index t'.index) s'.index t'.index]
  branch : ∀ {s s' t t' ns ns'}, C.states s s' → C.states t t' → C.forests ns ns' → ∀ w : Wrapper,
    C.forests [.branch w.name ns s.index t.index false] [.branch w.name ns' s'.index t'.index false]
  tie : ∀ {s s'}, C.states s s' → ∀ text,
    C.errors (.ambiguousAlternatives s.index text) (.ambiguousAlternatives s'.index text)

/-- **The correspondence goes along with attempts**: states that correspond also look the same. -/
structure Comparison.Lawful (input input' : Input) (C : Comparison) : Prop extends C.Lockstep input input' where
  read_eq : ∀ {s s'}, C.states s s' → input.read s.index = input'.read s'.index
  previous_eq : ∀ {s s'}, C.states s s' → s.previous input = s'.previous input'
  leaf : ∀ {s s'}, C.states s s' → ∀ token,
    C.forests [.leaf token s.index (s.index + 1)] [.leaf token s'.index (s'.index + 1)]

/-- A policy looks at the number of children only. -/
theorem SkipPolicy.skips_of_map_eq (policy : SkipPolicy) {f f' : Node → Node} {ns ns' : List Node}
    (h : ns.map f = ns'.map f') : policy.skips ns = policy.skips ns' := by
  have hlength : ns.length = ns'.length := by
    have := congrArg List.length h
    rwa [List.length_map, List.length_map] at this
  cases policy with
  | never => rfl
  | always => rfl
  | ifOnlyOneChild => exact congrArg (· == 1) hlength

/-- The correspondence goes along with entering and leaving a rule of the first parse and one of the second. -/
structure Comparison.Nests (C : Comparison) (rule rule' : Rule) : Prop where
  enter : ∀ {s s'}, C.states s s' → C.states (s.enter rule.name) (s'.enter rule'.name)
  leave : ∀ {s s'}, C.states s s' → ∀ matched, C.states (s.leave rule.name matched) (s'.leave rule'.name matched)
  node : ∀ {s s' t t' ns ns'}, C.states s s' → C.states t t' → C.forests ns ns' →
    C.nodes (rule.node ns s.index t.index) (rule'.node ns' s'.index t'.index)

namespace Attempt

variable {α : Type} {C : Comparison} {V : α → α → Prop} {input input' : Input}

/-- Outcomes that correspond, or of which the first is an error that is set aside. -/
inductive Alike (C : Comparison) (V : α → α → Prop) : Answer α × State → Answer α × State → Prop
  | matched {v v' : α} {t t' : State} (hv : V v v') (h : C.states t t') : Alike C V (.matched v, t) (.matched v', t')
  | backtrack {why : Backtrack} {t t' : State} (h : C.states t t') : Alike C V (.backtrack why, t) (.backtrack why, t')
  | fatal {e e' : ParseError} {t t' : State} (he : C.errors e e') (h : C.states t t') :
      Alike C V (.fatal e, t) (.fatal e', t')
  | aside {e : ParseError} {t : State} {r : Answer α × State} (h : C.aside e) : Alike C V (.fatal e, t) r

/-- **Corresponding outcomes from corresponding states**, unless an error that is set aside ends the first attempt. -/
def Agree (C : Comparison) (V : α → α → Prop) (a b : Attempt α) : Prop :=
  ∀ s s', C.states s s' → Alike C V (a s) (b s')

/-- What trials find corresponds, or the first finds an error that is set aside. -/
inductive AlikeTrial (C : Comparison) : Trial × State → Trial × State → Prop
  | reached {j j' : Nat} {t t' : State} (hj : j + C.there = j' + C.here) (h : C.states t t') :
      AlikeTrial C (.ok (some j), t) (.ok (some j'), t')
  | nothing {t t' : State} (h : C.states t t') : AlikeTrial C (.ok none, t) (.ok none, t')
  | error {e e' : ParseError} {t t' : State} (he : C.errors e e') (h : C.states t t') :
      AlikeTrial C (.error e, t) (.error e', t')
  | aside {e : ParseError} {t : State} {r : Trial × State} (h : C.aside e) : AlikeTrial C (.error e, t) r

/-- Choices of attempts that agree, or of which the first is an error that is set aside. -/
inductive AlikeChoice (C : Comparison) (V : α → α → Prop) :
    Except ParseError (Option (Attempt α)) × State → Except ParseError (Option (Attempt α)) × State → Prop
  | none {t t' : State} (h : C.states t t') : AlikeChoice C V (.ok none, t) (.ok none, t')
  | some {a b : Attempt α} {t t' : State} (hab : Agree C V a b) (h : C.states t t') :
      AlikeChoice C V (.ok (some a), t) (.ok (some b), t')
  | error {e e' : ParseError} {t t' : State} (he : C.errors e e') (h : C.states t t') :
      AlikeChoice C V (.error e, t) (.error e', t')
  | aside {e : ParseError} {t : State} {r : Except ParseError (Option (Attempt α)) × State} (h : C.aside e) :
      AlikeChoice C V (.error e, t) r

theorem atomic_agree (hC : C.Lockstep input input') {a b : Attempt α} (h : Agree C V a b) :
    Agree C V (atomic a) (atomic b) := by
  intro s s' hs
  have ha := h s s' hs
  unfold atomic
  generalize a s = r at ha ⊢
  generalize b s' = r' at ha ⊢
  cases ha with
  | matched hv ht => exact .matched hv ht
  | backtrack ht => exact .backtrack (hC.back hs ht)
  | fatal he ht => exact .fatal he (hC.back hs ht)
  | aside he => exact .aside he

theorem trial_index (a : Attempt α) (s : State) : (trial a s).2.index = s.index := by
  unfold trial
  generalize a s = r
  rcases r with ⟨_ | _ | _, t⟩ <;> rfl

theorem trial_alike (hC : C.Lockstep input input') {a b : Attempt α} (h : Agree C V a b) {s s' : State}
    (hs : C.states s s') : AlikeTrial C (trial a s) (trial b s') := by
  have ha := h s s' hs
  unfold trial
  generalize a s = r at ha ⊢
  generalize b s' = r' at ha ⊢
  cases ha with
  | matched _ ht => exact .reached (hC.index_eq ht) (hC.back hs ht)
  | backtrack ht => exact .nothing (hC.back hs ht)
  | fatal he ht => exact .error he (hC.back hs ht)
  | aside he => exact .aside he

theorem chain_agree (hC : C.Lockstep input input') : ∀ {as bs : List (Attempt Forest)},
    List.Forall₂ (Agree C C.forests) as bs → Agree C C.forests (chain as) (chain bs)
  | _, _, .nil, _, _, hs => .matched hC.nil hs
  | a :: as, b :: bs, .cons hab hrest, s, s', hs => by
    have ha := hab s s' hs
    unfold chain
    generalize a s = r at ha ⊢
    generalize b s' = r' at ha ⊢
    cases ha with
    | @matched first first' t t' hfirst ht =>
      have hr := chain_agree hC hrest t t' ht
      simp only
      generalize chain as t = r at hr ⊢
      generalize chain bs t' = r' at hr ⊢
      cases hr with
      | matched hothers hu => exact .matched (hC.append hfirst hothers) hu
      | backtrack hu => exact .backtrack hu
      | fatal he hu => exact .fatal he hu
      | aside he => exact .aside he
    | backtrack ht => exact .backtrack ht
    | fatal he ht => exact .fatal he ht
    | aside he => exact .aside he

theorem sequence_agree (hC : C.Lockstep input input') {as bs : List (Attempt Forest)}
    (h : List.Forall₂ (Agree C C.forests) as bs) : Agree C C.forests (sequence as) (sequence bs) :=
  atomic_agree hC (chain_agree hC h)

theorem firstOf_agree : ∀ {as bs : List (Attempt α)}, List.Forall₂ (Agree C V) as bs →
    Agree C V (firstOf as) (firstOf bs)
  | _, _, .nil, _, _, hs => .backtrack hs
  | a :: as, b :: bs, .cons hab hrest, s, s', hs => by
    have ha := hab s s' hs
    unfold firstOf
    generalize a s = r at ha ⊢
    generalize b s' = r' at ha ⊢
    cases ha with
    | matched hv ht => exact .matched hv ht
    | backtrack ht => exact firstOf_agree hrest _ _ ht
    | fatal he ht => exact .fatal he ht
    | aside he => exact .aside he

/-! ## Alternations that try everything first -/

/-- Best attempts so far that agree and reach corresponding indices. -/
abbrev AlikeBest (C : Comparison) (V : α → α → Prop) : Option (Attempt α × Nat) → Option (Attempt α × Nat) → Prop :=
  Option.Rel (fun p q => Agree C V p.1 q.1 ∧ p.2 + C.there = q.2 + C.here)

theorem better_alike {best best' : Option (Attempt α × Nat)} (h : AlikeBest C V best best') {a b : Attempt α}
    (hab : Agree C V a b) {j j' : Nat} (hj : j + C.there = j' + C.here) :
    AlikeBest C V (better best a (some j)) (better best' b (some j')) := by
  cases h with
  | none => exact .some ⟨hab, hj⟩
  | @some p q hpq =>
    obtain ⟨p, far⟩ := p
    obtain ⟨q, far'⟩ := q
    obtain ⟨hp, hfar⟩ : Agree C V p q ∧ far + C.there = far' + C.here := hpq
    have hlt : far < j ↔ far' < j' := by omega
    unfold better
    simp only
    by_cases hfarther : far < j
    · rw [if_pos hfarther, if_pos (hlt.1 hfarther)]
      exact .some ⟨hab, hj⟩
    · rw [if_neg hfarther, if_neg (fun hlt' => hfarther (hlt.2 hlt'))]
      exact .some ⟨hp, hfar⟩

theorem longest_alike (hC : C.Lockstep input input') : ∀ {as bs : List (Attempt α)}, List.Forall₂ (Agree C V) as bs →
    ∀ {best best' : Option (Attempt α × Nat)}, AlikeBest C V best best' → ∀ {s s' : State}, C.states s s' →
      AlikeChoice C V (longest as best s) (longest bs best' s')
  | _, _, .nil, _, _, hbest, _, _, hs => by
    cases hbest with
    | none => exact .none hs
    | some hpq => exact .some hpq.1 hs
  | a :: as, b :: bs, .cons hab hrest, best, best', hbest, s, s', hs => by
    have ht := trial_alike hC hab hs
    unfold longest
    generalize trial a s = r at ht ⊢
    generalize trial b s' = r' at ht ⊢
    cases ht with
    | reached hj ht => exact longest_alike hC hrest (better_alike hbest hab hj) ht
    | nothing ht => exact longest_alike hC hrest hbest ht
    | error he ht => exact .error he ht
    | aside he => exact .aside he

theorem only_alike (hC : C.Lockstep input input') (text : String) : ∀ {as bs : List (Attempt α)},
    List.Forall₂ (Agree C V) as bs → ∀ {found found' : Option (Attempt α)}, Option.Rel (Agree C V) found found' →
      ∀ {s s' : State}, C.states s s' →
        AlikeChoice C V (only (.ambiguousAlternatives · text) as found s) (only (.ambiguousAlternatives · text) bs found' s')
  | _, _, .nil, _, _, hfound, _, _, hs => by
    cases hfound with
    | none => exact .none hs
    | some hab => exact .some hab hs
  | a :: as, b :: bs, .cons hab hrest, found, found', hfound, s, s', hs => by
    have ht := trial_alike hC hab hs
    unfold only
    generalize trial a s = r at ht ⊢
    generalize trial b s' = r' at ht ⊢
    cases ht with
    | reached _ ht =>
      cases hfound with
      | none => exact only_alike hC text hrest (.some hab) ht
      | some _ => exact .error (hC.tie ht text) ht
    | nothing ht => exact only_alike hC text hrest hfound ht
    | error he ht => exact .error he ht
    | aside he => exact .aside he

theorem make_alike {r r' : Except ParseError (Option (Attempt α)) × State} (h : AlikeChoice C V r r') :
    Alike C V (make r) (make r') := by
  cases h with
  | none h => exact .backtrack h
  | some hab h => exact hab _ _ h
  | error he h => exact .fatal he h
  | aside he => exact .aside he

/-! ## Options, repetitions and lookaheads -/

theorem optional_agree (hC : C.Lockstep input input') {a b : Attempt Forest} (h : Agree C C.forests a b) :
    Agree C C.forests (optional a) (optional b) := by
  intro s s' hs
  have ha := h s s' hs
  unfold optional
  generalize a s = r at ha ⊢
  generalize b s' = r' at ha ⊢
  cases ha with
  | matched hv ht => exact .matched hv ht
  | backtrack ht => exact .matched hC.nil ht
  | fatal he ht => exact .fatal he ht
  | aside he => exact .aside he

theorem repeated_agree (hC : C.Lockstep input input') {a b : Attempt Forest} (hab : Agree C C.forests a b) :
    ∀ (limit : Nat), Agree C C.forests (repeated a limit) (repeated b limit)
  | 0, _, _, hs => .matched hC.nil hs
  | limit + 1, s, s', hs => by
    have ha := hab s s' hs
    have hindex := hC.index_eq hs
    unfold repeated
    generalize a s = r at ha ⊢
    generalize b s' = r' at ha ⊢
    cases ha with
    | @matched first first' t t' hfirst ht =>
      have hstays : t.index = s.index ↔ t'.index = s'.index := by
        have := hC.index_eq ht
        omega
      simp only
      by_cases hstop : t.index = s.index
      · rw [if_pos hstop, if_pos (hstays.1 hstop)]
        exact .matched hfirst ht
      · rw [if_neg hstop, if_neg (fun hstop' => hstop (hstays.2 hstop'))]
        have hr := repeated_agree hC hab limit t t' ht
        generalize repeated a limit t = r at hr ⊢
        generalize repeated b limit t' = r' at hr ⊢
        cases hr with
        | matched hothers hu => exact .matched (hC.append hfirst hothers) hu
        | backtrack hu => exact .backtrack hu
        | fatal he hu => exact .fatal he hu
        | aside he => exact .aside he
    | backtrack ht => exact .matched hC.nil ht
    | fatal he ht => exact .fatal he ht
    | aside he => exact .aside he

theorem repeatedFrom_agree (hC : C.Lockstep input input') {a b : Attempt Forest} (h : Agree C C.forests a b) :
    Agree C C.forests (repeatedFrom input a) (repeatedFrom input' b) := by
  intro s s' hs
  unfold repeatedFrom
  rw [hC.left_eq hs]
  exact repeated_agree hC h _ s s' hs

theorem next_agree (hC : C.Lockstep input input') {a b : Attempt α} (h : Agree C V a b) :
    Agree C C.forests (next a) (next b) := by
  intro s s' hs
  have ht := trial_alike hC h hs
  unfold next
  generalize trial a s = r at ht ⊢
  generalize trial b s' = r' at ht ⊢
  cases ht with
  | reached _ ht => exact .matched hC.nil ht
  | nothing ht => exact .backtrack ht
  | error he ht => exact .fatal he ht
  | aside he => exact .aside he

theorem not_agree (hC : C.Lockstep input input') (m : Matcher) {a b : Attempt α} (h : Agree C V a b) :
    Agree C C.forests (not m a) (not m b) := by
  intro s s' hs
  have ht := trial_alike hC h hs
  unfold not
  generalize trial a s = r at ht ⊢
  generalize trial b s' = r' at ht ⊢
  cases ht with
  | reached _ ht => exact .backtrack (hC.miss ht _)
  | nothing ht => exact .matched hC.nil ht
  | error he ht => exact .fatal he ht
  | aside he => exact .aside he

/-! ## Leaves and nodes of their own -/

theorem leaf_agree (hC : C.Lawful input input') (m : Matcher) (accepts : Token → Bool) :
    Agree C C.forests (leaf input m accepts) (leaf input' m accepts) := by
  intro s s' hs
  unfold leaf
  rw [← hC.read_eq hs]
  split
  · rename_i token hread
    have hlt : s.index < input.size := (Array.getElem?_eq_some_iff.1 hread).1
    by_cases haccepts : accepts token = true
    · rw [if_pos haccepts, if_pos haccepts]
      exact .matched (hC.leaf hs token) (hC.next hs hlt)
    · rw [if_neg haccepts, if_neg haccepts]
      exact .backtrack (hC.miss hs _)
  · exact .backtrack (hC.miss hs _)

theorem endOfInput_agree (hC : C.Lockstep input input') :
    Agree C C.forests (endOfInput input) (endOfInput input') := by
  intro s s' hs
  have hend : s.atEnd input = s'.atEnd input' := by
    have := hC.left_eq hs
    unfold State.atEnd
    rw [decide_eq_decide]
    omega
  unfold endOfInput
  rw [hend]
  split
  · exact .matched hC.nil hs
  · exact .backtrack (hC.miss hs _)

theorem wrapped_agree (hC : C.Lockstep input input') (w : Wrapper) {a b : Attempt Forest} (h : Agree C C.forests a b) :
    Agree C C.forests (wrapped w.name a) (wrapped w.name b) := by
  intro s s' hs
  have ha := h s s' hs
  unfold wrapped
  generalize a s = r at ha ⊢
  generalize b s' = r' at ha ⊢
  cases ha with
  | matched hv ht => exact .matched (hC.branch hs ht hv w) ht
  | backtrack ht => exact .backtrack ht
  | fatal he ht => exact .fatal he ht
  | aside he => exact .aside he

theorem adjacent_agree (hC : C.Lawful input input') (m : Matcher) {a b : Attempt Forest} (h : Agree C C.forests a b) :
    Agree C C.forests (adjacent input m a) (adjacent input' m b) := by
  intro s s' hs
  unfold adjacent
  rw [← hC.previous_eq hs, ← hC.read_eq hs]
  split
  · rename_i before after _ _
    by_cases htouch : touches before after = true
    · rw [if_pos htouch, if_pos htouch]
      exact wrapped_agree hC.toLockstep .adjacent h s s' hs
    · rw [if_neg htouch, if_neg htouch]
      exact .backtrack (hC.miss hs _)
  · exact .backtrack (hC.miss hs _)
  · exact .backtrack (hC.miss hs _)

theorem skipTo_agree (hC : C.Lockstep input input') {a b : Attempt Forest} (h : Agree C C.forests a b) :
    ∀ (left : Nat) {s s' : State}, left ≤ input.size - s.index → C.states s s' →
      Alike C (fun _ _ => True) (skipTo a left s) (skipTo b left s')
  | left, s, s', hleft, hs => by
    have ht := trial_alike hC h hs
    have hindex := trial_index a s
    unfold skipTo
    generalize trial a s = r at ht hindex ⊢
    generalize trial b s' = r' at ht ⊢
    cases ht with
    | reached _ ht => exact .matched trivial ht
    | @nothing t t' ht =>
      cases left with
      | zero => exact .backtrack ht
      | succ left =>
        have hindex : t.index = s.index := hindex
        have hleft' : left ≤ input.size - (t.index + 1) := by omega
        exact skipTo_agree hC h left hleft' (hC.next ht (by omega))
    | error he ht => exact .fatal he ht
    | aside he => exact .aside he

theorem skippedWords_agree (hC : C.Lockstep input input') {a b : Attempt Forest} (h : Agree C C.forests a b) :
    Agree C C.forests (skippedWords input a) (skippedWords input' b) := by
  intro s s' hs
  have ht := skipTo_agree hC h (input.size - s.index) (Nat.le_refl _) hs
  unfold skippedWords
  rw [← hC.left_eq hs]
  generalize skipTo a (input.size - s.index) s = r at ht ⊢
  generalize skipTo b (input.size - s.index) s' = r' at ht ⊢
  cases ht with
  | matched _ ht => exact .matched (hC.words hs ht) ht
  | backtrack ht => exact .backtrack ht
  | fatal he ht => exact .fatal he ht
  | aside he => exact .aside he

/-! ## All matchers, and rules -/

/-- **All combinators respect agreement** if leaves do, adjacency apart. -/
theorem agree_linkedApart (hC : C.Lockstep input input')
    (hleaf : ∀ m accepts, (∀ t u : Token, t.value = u.value → t.type = u.type → accepts t = accepts u) →
      Agree C C.forests (leaf input m accepts) (leaf input' m accepts)) :
    LinkedApart input input' (Agree C C.forests) where
  sequence _ _ h := sequence_agree hC h
  firstOf _ _ h := firstOf_agree h
  longestOne _ _ h _ _ hs := make_alike (longest_alike hC h .none hs)
  strictOr text _ _ h _ _ hs := make_alike (only_alike hC text h .none hs)
  optional _ _ h := optional_agree hC h
  zeroOrMore _ _ h := atomic_agree hC (repeatedFrom_agree hC h)
  oneOrMore _ _ h := sequence_agree hC (.cons h (.cons (repeatedFrom_agree hC h) .nil))
  next _ _ h := next_agree hC h
  not m _ _ h := not_agree hC m h
  till _ _ h := wrapped_agree hC .till (sequence_agree hC (.cons (skippedWords_agree hC h) (.cons h .nil)))
  leaf := hleaf
  endOfInput := endOfInput_agree hC

/-- **All combinators respect agreement.** -/
theorem agree_linked (hC : C.Lawful input input') : Linked input input' (Agree C C.forests) where
  toLinkedApart := agree_linkedApart hC.toLockstep (fun m accepts _ => leaf_agree hC m accepts)
  adjacent m _ _ h := adjacent_agree hC m h

theorem spliced_agree (hspliced : ∀ {n n'}, C.nodes n n' → C.forests n.spliced n'.spliced) {a b : Attempt Node}
    (h : Agree C C.nodes a b) : Agree C C.forests (spliced a) (spliced b) := by
  intro s s' hs
  have ha := h s s' hs
  unfold spliced
  generalize a s = r at ha ⊢
  generalize b s' = r' at ha ⊢
  cases ha with
  | matched hv ht => exact .matched (hspliced hv) ht
  | backtrack ht => exact .backtrack ht
  | fatal he ht => exact .fatal he ht
  | aside he => exact .aside he

theorem around_agree {rule rule' : Rule} (hN : C.Nests rule rule') {a b : Attempt Forest} (h : Agree C C.forests a b) :
    Agree C C.nodes (rule.around a) (rule'.around b) := by
  intro s s' hs
  have ha := h _ _ (hN.enter hs)
  unfold Rule.around
  generalize a (s.enter rule.name) = r at ha ⊢
  generalize b (s'.enter rule'.name) = r' at ha ⊢
  cases ha with
  | matched hv ht => exact .matched (hN.node hs ht hv) (hN.leave ht _)
  | backtrack ht => exact .backtrack (hN.leave ht _)
  | fatal he ht => exact .fatal he (hN.leave ht _)
  | aside he => exact .aside he

end Attempt

/-- **Two grammars with corresponding rules**, entered with limits that correspond: the same matchers, and nodes and
refusals that correspond. -/
structure Comparison.Rules (C : Comparison) (input input' : Input) (g g' : Grammar) : Prop where
  missing : ∀ {key}, g.rule? key = none → g'.rule? key = none
  present : ∀ {key rule}, g.rule? key = some rule → ∃ rule', g'.rule? key = some rule' ∧
    rule.matcher = rule'.matcher ∧ C.Nests rule rule' ∧
      C.errors (.recursionLimit rule.name input.config.maxDepth) (.recursionLimit rule'.name input'.config.maxDepth)
  spliced : ∀ {n n'}, C.nodes n n' → C.forests n.spliced n'.spliced
  foreign : ∀ key, C.errors (.foreignRule key) (.foreignRule key)

theorem Comparison.rules_self {C : Comparison} {input input' : Input} {g : Grammar} (hN : ∀ rule, C.Nests rule rule)
    (hspliced : ∀ {n n'}, C.nodes n n' → C.forests n.spliced n'.spliced)
    (hforeign : ∀ key, C.errors (.foreignRule key) (.foreignRule key))
    (hlimit : ∀ name, C.errors (.recursionLimit name input.config.maxDepth) (.recursionLimit name input'.config.maxDepth)) :
    C.Rules input input' g g where
  missing h := h
  present {_ rule} h := ⟨rule, h, rfl, hN rule, hlimit rule.name⟩
  spliced := hspliced
  foreign := hforeign

namespace Grammar

open Attempt (Agree)

variable {C : Comparison} {input input' : Input} {g g' : Grammar}

/-- **Corresponding rules agree**, entered with the same room, if their matchers do wherever the rules they enter do. -/
theorem enter_agree_of (hG : C.Rules input input' g g')
    (hmatcher : ∀ key rule, g.rule? key = some rule → ∀ call call' : RuleKey → Attempt Node,
      (∀ key, Agree C C.forests (.spliced (call key)) (.spliced (call' key))) →
        Agree C C.forests (rule.matcher.attempt input call) (rule.matcher.attempt input' call')) :
    ∀ (room : Nat) (key : RuleKey), Agree C C.nodes (g.enter input room key) (g'.enter input' room key)
  | room, key => by
    cases hr : g.rule? key with
    | none =>
      rw [enter_foreign hr, enter_foreign (hG.missing hr)]
      exact fun s s' hs => .fatal (hG.foreign key) hs
    | some rule =>
      obtain ⟨rule', hr', heq, hN, hlimit⟩ := hG.present hr
      cases room with
      | zero =>
        rw [enter_zero hr, enter_zero hr']
        exact fun s s' hs => .fatal hlimit hs
      | succ room =>
        have hcall := fun key => Attempt.spliced_agree hG.spliced (enter_agree_of hG hmatcher room key)
        rw [enter_succ hr, enter_succ hr', ← heq]
        exact Attempt.around_agree hN (hmatcher key rule hr _ _ hcall)

/-- **Corresponding rules agree**, entered with the same room. -/
theorem enter_agree (hC : C.Lawful input input') (hG : C.Rules input input' g g') : ∀ (room : Nat) (key : RuleKey),
    Agree C C.nodes (g.enter input room key) (g'.enter input' room key) :=
  enter_agree_of hG (fun _ rule _ _ _ hcall => Matcher.attempt_linked (Attempt.agree_linked hC) hcall rule.matcher)

theorem attempt_agree (hC : C.Lawful input input') (hG : C.Rules input input' g g') (room : Nat) (m : Matcher) :
    Agree C C.forests (m.attempt input (g.enter input room)) (m.attempt input' (g'.enter input' room)) :=
  Matcher.attempt_linked (Attempt.agree_linked hC)
    (fun key => Attempt.spliced_agree hG.spliced (enter_agree hC hG room key)) m

end Grammar

/-! ## The same tokens and the same states -/

namespace Comparison

variable {S : State → Prop} {E : ParseError → Prop} {input input' : Input}

/-- The states of a set, each compared with itself; errors in `E` are set aside. -/
def same (S : State → Prop) (E : ParseError → Prop) : Comparison where
  here := 0
  there := 0
  states s s' := s = s' ∧ S s
  nodes := Eq
  forests := Eq
  errors := Eq
  aside := E

/-- A set of states that attempts keep to. -/
structure Stable (input : Input) (S : State → Prop) : Prop where
  back : ∀ {s t}, S s → S t → S (t.goTo s.index)
  next : ∀ {s}, S s → s.index < input.size → S (s.goTo (s.index + 1))
  miss : ∀ {s}, S s → ∀ expected, S (s.miss expected)

/-- Attempts look at the tokens of the input, not at its configuration. -/
theorem same_lawful (hS : Stable input S) (h : input.tokens = input'.tokens) : (same S E).Lawful input input' := by
  obtain ⟨tokens, config⟩ := input
  obtain ⟨_, config'⟩ := input'
  subst h
  exact
    { index_eq := by rintro s _ ⟨rfl, _⟩; rfl
      read_eq := by rintro s _ ⟨rfl, _⟩; rfl
      previous_eq := by rintro s _ ⟨rfl, _⟩; rfl
      left_eq := by rintro s _ ⟨rfl, _⟩; rfl
      back := by rintro s _ t _ ⟨rfl, hs⟩ ⟨rfl, ht⟩; exact ⟨rfl, hS.back hs ht⟩
      next := by rintro s _ ⟨rfl, hs⟩ hlt; exact ⟨rfl, hS.next hs hlt⟩
      miss := by rintro s _ ⟨rfl, hs⟩ expected; exact ⟨rfl, hS.miss hs expected⟩
      nil := rfl
      append := by rintro ns _ ms _ rfl rfl; rfl
      leaf := by rintro s _ ⟨rfl, _⟩ token; rfl
      words := by rintro s _ t _ ⟨rfl, _⟩ ⟨rfl, _⟩; rfl
      branch := by rintro s _ t _ ns _ ⟨rfl, _⟩ ⟨rfl, _⟩ rfl name; rfl
      tie := by rintro s _ ⟨rfl, _⟩ text; rfl }

/-- Outcomes that are the same, unless the first is an error that is set aside. -/
theorem alike_same {α : Type} {r r' : Answer α × State} (h : Attempt.Alike (same S E) Eq r r') :
    r = r' ∨ ∃ e, r.1 = .fatal e ∧ E e := by
  cases h with
  | matched hv ht => exact .inl (by rw [hv, ht.1])
  | backtrack ht => exact .inl (by rw [ht.1])
  | fatal he ht => exact .inl (by rw [he, ht.1])
  | aside he => exact .inr ⟨_, rfl, he⟩

/-- An attempt that keeps to the set agrees with itself. -/
theorem same_agree {α : Type} {a : Attempt α} (h : ∀ s, S s → S (a s).2) : Attempt.Agree (same S E) Eq a a := by
  rintro s _ ⟨rfl, hs⟩
  have hkept := h s hs
  generalize a s = r at hkept ⊢
  rcases r with ⟨_ | _ | _, t⟩
  · exact .matched rfl ⟨rfl, hkept⟩
  · exact .backtrack ⟨rfl, hkept⟩
  · exact .fatal rfl ⟨rfl, hkept⟩

/-- What an attempt leaves is in the set, if the set is compared with itself and nothing is set aside. -/
theorem alike_kept {α : Type} {V : α → α → Prop} {r r' : Answer α × State}
    (h : Attempt.Alike (same S (fun _ => False)) V r r') : S r.2 := by
  cases h with
  | matched _ ht => exact ht.2
  | backtrack ht => exact ht.2
  | fatal _ ht => exact ht.2
  | aside he => exact he.elim

/-- A set of states that attempts keep to, whatever rules they enter. -/
structure Lasting (input : Input) (S : State → Prop) : Prop extends Stable input S where
  enter : ∀ {s}, S s → ∀ name, S (s.enter name)
  leave : ∀ {s}, S s → ∀ name matched, S (s.leave name matched)

theorem Lasting.rules (hS : Lasting input S) (g : Grammar) : (same S E).Rules input input g g := by
  refine rules_self (fun rule => ?_) (fun h => congrArg Node.spliced h) (fun _ => rfl) (fun _ => rfl)
  constructor
  · rintro s _ ⟨rfl, hs⟩
    exact ⟨rfl, hS.enter hs rule.name⟩
  · rintro s _ ⟨rfl, hs⟩ matched
    exact ⟨rfl, hS.leave hs rule.name matched⟩
  · rintro s _ t _ ns _ ⟨rfl, _⟩ ⟨rfl, _⟩ rfl
    rfl

end Comparison

/-- **What attempts keep to, a matcher keeps to** if the rules that it enters do. -/
theorem Matcher.attempt_keeps {input : Input} {S : State → Prop} (hS : Comparison.Stable input S)
    {call : RuleKey → Attempt Node} (hcall : ∀ key s, S s → S (call key s).2) (m : Matcher) {s : State} (hs : S s) :
    S (m.attempt input call s).2 := by
  let C : Comparison := .same S (fun _ => False)
  have hC : C.Lawful input input := Comparison.same_lawful hS rfl
  have hrules : ∀ key, Attempt.Agree C C.forests (.spliced (call key)) (.spliced (call key)) := fun key =>
    Attempt.spliced_agree (fun h => congrArg Node.spliced h) (Comparison.same_agree (hcall key))
  exact Comparison.alike_kept (attempt_linked (Attempt.agree_linked hC) hrules m s s ⟨rfl, hs⟩)

/-- **What attempts keep to, a rule keeps to.** -/
theorem Grammar.matchRule_keeps {input : Input} {S : State → Prop} (hS : Comparison.Lasting input S) (g : Grammar)
    (key : RuleKey) {s : State} (hs : S s) : S (g.matchRule input key s).2 :=
  Comparison.alike_kept (enter_agree (Comparison.same_lawful hS.toStable rfl) (hS.rules g) _ key s s ⟨rfl, hs⟩)

end LayeredParse
