import LayeredParse.Proofs.Parse.Linked
/-!
# Balance — how attempts leave the index and the depth

A balanced attempt closes every rule that it opens; it moves the index forward, within the tokens, if it matches, and
leaves it where it was otherwise.  Loops on the way to a match do not go back by themselves: they are advancing only, and
setting the index back makes them balanced (`atomic_balanced`).  All combinators keep balance (`balanced_kept`).
-/
namespace LayeredParse

namespace State

/-- As many rules are open, and the index is at or after where it was, within the tokens if it was. -/
def Onward (input : Input) (s t : State) : Prop :=
  t.depth = s.depth ∧ s.index ≤ t.index ∧ (s.index ≤ input.size → t.index ≤ input.size)

/-- As many rules are open, and the index is where it was. -/
def Unmoved (s t : State) : Prop :=
  t.depth = s.depth ∧ t.index = s.index

variable {input : Input} {s t u : State}

theorem Onward.refl (s : State) : Onward input s s :=
  ⟨rfl, Nat.le_refl _, id⟩

theorem Onward.trans (h : Onward input s t) (h' : Onward input t u) : Onward input s u :=
  ⟨h'.1.trans h.1, Nat.le_trans h.2.1 h'.2.1, fun hs => h'.2.2 (h.2.2 hs)⟩

theorem Unmoved.onward (h : Unmoved s t) : Onward input s t :=
  ⟨h.1, Nat.le_of_eq h.2.symm, fun hs => h.2 ▸ hs⟩

theorem Unmoved.trans (h : Unmoved s t) (h' : Unmoved t u) : Unmoved s u :=
  ⟨h'.1.trans h.1, h'.2.trans h.2⟩

theorem goTo_eq_self {index : Nat} (h : t.index = index) : t.goTo index = t := by
  subst h
  rfl

end State

namespace Attempt

open State (Onward Unmoved)

variable {α : Type} {input : Input}

/-- What an advancing attempt leaves from a state. -/
def Loose (input : Input) (s : State) : Answer α × State → Prop
  | (.matched _, t) => Onward input s t
  | (.backtrack _, t) | (.fatal _, t) => t.depth = s.depth

/-- What a balanced attempt leaves from a state. -/
def Steady (input : Input) (s : State) : Answer α × State → Prop
  | (.matched _, t) => Onward input s t
  | (.backtrack _, t) | (.fatal _, t) => Unmoved s t

/-- Whether a match moves the index forward, and every rule that is opened is closed. -/
def Advances (input : Input) (a : Attempt α) : Prop :=
  ∀ s, Loose input s (a s)

/-- **Whether a match moves the index forward, a failure leaves it alone, and every rule that is opened is closed.** -/
def Balanced (input : Input) (a : Attempt α) : Prop :=
  ∀ s, Steady input s (a s)

theorem Steady.loose {s : State} : ∀ {r : Answer α × State}, Steady input s r → Loose input s r
  | (.matched _, _), h => h
  | (.backtrack _, _), h | (.fatal _, _), h => h.1

theorem Steady.depth_eq {s : State} : ∀ {r : Answer α × State}, Steady input s r → r.2.depth = s.depth
  | (.matched _, _), h | (.backtrack _, _), h | (.fatal _, _), h => h.1

theorem Balanced.advances {a : Attempt α} (h : Balanced input a) : Advances input a :=
  fun s => (h s).loose

theorem Loose.after {s t : State} (h : Onward input s t) : ∀ {r : Answer α × State}, Loose input t r → Loose input s r
  | (.matched _, _), h' => h.trans h'
  | (.backtrack _, _), h' | (.fatal _, _), h' => h'.trans h.1

theorem Steady.after {s t : State} (h : Unmoved s t) : ∀ {r : Answer α × State}, Steady input t r → Steady input s r
  | (.matched _, _), h' => h.onward.trans h'
  | (.backtrack _, _), h' | (.fatal _, _), h' => h.trans h'

/-- **Setting the index back on failure makes an advancing attempt balanced.** -/
theorem atomic_balanced {a : Attempt α} (h : Advances input a) : Balanced input (atomic a) := by
  intro s
  have ha := h s
  unfold atomic
  generalize a s = r at ha ⊢
  rcases r with ⟨_ | _ | _, t⟩
  · exact ha
  · exact ⟨ha, rfl⟩
  · exact ⟨ha, rfl⟩

/-- **A trial leaves the index and the depth alone, whatever it finds.** -/
theorem trial_unmoved {a : Attempt α} (h : Advances input a) (s : State) : Unmoved s (trial a s).2 := by
  have ha := h s
  unfold trial
  generalize a s = r at ha ⊢
  rcases r with ⟨_ | _ | _, t⟩
  · exact ⟨ha.1, rfl⟩
  · exact ⟨ha, rfl⟩
  · exact ⟨ha, rfl⟩

theorem chain_advances : ∀ (as : List (Attempt Forest)), (∀ a ∈ as, Advances input a) → Advances input (chain as)
  | [], _, s => Onward.refl s
  | a :: rest, h, s => by
    have ha := h a List.mem_cons_self s
    have hrest := chain_advances rest (fun b hb => h b (List.mem_cons_of_mem _ hb))
    unfold chain
    generalize a s = r at ha ⊢
    rcases r with ⟨first | _ | _, t⟩
    · have hr := (hrest t).after ha
      simp only
      generalize chain rest t = r at hr ⊢
      rcases r with ⟨_ | _ | _, u⟩ <;> exact hr
    · exact ha
    · exact ha

theorem firstOf_balanced : ∀ (as : List (Attempt α)), (∀ a ∈ as, Balanced input a) → Balanced input (firstOf as)
  | [], _, s => ⟨rfl, rfl⟩
  | a :: rest, h, s => by
    have ha := h a List.mem_cons_self s
    have hrest := firstOf_balanced rest (fun b hb => h b (List.mem_cons_of_mem _ hb))
    unfold firstOf
    generalize a s = r at ha ⊢
    rcases r with ⟨_ | _ | _, t⟩
    · exact ha
    · exact (hrest t).after ha
    · exact ha

/-! ## Alternations that try everything first -/

/-- What choosing among attempts leaves: index and depth as they were, and one of the attempts if any. -/
def Chosen (as : List (Attempt α)) (s : State) (r : Except ParseError (Option (Attempt α)) × State) : Prop :=
  Unmoved s r.2 ∧ ∀ a, r.1 = .ok (some a) → a ∈ as

theorem better_mem {as : List (Attempt α)} {best : Option (Attempt α × Nat)} {a : Attempt α} (reached : Option Nat)
    (hbest : ∀ p ∈ best, p.1 ∈ as) (ha : a ∈ as) : ∀ p ∈ better best a reached, p.1 ∈ as := by
  intro p hp
  unfold better at hp
  split at hp
  · exact hbest p hp
  · cases hp
    exact ha
  · split at hp
    · cases hp
      exact ha
    · cases hp
      exact hbest _ rfl

theorem longest_chosen (all : List (Attempt α)) : ∀ (as : List (Attempt α)) (best : Option (Attempt α × Nat)) (s : State),
    (∀ a ∈ as, Balanced input a) → (∀ a ∈ as, a ∈ all) → (∀ p ∈ best, p.1 ∈ all) →
      Chosen all s (longest as best s)
  | [], best, s, _, _, hbest => by
    refine ⟨⟨rfl, rfl⟩, fun a ha => ?_⟩
    obtain ⟨p, hp, rfl⟩ := Option.map_eq_some_iff.1 (Except.ok.inj ha)
    exact hbest p hp
  | a :: rest, best, s, h, hall, hbest => by
    have ht := trial_unmoved (h a List.mem_cons_self).advances s
    unfold longest
    generalize trial a s = r at ht ⊢
    rcases r with ⟨error | reached, t⟩
    · exact ⟨ht, fun _ hb => nomatch hb⟩
    · obtain ⟨hl, hm⟩ := longest_chosen all rest (better best a reached) t
        (fun b hb => h b (List.mem_cons_of_mem _ hb)) (fun b hb => hall b (List.mem_cons_of_mem _ hb))
        (better_mem reached hbest (hall a List.mem_cons_self))
      exact ⟨ht.trans hl, hm⟩

theorem only_chosen (tie : Nat → ParseError) (all : List (Attempt α)) : ∀ (as : List (Attempt α))
    (found : Option (Attempt α)) (s : State), (∀ a ∈ as, Balanced input a) → (∀ a ∈ as, a ∈ all) →
      (∀ a ∈ found, a ∈ all) → Chosen all s (only tie as found s)
  | [], found, s, _, _, hfound => ⟨⟨rfl, rfl⟩, fun a ha => hfound a (Except.ok.inj ha)⟩
  | a :: rest, found, s, h, hall, hfound => by
    have ht := trial_unmoved (h a List.mem_cons_self).advances s
    have hrest := fun found' => only_chosen tie all rest found' (trial a s).2
      (fun b hb => h b (List.mem_cons_of_mem _ hb)) (fun b hb => hall b (List.mem_cons_of_mem _ hb))
    unfold only
    rcases hs : trial a s with ⟨error | _ | reached, t⟩ <;> rw [hs] at ht hrest
    · exact ⟨ht, fun _ hb => nomatch hb⟩
    · obtain ⟨hl, hm⟩ := hrest found hfound
      exact ⟨ht.trans hl, hm⟩
    · simp only
      split
      · exact ⟨ht, fun _ hb => nomatch hb⟩
      · obtain ⟨hl, hm⟩ := hrest (some a) (fun b hb => by cases hb; exact hall a List.mem_cons_self)
        exact ⟨ht.trans hl, hm⟩

theorem make_balanced {as : List (Attempt α)} {s : State} (h : ∀ a ∈ as, Balanced input a)
    {r : Except ParseError (Option (Attempt α)) × State} (hr : Chosen as s r) : Steady input s (make r) := by
  obtain ⟨hl, hm⟩ := hr
  rcases r with ⟨error | _ | a, t⟩
  · exact hl
  · exact hl
  · exact (h a (hm a rfl) t).after hl

/-! ## Options and repetitions -/

theorem optional_balanced {a : Attempt Forest} (h : Balanced input a) : Balanced input (optional a) := by
  intro s
  have ha := h s
  unfold optional
  generalize a s = r at ha ⊢
  rcases r with ⟨_ | _ | _, t⟩
  · exact ha
  · exact ha.onward
  · exact ha

theorem repeated_advances {a : Attempt Forest} (h : Balanced input a) : ∀ (limit : Nat), Advances input (repeated a limit)
  | 0, s => Onward.refl s
  | limit + 1, s => by
    have ha := h s
    unfold repeated
    generalize a s = r at ha ⊢
    rcases r with ⟨first | _ | _, t⟩
    · simp only
      split
      · exact ha
      · have hr := (repeated_advances h limit t).after ha
        generalize repeated a limit t = r at hr ⊢
        rcases r with ⟨_ | _ | _, u⟩ <;> exact hr
    · exact ha.onward
    · exact ha.1

theorem repeatedFrom_advances {a : Attempt Forest} (h : Balanced input a) : Advances input (repeatedFrom input a) :=
  fun s => repeated_advances h (input.size - s.index + 1) s

/-- One attempt and then another. -/
theorem pair_balanced {a b : Attempt Forest} (ha : Advances input a) (hb : Advances input b) :
    Balanced input (sequence [a, b]) :=
  atomic_balanced (chain_advances [a, b] (List.forall_mem_cons.2 ⟨ha, List.forall_mem_singleton.2 hb⟩))

theorem oneOrMore_balanced {a : Attempt Forest} (h : Balanced input a) : Balanced input (oneOrMore input a) :=
  pair_balanced h.advances (repeatedFrom_advances h)

/-! ## Lookaheads, leaves and what is made of them -/

theorem next_balanced {a : Attempt α} (h : Advances input a) : Balanced input (next a) := by
  intro s
  have ht := trial_unmoved h s
  unfold next
  generalize trial a s = r at ht ⊢
  rcases r with ⟨error | _ | reached, t⟩
  · exact ht
  · exact ht
  · exact ht.onward

theorem not_balanced (m : Matcher) {a : Attempt α} (h : Advances input a) : Balanced input (not m a) := by
  intro s
  have ht := trial_unmoved h s
  unfold not
  generalize trial a s = r at ht ⊢
  rcases r with ⟨error | _ | reached, t⟩
  · exact ht
  · exact ht.onward
  · exact ht

theorem leaf_balanced (m : Matcher) (accepts : Token → Bool) : Balanced input (leaf input m accepts) := by
  intro s
  unfold leaf
  split
  · rename_i token hread
    have hlt : s.index < input.size := (Array.getElem?_eq_some_iff.1 hread).1
    split
    · exact ⟨rfl, Nat.le_succ _, fun _ => hlt⟩
    · exact ⟨rfl, rfl⟩
  · exact ⟨rfl, rfl⟩

theorem endOfInput_balanced : Balanced input (endOfInput input) := by
  intro s
  unfold endOfInput
  split
  · exact Onward.refl s
  · exact ⟨rfl, rfl⟩

theorem wrapped_balanced (name : String) {a : Attempt Forest} (h : Balanced input a) :
    Balanced input (wrapped name a) := by
  intro s
  have ha := h s
  unfold wrapped
  generalize a s = r at ha ⊢
  rcases r with ⟨_ | _ | _, t⟩ <;> exact ha

theorem adjacent_balanced (m : Matcher) {a : Attempt Forest} (h : Balanced input a) :
    Balanced input (adjacent input m a) := by
  intro s
  unfold adjacent
  split
  · split
    · exact wrapped_balanced _ h s
    · exact ⟨rfl, rfl⟩
  · exact ⟨rfl, rfl⟩
  · exact ⟨rfl, rfl⟩

/-- Skipping takes as many tokens as it may at most, and opens no rule. -/
theorem skipTo_onward {a : Attempt Forest} (h : Advances input a) : ∀ (left : Nat) (s : State),
    (skipTo a left s).2.depth = s.depth ∧ s.index ≤ (skipTo a left s).2.index ∧
      (skipTo a left s).2.index ≤ s.index + left
  | left, s => by
    have ht := trial_unmoved h s
    unfold skipTo
    generalize trial a s = r at ht ⊢
    rcases r with ⟨error | _ | reached, t⟩
    · exact ⟨ht.1, Nat.le_of_eq ht.2.symm, Nat.le_add_right_of_le (Nat.le_of_eq ht.2)⟩
    · cases left with
      | zero => exact ⟨ht.1, Nat.le_of_eq ht.2.symm, Nat.le_of_eq ht.2⟩
      | succ left =>
        obtain ⟨hd, hge, hle⟩ := skipTo_onward h left (t.goTo (t.index + 1))
        have hi : (t.goTo (t.index + 1)).index = s.index + 1 := congrArg (· + 1) ht.2
        rw [hi] at hge hle
        simp only
        exact ⟨hd.trans ht.1, by omega, by omega⟩
    · exact ⟨ht.1, Nat.le_of_eq ht.2.symm, Nat.le_add_right_of_le (Nat.le_of_eq ht.2)⟩

theorem skippedWords_advances {a : Attempt Forest} (h : Advances input a) : Advances input (skippedWords input a) := by
  intro s
  obtain ⟨hd, hge, hle⟩ := skipTo_onward h (input.size - s.index) s
  unfold skippedWords
  generalize skipTo a (input.size - s.index) s = r at hd hge hle ⊢
  rcases r with ⟨_ | _ | _, t⟩
  · exact ⟨hd, hge, fun hs => by simp only at hle; omega⟩
  · exact hd
  · exact hd

theorem till_balanced {a : Attempt Forest} (h : Balanced input a) : Balanced input (till input a) :=
  wrapped_balanced _ (pair_balanced (skippedWords_advances h.advances) h.advances)

theorem spliced_balanced {a : Attempt Node} (h : Balanced input a) : Balanced input (spliced a) := by
  intro s
  have ha := h s
  unfold spliced
  generalize a s = r at ha ⊢
  rcases r with ⟨_ | _ | _, t⟩ <;> exact ha

/-- **A rule that is entered is left again**: the depth is what it was, and had something to go down by. -/
theorem around_balanced (rule : Rule) {a : Attempt Forest} (h : Balanced input a) : Balanced input (rule.around a) := by
  intro s
  have ha := h (s.enter rule.name)
  unfold Rule.around
  generalize a (s.enter rule.name) = r at ha ⊢
  rcases r with ⟨_ | _ | _, t⟩
  · obtain ⟨hd, hge, hle⟩ := ha
    exact ⟨Nat.sub_eq_of_eq_add hd, hge, hle⟩
  · obtain ⟨hd, hi⟩ := ha
    exact ⟨Nat.sub_eq_of_eq_add hd, hi⟩
  · obtain ⟨hd, hi⟩ := ha
    exact ⟨Nat.sub_eq_of_eq_add hd, hi⟩

/-- **All combinators keep balance.** -/
theorem balanced_kept : Kept input (Balanced input) where
  sequence as h := atomic_balanced (chain_advances as (fun a ha => (h a ha).advances))
  firstOf as h := firstOf_balanced as h
  longestOne as h s := make_balanced h (longest_chosen as as none s h (fun _ ha => ha) (fun _ hp => nomatch hp))
  strictOr tie as h s := make_balanced h (only_chosen tie as as none s h (fun _ ha => ha) (fun _ ha => nomatch ha))
  optional _ h := optional_balanced h
  zeroOrMore _ h := atomic_balanced (repeatedFrom_advances h)
  oneOrMore _ h := oneOrMore_balanced h
  next _ h := next_balanced h.advances
  not m _ h := not_balanced m h.advances
  adjacent m _ h := adjacent_balanced m h
  till _ h := till_balanced h
  leaf m accepts := leaf_balanced m accepts
  endOfInput := endOfInput_balanced

end Attempt

/-- **Whatever a matcher of a grammar attempts is balanced**, with any room to nest rules. -/
theorem Grammar.attempt_balanced (g : Grammar) (input : Input) (room : Nat) (m : Matcher) :
    (m.attempt input (g.enter input room)).Balanced input :=
  g.attempt_kept Attempt.balanced_kept (fun _ _ => ⟨rfl, rfl⟩)
    (fun rule _ h => Attempt.spliced_balanced (Attempt.around_balanced rule h)) room m

end LayeredParse
