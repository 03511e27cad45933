import LayeredParse.Proofs.Parse.Nested
import LayeredParse.Proofs.Parse.Tiling
/-!
# Skipping — tokens are skipped up to the first match of the terminator

Skipping goes on as if it had started where the tokens skipped so far end (`Attempt.skipTo_skips`).  So it comes to the
first index at which the terminator does not backtrack, and does there what the terminator does.  The trial by which it is
found and the match that is made for good afterwards find the same (`attemptAt_unmoved`).
-/
namespace LayeredParse

namespace Attempt

variable {input : Input} {b : Attempt Forest} {s t : State}

theorem skipTo_skip (h : Skip input b s t) :
    skipTo b (input.size - s.index) s = skipTo b (input.size - t.index) t := by
  obtain ⟨hlt, u, htrial, rfl⟩ := h
  have hindex : u.index = s.index := by simpa [htrial] using trial_index b s
  have hleft : input.size - s.index = input.size - (u.index + 1) + 1 := by omega
  conv_lhs => unfold skipTo
  rw [htrial, hleft]
  rfl

/-- **Skipping goes on from each token that is skipped as it would begin there.** -/
theorem skipTo_skips (h : Relation.ReflTransGen (Skip input b) s t) :
    skipTo b (input.size - s.index) s = skipTo b (input.size - t.index) t := by
  induction h with
  | refl => rfl
  | tail _ hskip ih => exact ih.trans (skipTo_skip hskip)

theorem skippedWords_skips (h : Relation.ReflTransGen (Skip input b) s t) {u : State} (hb : b.Matches t u) :
    skippedWords input b s =
      (.matched [.leaf (words input s.index t.index) s.index t.index], u.goTo t.index) := by
  have hstop : skipTo b (input.size - t.index) t = (.matched (), u.goTo t.index) := by
    unfold skipTo
    rw [trial_eq hb]
  rw [skippedWords, skipTo_skips h, hstop]
  rfl

theorem till_matched {u v : State} {skipped ns : Forest} (hskipped : skippedWords input b s = (.matched skipped, u))
    (hb : b u = (.matched ns, v)) :
    till input b s = (.matched [.branch "till" (skipped ++ ns) s.index v.index false], v) := by
  simp only [till, wrapped, sequence, atomic, chain, hskipped, hb, List.append_nil]

theorem till_backtracks {why : Backtrack} {u : State} (h : skipTo b (input.size - s.index) s = (.backtrack why, u)) :
    till input b s = (.backtrack why, u.goTo s.index) := by
  simp only [till, wrapped, sequence, atomic, chain, skippedWords, h]

end Attempt

namespace Grammar

variable {g : Grammar} {input : Input} {m : Matcher} {s : State} {n : Nat}

/-- Whether the matcher backtracks from each of so many indices, that of the state first. -/
def Misses (g : Grammar) (input : Input) (m : Matcher) (s : State) (n : Nat) : Prop :=
  ∀ k < n, ∃ why t, g.attemptAt input m (s.goTo (s.index + k)) = (.backtrack why, t)

/-- **The tokens at which the terminator backtracks are skipped.** -/
theorem Misses.skips : ∀ {n : Nat}, g.Misses input m s n → n ≤ input.size - s.index →
    ∃ t, Relation.ReflTransGen (Attempt.Skip input (g.attemptAt input m)) s t ∧ State.Unmoved (s.goTo (s.index + n)) t
  | 0, _, _ => ⟨s, .refl, rfl, rfl⟩
  | n + 1, h, hn => by
    obtain ⟨t, hskips, ht⟩ := Misses.skips (fun k hk => h k (Nat.lt_succ_of_lt hk)) (Nat.le_of_succ_le hn)
    obtain ⟨why, u, hu⟩ := h n (Nat.lt_succ_self n)
    obtain ⟨v, hv, -⟩ := attemptAt_unmoved hu ht
    have hindex : t.index = s.index + n := ht.2
    have htrial : Attempt.trial (g.attemptAt input m) t = (.ok none, v.goTo t.index) := by
      rw [Attempt.trial, hv]
    have hbalanced := g.attemptAt_balanced input m t
    rw [hv] at hbalanced
    refine ⟨v.goTo (t.index + 1), hskips.tail ⟨by omega, _, htrial, rfl⟩, hbalanced.1.trans ht.1, ?_⟩
    exact congrArg (· + 1) hindex

/-- **A terminator that fails for good before it has matched fails the skipping**, and the index is back. -/
theorem till_fatal {e : ParseError} {t : State} (hn : n ≤ input.size - s.index) (hmisses : g.Misses input m s n)
    (h : g.attemptAt input m (s.goTo (s.index + n)) = (.fatal e, t)) :
    ∃ u, g.attemptAt input (.till m) s = (.fatal e, u) ∧ u.index = s.index := by
  obtain ⟨start, hskips, hstart⟩ := hmisses.skips hn
  obtain ⟨v, hv, -⟩ := attemptAt_unmoved h hstart
  have hfails : (g.attemptAt input (.till m)).Fails s e v.journal :=
    Attempt.till_fails.2 (.inl ⟨start, hskips, Attempt.fails_iff.2 ⟨v, hv, rfl⟩⟩)
  obtain ⟨u, hu, -⟩ := Attempt.fails_iff.1 hfails
  have hbalanced := g.attemptAt_balanced input (.till m) s
  rw [hu] at hbalanced
  exact ⟨u, hu, hbalanced.2⟩

/-- **All tokens up to the first match of the terminator become words**, and what the terminator matches comes after
them. -/
theorem till_match {ns : Forest} {t : State} (hn : n ≤ input.size - s.index) (hmisses : g.Misses input m s n)
    (h : g.attemptAt input m (s.goTo (s.index + n)) = (.matched ns, t)) :
    ∃ u, u.index = t.index ∧ g.attemptAt input (.till m) s = (.matched [.branch "till"
      (.leaf (Attempt.words input s.index (s.index + n)) s.index (s.index + n) :: ns) s.index t.index false], u) := by
  obtain ⟨start, hskips, hstart⟩ := hmisses.skips hn
  obtain ⟨v, hv, hindex⟩ := attemptAt_unmoved h hstart
  have hskipped := Attempt.skippedWords_skips hskips ⟨ns, hv⟩
  have hbalanced := g.attemptAt_balanced input m start
  rw [hv] at hbalanced
  -- after the trial the terminator is matched once more, from the same place
  obtain ⟨u, hu, hindex'⟩ := attemptAt_unmoved hv (u := v.goTo start.index) ⟨hbalanced.1, rfl⟩
  have hend : u.index = t.index := hindex'.trans hindex
  have hmatched := Attempt.till_matched hskipped hu
  have hfrom : start.index = s.index + n := hstart.2
  rw [hfrom, hend] at hmatched
  exact ⟨u, hend, hmatched⟩

/-- **Without a match of the terminator up to the end of the tokens they are all given back.** -/
theorem till_endless (hmisses : g.Misses input m s (input.size - s.index + 1)) :
    ∃ u, g.attemptAt input (.till m) s = (.backtrack .endOfInput, u) ∧ u.index = s.index := by
  obtain ⟨start, hskips, hstart⟩ := Misses.skips (fun k hk => hmisses k (Nat.lt_succ_of_lt hk)) (Nat.le_refl _)
  obtain ⟨why, t, ht⟩ := hmisses _ (Nat.lt_succ_self _)
  obtain ⟨v, hv, -⟩ := attemptAt_unmoved ht hstart
  have hfrom : start.index = s.index + (input.size - s.index) := hstart.2
  have hnone : input.size - start.index = 0 := by omega
  have hstop : Attempt.skipTo (g.attemptAt input m) (input.size - start.index) start =
      (.backtrack .endOfInput, v.goTo start.index) := by
    rw [hnone, Attempt.skipTo, Attempt.trial, hv]
  exact ⟨_, Attempt.till_backtracks ((Attempt.skipTo_skips hskips).trans hstop), rfl⟩

/-- **Skipping stops at the first match of the terminator.**  The terminator is tried from the index of the state and from
every later one, that after the last token included.  If it backtracks `n` times first and then matches, all is matched
up to where that match ends, in a node of its own: its first child are the `n` tokens before the match as words, their
values with a space after each, and then comes what the terminator matches there.  If it then fails for good instead,
so does the whole.  If it always backtracks, the end of the input is reached and the index is back. -/
theorem attemptAt_till (g : Grammar) (input : Input) (m : Matcher) (s : State) :
    (∀ n ns t, n ≤ input.size - s.index → g.Misses input m s n →
      g.attemptAt input m (s.goTo (s.index + n)) = (.matched ns, t) →
      ∃ words u, g.attemptAt input (.till m) s = (.matched
          [.branch "till" (.leaf words s.index (s.index + n) :: ns) s.index t.index false], u) ∧ u.index = t.index ∧
        words.type = TokenType.words ∧
        words.value = String.join (((List.range' s.index n).filterMap input.read).map fun token => token.value ++ " ")) ∧
    (∀ n e t, n ≤ input.size - s.index → g.Misses input m s n →
      g.attemptAt input m (s.goTo (s.index + n)) = (.fatal e, t) →
      ∃ u, g.attemptAt input (.till m) s = (.fatal e, u) ∧ u.index = s.index) ∧
    (g.Misses input m s (input.size - s.index + 1) →
      ∃ u, g.attemptAt input (.till m) s = (.backtrack .endOfInput, u) ∧ u.index = s.index) := by
  refine ⟨fun n ns t hn hmisses h => ?_, fun n e t hn hmisses h => till_fatal hn hmisses h, till_endless⟩
  obtain ⟨u, hindex, hu⟩ := till_match hn hmisses h
  have hwords : IsWords input (Attempt.words input s.index (s.index + n)) s.index (s.index + n) :=
    isWords_words (Nat.le_add_right _ _) (fun hlt => by omega)
  have hvalue := hwords.value_eq
  rw [Nat.add_sub_cancel_left] at hvalue
  exact ⟨_, u, hu, hindex, hwords.type_eq, hvalue⟩

/-- Two letters are skipped up to a parenthesis with what comes after it, which is matched behind them as the rule's node. -/
theorem attemptAt_till_group : ∃ (g : Grammar) (input : Input) (m : Matcher) (s t : State) (group : Node),
    s.index = 1 ∧ g.Misses input m s 2 ∧ g.attemptAt input m (s.goTo 3) = (.matched [group], t) ∧
      ∃ words u, g.attemptAt input (.till m) s = (.matched [.branch "till" [.leaf words 1 3, group] 1 5 false], u) ∧
        u.index = 5 ∧ words.type = TokenType.words ∧ words.value = "a b " := by
  let letter : String → Token := fun value => ⟨value, TokenType.identifier, 1, 0, ⟨0, 1⟩⟩
  let g : Grammar := ⟨#[⟨"group", .sequence [.literal "(", .anyToken], .never⟩], 0⟩
  let input : Input := { tokens := #[letter "(", letter "a", letter "b", letter "(", letter "c", letter ")"] }
  let s : State := { index := 1 }
  have misses : g.Misses input (.rule 0) s 2 := by
    rintro (_ | _ | k) hk
    · exact ⟨_, _, rfl⟩
    · exact ⟨_, _, rfl⟩
    · omega
  have hmatched : g.attemptAt input (.rule 0) (s.goTo 3) = (.matched [_], _) := rfl
  obtain ⟨words, u, hu, hindex, htype, hvalue⟩ := (attemptAt_till g input (.rule 0) s).1 2 _ _ (by decide) misses hmatched
  exact ⟨g, input, .rule 0, s, _, _, rfl, misses, hmatched, words, u, hu, hindex, htype, hvalue.trans (by decide)⟩

end Grammar
end LayeredParse
