import LayeredParse.Parse.Run
import LayeredParse.Proofs.Parse.Balance
import LayeredParse.Proofs.Parse.Room
import LayeredParse.Proofs.Tree.Descendants
/-!
# Tiling — no token is lost, duplicated or reordered

The nodes of a forest tile a range of indices if each starts where the one before it stops (`Tiled`).  Every match tiles
the indices that it takes, and so do the children of every node in it, down to the leaves, each of which is a token of
the input or the words that were skipped in front of a terminator (`Accounted`).  Read from left to right, the leaves of
a matched rule cover its indices once each (`leaves_indices`, `matchRule_accounts`).
-/
namespace LayeredParse

/-! ## Trees that tile their ranges -/

/-- The nodes lie side by side from `start` to `stop`. -/
inductive Tiled : Nat → Nat → List Node → Prop where
  | nil (start : Nat) : Tiled start start []
  | cons {n : Node} {ns : List Node} {stop : Nat} : Tiled n.stop stop ns → Tiled n.start stop (n :: ns)

variable {input : Input} {a b c : Nat} {ns ms : List Node}

theorem Tiled.append : ∀ {a : Nat} {ns : List Node}, Tiled a b ns → Tiled b c ms → Tiled a c (ns ++ ms)
  | _, _, .nil _, h' => h'
  | _, _, .cons h, h' => .cons (h.append h')

theorem Tiled.one (n : Node) : Tiled n.start n.stop [n] :=
  .cons (.nil _)

theorem Tiled.le : ∀ {a : Nat} {ns : List Node}, Tiled a b ns → (∀ n ∈ ns, n.start ≤ n.stop) → a ≤ b
  | _, _, .nil _, _ => Nat.le_refl _
  | _, n :: _, .cons h, hn =>
    Nat.le_trans (hn n List.mem_cons_self) (h.le (fun m hm => hn m (List.mem_cons_of_mem n hm)))

theorem Tiled.within : ∀ {a b : Nat} {ns : List Node}, Tiled a b ns → (∀ n ∈ ns, n.start ≤ n.stop) → ∀ n ∈ ns,
    a ≤ n.start ∧ n.stop ≤ b
  | _, b, n :: ns, .cons h, hle, m, hm => by
    have hrest := fun k hk => hle k (List.mem_cons_of_mem n hk)
    rcases List.mem_cons.1 hm with rfl | hm
    · exact ⟨Nat.le_refl _, h.le hrest⟩
    · have hm := h.within hrest m hm
      exact ⟨Nat.le_trans (hle n List.mem_cons_self) hm.1, hm.2⟩

theorem Tiled.last (h : Tiled a b ns) {last : Node} (hlast : ns.getLast? = some last) : last.stop = b := by
  induction h with
  | nil start => cases hlast
  | @cons n ns stop h ih =>
    cases ns with
    | nil =>
      cases hlast
      generalize hstop : n.stop = reached at h
      cases h
      exact hstop
    | cons m ns => exact ih hlast

theorem Tiled.flatMap {f : Node → List Node} : ∀ {a b : Nat} {ns : List Node}, Tiled a b ns →
    (∀ n ∈ ns, Tiled n.start n.stop (f n)) → Tiled a b (ns.flatMap f)
  | _, _, _, .nil a, _ => .nil a
  | _, _, n :: ns, .cons h, hf => by
    rw [List.flatMap_cons]
    exact (hf n List.mem_cons_self).append (h.flatMap (fun m hm => hf m (List.mem_cons_of_mem n hm)))

namespace Node

/-- The indices that a node covers. -/
def indices (n : Node) : List Nat :=
  List.range' n.start (n.stop - n.start)

end Node

/-- Nodes side by side cover the indices from where they start to where they stop, in order. -/
theorem Tiled.flatMap_indices : ∀ {a b : Nat} {ns : List Node}, Tiled a b ns → (∀ n ∈ ns, n.start ≤ n.stop) →
    ns.flatMap Node.indices = List.range' a (b - a)
  | a, _, _, .nil _, _ => by rw [Nat.sub_self, List.range'_zero, List.flatMap_nil]
  | _, b, n :: ns, .cons h, hn => by
    have hrest := fun m hm => hn m (List.mem_cons_of_mem n hm)
    have hle := hn n List.mem_cons_self
    have hle' := h.le hrest
    have hsum : n.start + (n.stop - n.start) = n.stop := Nat.add_sub_cancel' hle
    have hsplit : b - n.start = (n.stop - n.start) + (b - n.stop) := by omega
    rw [List.flatMap_cons, h.flatMap_indices hrest, hsplit, ← List.range'_append_1, hsum]
    rfl

/-- The leaf is the token at its only index. -/
def IsToken (input : Input) (token : Token) (start stop : Nat) : Prop :=
  input.read start = some token ∧ stop = start + 1

/-- The leaf is the tokens from `start` to `stop` as words: their values, each followed by a space. -/
structure IsWords (input : Input) (token : Token) (start stop : Nat) : Prop where
  token_eq : token = Attempt.words input start stop
  type_eq : token.type = TokenType.words
  value_eq : token.value = String.join (((List.range' start (stop - start)).filterMap input.read).map (·.value ++ " "))
  le : start ≤ stop
  within : start < stop → stop ≤ input.size

namespace Node

/-- **What a node is made of.**  A leaf is a token or words; what has no token lies where its children lie, side by side.
Words are the first child of a node for what was matched up to a terminator, and never another child. -/
def Accounted (input : Input) : Node → Prop
  | leaf token start stop => IsToken input token start stop ∨ IsWords input token start stop
  | branch name children start stop _ =>
    Tiled start stop children ∧
      ∀ k token start stop, children[k]? = some (.leaf token start stop) →
        IsToken input token start stop ∨ name = "till" ∧ k = 0 ∧ IsWords input token start stop

theorem start_le_stop (n : Node) : (∀ d ∈ n.descendants, d.Accounted input) → n.start ≤ n.stop := by
  induction n with
  | leaf token start stop =>
    intro h
    rcases h _ (mem_descendants_self _) with ⟨_, hstop⟩ | hw
    · exact hstop ▸ Nat.le_succ start
    · exact hw.le
  | branch name children start stop skipped ih =>
    intro h
    obtain ⟨⟨htiled, _⟩, hc⟩ := forall_mem_descendants.1 h
    exact htiled.le (fun c hm => ih c hm (hc c hm))

/-- **The leaves lie side by side where the node lies.** -/
theorem leaves_tiled (n : Node) : (∀ d ∈ n.descendants, d.Accounted input) → Tiled n.start n.stop n.leaves := by
  induction n with
  | leaf token start stop =>
    intro _
    rw [leaves_leaf]
    exact Tiled.one _
  | branch name ns start stop skipped ih =>
    intro h
    obtain ⟨⟨htiled, _⟩, hc⟩ := forall_mem_descendants.1 h
    rw [leaves_branch]
    exact htiled.flatMap (fun c hm => ih c hm (hc c hm))

theorem leaf_start_le_stop {l n : Node} (h : ∀ d ∈ n.descendants, d.Accounted input) (hl : l ∈ n.leaves) :
    l.start ≤ l.stop :=
  start_le_stop l (fun d hd => h d (mem_descendants_trans hd (mem_leaves hl).1))

/-- **The leaves, from left to right, cover every index of the node once.** -/
theorem leaves_indices (n : Node) (h : ∀ d ∈ n.descendants, d.Accounted input) :
    n.leaves.flatMap indices = n.indices :=
  (leaves_tiled n h).flatMap_indices (fun _ hl => leaf_start_le_stop h hl)

end Node

/-! ## Forests that attempts match -/

/-- Whether everything in the tree is accounted for, and the tree is not just words. -/
def Node.Sound (input : Input) (n : Node) : Prop :=
  (∀ d ∈ n.descendants, d.Accounted input) ∧
    ∀ token start stop, n = .leaf token start stop → IsToken input token start stop

/-- **What a match of the indices from `a` to `b` adds to the tree.** -/
def Covers (input : Input) (a b : Nat) (ns : List Node) : Prop :=
  Tiled a b ns ∧ ∀ n ∈ ns, n.Sound input

theorem Covers.nil (a : Nat) : Covers input a a [] :=
  ⟨.nil a, fun _ h => nomatch h⟩

theorem Covers.append (h : Covers input a b ns) (h' : Covers input b c ms) : Covers input a c (ns ++ ms) :=
  ⟨h.1.append h'.1, fun n hn => (List.mem_append.1 hn).elim (h.2 n) (h'.2 n)⟩

theorem Covers.one {n : Node} (h : n.Sound input) : Covers input n.start n.stop [n] :=
  ⟨.one n, fun m hm => by
    rw [List.mem_singleton.1 hm]
    exact h⟩

theorem Covers.token {token : Token} {k : Nat} (h : input.read k = some token) :
    Covers input k (k + 1) [.leaf token k (k + 1)] := by
  refine @Covers.one _ (.leaf token k (k + 1)) ⟨?_, fun token' start stop e => ?_⟩
  · exact Node.forall_mem_descendants.2 ⟨.inl ⟨h, rfl⟩, fun _ hc => nomatch hc⟩
  · cases e
    exact ⟨h, rfl⟩

/-- A node around a match is sound, whatever its name. -/
theorem Covers.sound (h : Covers input a b ns) (name : String) (skipped : Bool) :
    (Node.branch name ns a b skipped).Sound input := by
  refine ⟨Node.forall_mem_descendants.2 ⟨⟨h.1, fun k token start stop hk => ?_⟩, fun c hc => (h.2 c hc).1⟩,
    fun _ _ _ e => nomatch e⟩
  exact .inl ((h.2 _ (List.mem_of_getElem? hk)).2 token start stop rfl)

/-- A node of words and what was matched after them is sound. -/
theorem Covers.sound_till {words : Token} (hw : IsWords input words a b) (h : Covers input b c ns) :
    (Node.branch "till" (.leaf words a b :: ns) a c false).Sound input := by
  have htiled : Tiled a c (.leaf words a b :: ns) := @Tiled.cons (.leaf words a b) ns c h.1
  refine ⟨Node.forall_mem_descendants.2 ⟨⟨htiled, fun k token start stop hk => ?_⟩, fun d hd => ?_⟩,
    fun _ _ _ e => nomatch e⟩
  · cases k with
    | zero =>
      cases hk
      exact .inr ⟨rfl, rfl, hw⟩
    | succ k => exact .inl ((h.2 _ (List.mem_of_getElem? hk)).2 token start stop rfl)
  · rcases List.mem_cons.1 hd with rfl | hd
    · exact Node.forall_mem_descendants.2 ⟨.inr hw, fun _ hc => nomatch hc⟩
    · exact (h.2 d hd).1

/-- A node adds as much to a parent if it gives way to its children. -/
theorem Covers.spliced (h : Covers input a b ns) (name : String) (skipped : Bool) :
    Covers input a b (Node.branch name ns a b skipped).spliced := by
  cases skipped with
  | true => exact h
  | false => exact Covers.one (h.sound name false)

theorem extract_eq_filterMap (tokens : Array Token) (a : Nat) : ∀ (count : Nat),
    (tokens.extract a (a + count)).toList = (List.range' a count).filterMap (tokens[·]?)
  | 0 => by simp
  | count + 1 => by
    rw [List.range'_concat, List.filterMap_append, ← extract_eq_filterMap tokens a count]
    simp only [Array.toList_extract, List.extract_eq_take_drop, Nat.add_sub_cancel_left, List.filterMap_cons,
      List.filterMap_nil, Nat.one_mul, List.take_add_one, List.getElem?_drop, Array.getElem?_toList]
    cases tokens[a + count]? <;> rfl

theorem isWords_words (hle : a ≤ b) (hb : a < b → b ≤ input.size) : IsWords input (Attempt.words input a b) a b where
  token_eq := rfl
  type_eq := by
    unfold Attempt.words
    simp only
    split <;> rfl
  value_eq := by
    have hs := extract_eq_filterMap input.tokens a (b - a)
    rw [Nat.add_sub_cancel' hle] at hs
    unfold Input.read
    rw [← hs]
    unfold Attempt.words
    simp only
    split <;> rfl
  le := hle
  within := hb

namespace Attempt

/-- What the match of a covering attempt leaves from a state. -/
def Covered (input : Input) (s : State) : Answer Forest × State → Prop
  | (.matched ns, t) => Covers input s.index t.index ns
  | (.backtrack _, _) | (.fatal _, _) => True

/-- Whether a match takes the tokens that it passes over into the tree. -/
def Covering (input : Input) (a : Attempt Forest) : Prop :=
  ∀ s, Covered input s (a s)

theorem Covered.after {s t : State} (h : t.index = s.index) : ∀ {r : Answer Forest × State}, Covered input t r →
    Covered input s r
  | (.matched _, _), h' => by
    unfold Covered at h' ⊢
    rw [← h]
    exact h'
  | (.backtrack _, _), _ | (.fatal _, _), _ => trivial

theorem atomic_covering {a : Attempt Forest} (h : Covering input a) : Covering input (atomic a) := by
  intro s
  have ha := h s
  unfold atomic
  generalize a s = r at ha ⊢
  rcases r with ⟨_ | _ | _, t⟩
  · exact ha
  · trivial
  · trivial

theorem chain_covering : ∀ (as : List (Attempt Forest)), (∀ a ∈ as, Covering input a) → Covering input (chain as)
  | [], _, s => Covers.nil s.index
  | a :: rest, h, s => by
    have ha := h a List.mem_cons_self s
    have hrest := chain_covering rest (fun b hb => h b (List.mem_cons_of_mem _ hb))
    unfold chain
    generalize a s = r at ha ⊢
    rcases r with ⟨first | _ | _, t⟩
    · have hr := hrest t
      simp only
      generalize chain rest t = r at hr ⊢
      rcases r with ⟨others | _ | _, u⟩
      · exact ha.append hr
      · trivial
      · trivial
    · trivial
    · trivial

theorem firstOf_covering : ∀ (as : List (Attempt Forest)), (∀ a ∈ as, Balanced input a) → (∀ a ∈ as, Covering input a) →
    Covering input (firstOf as)
  | [], _, _, _ => trivial
  | a :: rest, hb, hc, s => by
    have ha := hb a List.mem_cons_self s
    have ha' := hc a List.mem_cons_self s
    have hrest := firstOf_covering rest (fun b h => hb b (List.mem_cons_of_mem _ h))
      (fun b h => hc b (List.mem_cons_of_mem _ h))
    unfold firstOf
    generalize a s = r at ha ha' ⊢
    rcases r with ⟨_ | _ | _, t⟩
    · exact ha'
    · exact (hrest t).after ha.2
    · trivial

theorem make_covering {as : List (Attempt Forest)} {s : State} (h : ∀ a ∈ as, Covering input a)
    {r : Except ParseError (Option (Attempt Forest)) × State} (hr : Chosen as s r) : Covered input s (make r) := by
  obtain ⟨hl, hm⟩ := hr
  rcases r with ⟨error | _ | a, t⟩
  · trivial
  · trivial
  · exact (h a (hm a rfl) t).after hl.2

theorem optional_covering {a : Attempt Forest} (hb : Balanced input a) (hc : Covering input a) :
    Covering input (optional a) := by
  intro s
  have ha := hb s
  have ha' := hc s
  unfold optional
  generalize a s = r at ha ha' ⊢
  rcases r with ⟨_ | _ | _, t⟩
  · exact ha'
  · exact Covered.after ha.2 (Covers.nil t.index)
  · trivial

theorem repeated_covering {a : Attempt Forest} (hb : Balanced input a) (hc : Covering input a) : ∀ (limit : Nat),
    Covering input (repeated a limit)
  | 0, s => Covers.nil s.index
  | limit + 1, s => by
    have ha := hb s
    have ha' := hc s
    unfold repeated
    generalize a s = r at ha ha' ⊢
    rcases r with ⟨first | _ | _, t⟩
    · simp only
      split
      · exact ha'
      · have hr := repeated_covering hb hc limit t
        generalize repeated a limit t = r at hr ⊢
        rcases r with ⟨others | _ | _, u⟩
        · exact ha'.append hr
        · trivial
        · trivial
    · exact Covered.after ha.2 (Covers.nil t.index)
    · trivial

theorem repeatedFrom_covering {a : Attempt Forest} (hb : Balanced input a) (hc : Covering input a) :
    Covering input (repeatedFrom input a) :=
  fun s => repeated_covering hb hc (input.size - s.index + 1) s

theorem next_covering {a : Attempt Forest} (hb : Balanced input a) : Covering input (next a) := by
  intro s
  have ht := trial_unmoved hb.advances s
  unfold next
  generalize trial a s = r at ht ⊢
  rcases r with ⟨error | _ | reached, t⟩
  · trivial
  · trivial
  · exact Covered.after ht.2 (Covers.nil t.index)

theorem not_covering (m : Matcher) {a : Attempt Forest} (hb : Balanced input a) : Covering input (not m a) := by
  intro s
  have ht := trial_unmoved hb.advances s
  unfold not
  generalize trial a s = r at ht ⊢
  rcases r with ⟨error | _ | reached, t⟩
  · trivial
  · exact Covered.after ht.2 (Covers.nil t.index)
  · trivial

theorem leaf_covering (m : Matcher) (accepts : Token → Bool) : Covering input (leaf input m accepts) := by
  intro s
  unfold leaf
  split
  · rename_i token hread
    split
    · exact Covers.token hread
    · trivial
  · trivial

theorem endOfInput_covering : Covering input (endOfInput input) := by
  intro s
  unfold endOfInput
  split
  · exact Covers.nil s.index
  · trivial

theorem wrapped_covering (name : String) {a : Attempt Forest} (hc : Covering input a) :
    Covering input (wrapped name a) := by
  intro s
  have ha := hc s
  unfold wrapped
  generalize a s = r at ha ⊢
  rcases r with ⟨_ | _ | _, t⟩
  · exact Covers.spliced ha name false
  · trivial
  · trivial

theorem adjacent_covering (m : Matcher) {a : Attempt Forest} (hc : Covering input a) :
    Covering input (adjacent input m a) := by
  intro s
  unfold adjacent
  split
  · split
    · exact wrapped_covering _ hc s
    · trivial
  · trivial
  · trivial

/-- The words in front of a terminator are the only leaf that is not a token, so the node around them is looked at as a
whole. -/
theorem till_covering {a : Attempt Forest} (hb : Balanced input a) (hc : Covering input a) :
    Covering input (till input a) := by
  intro s
  obtain ⟨_, hge, hle⟩ := skipTo_onward hb.advances (input.size - s.index) s
  unfold till wrapped sequence atomic chain skippedWords
  generalize skipTo a (input.size - s.index) s = r at hge hle ⊢
  rcases r with ⟨_ | _ | _, t⟩
  · have ha := hc t
    have hw : IsWords input (words input s.index t.index) s.index t.index :=
      isWords_words hge (fun hlt => by simp only at hle; omega)
    simp only [chain]
    generalize a t = r at ha ⊢
    rcases r with ⟨ns | _ | _, u⟩
    · simp only [List.append_nil, List.singleton_append]
      exact @Covers.one _ (.branch "till" _ s.index u.index false) (Covers.sound_till hw ha)
    · trivial
    · trivial
  · trivial
  · trivial

theorem around_covering (rule : Rule) {a : Attempt Forest} (hc : Covering input a) :
    Covering input (spliced (rule.around a)) := by
  intro s
  have ha := hc (s.enter rule.name)
  unfold spliced Rule.around
  generalize a (s.enter rule.name) = r at ha ⊢
  rcases r with ⟨ns | _ | _, t⟩
  · exact Covers.spliced ha rule.name _
  · trivial
  · trivial

/-- **All combinators keep the index and the tree together.** -/
theorem covering_kept : Kept input (fun a => Balanced input a ∧ Covering input a) where
  sequence as h := ⟨balanced_kept.sequence as (fun a ha => (h a ha).1),
    atomic_covering (chain_covering as (fun a ha => (h a ha).2))⟩
  firstOf as h := ⟨balanced_kept.firstOf as (fun a ha => (h a ha).1),
    firstOf_covering as (fun a ha => (h a ha).1) (fun a ha => (h a ha).2)⟩
  longestOne as h := ⟨balanced_kept.longestOne as (fun a ha => (h a ha).1), fun s =>
    make_covering (fun a ha => (h a ha).2)
      (longest_chosen as as none s (fun a ha => (h a ha).1) (fun _ ha => ha) (fun _ hp => nomatch hp))⟩
  strictOr tie as h := ⟨balanced_kept.strictOr tie as (fun a ha => (h a ha).1), fun s =>
    make_covering (fun a ha => (h a ha).2)
      (only_chosen tie as as none s (fun a ha => (h a ha).1) (fun _ ha => ha) (fun _ ha => nomatch ha))⟩
  optional _ h := ⟨optional_balanced h.1, optional_covering h.1 h.2⟩
  zeroOrMore a h := ⟨balanced_kept.zeroOrMore a h.1, atomic_covering (repeatedFrom_covering h.1 h.2)⟩
  oneOrMore a h := ⟨oneOrMore_balanced h.1, atomic_covering (chain_covering _ (by
    intro b hb
    rcases List.mem_cons.1 hb with rfl | hb
    · exact h.2
    · rw [List.mem_singleton.1 hb]
      exact repeatedFrom_covering h.1 h.2))⟩
  next _ h := ⟨next_balanced h.1.advances, next_covering h.1⟩
  not m _ h := ⟨not_balanced m h.1.advances, not_covering m h.1⟩
  adjacent m _ h := ⟨adjacent_balanced m h.1, adjacent_covering m h.2⟩
  till _ h := ⟨till_balanced h.1, till_covering h.1 h.2⟩
  leaf m accepts := ⟨leaf_balanced m accepts, leaf_covering m accepts⟩
  endOfInput := ⟨endOfInput_balanced, endOfInput_covering⟩

end Attempt

namespace Grammar

/-- **Whatever a matcher of a grammar matches covers the indices that it takes.** -/
theorem attemptAt_covering (g : Grammar) (input : Input) (m : Matcher) : (g.attemptAt input m).Covering input := by
  intro s
  rw [attemptAt_eq]
  exact (g.attempt_kept Attempt.covering_kept (fun _ => ⟨fun _ => ⟨rfl, rfl⟩, fun _ => trivial⟩)
    (fun rule _ h => ⟨Attempt.spliced_balanced (Attempt.around_balanced rule h.1), Attempt.around_covering rule h.2⟩)
    (input.config.maxDepth - s.depth) m).2 s

/-- The node of a rule is a branch over what the rule's matcher matched. -/
theorem matchRule_node {g : Grammar} {input : Input} {key : RuleKey} {s t : State} {node : Node}
    (h : g.matchRule input key s = (.matched node, t)) :
    ∃ (rule : Rule) (ns : List Node), node = rule.node ns s.index t.index ∧ Covers input s.index t.index ns := by
  have hne : ∀ error u, (Answer.fatal error, u) ≠ ((.matched node, t) : Answer Node × State) :=
    fun _ _ e => nomatch (congrArg Prod.fst e)
  cases hr : g.rule? key with
  | none =>
    rw [matchRule, enter_foreign hr] at h
    exact (hne _ _ h).elim
  | some rule =>
    rw [matchRule_eq hr] at h
    split at h
    · exact (hne _ _ h).elim
    · have ha := attemptAt_covering g input rule.matcher (s.enter rule.name)
      unfold Rule.around at h
      generalize g.attemptAt input rule.matcher (s.enter rule.name) = r at ha h
      rcases r with ⟨ns | _ | _, u⟩ <;> cases h
      exact ⟨rule, ns, rfl, ha⟩

/-- A parse succeeds with the tree of a match of all tokens. -/
theorem parseRule_ok {g : Grammar} {key : RuleKey} {config : ParserConfig} {tokens : List Token} {node : Node}
    (h : g.parseRule key config tokens = .ok node) :
    ∃ t, g.matchRule { tokens := tokens.toArray, config } key {} = (.matched node, t) ∧ tokens.length ≤ t.index := by
  dsimp only [parseRule, run] at h
  generalize g.matchRule { tokens := tokens.toArray, config } key {} = r at h ⊢
  rcases r with ⟨node' | _ | _, t⟩
  · dsimp only at h
    split at h
    · rename_i hend
      cases h
      exact ⟨t, rfl, by simpa [State.atEnd, Input.size] using hend⟩
    · cases h
  · cases h
  · cases h

end Grammar

/-- **How a tree accounts for the tokens from `start` to `stop`**: it has no token itself, its node lies there, everything
in it is accounted for, and its leaves cover every index in between once, in order. -/
structure Node.AccountsFor (input : Input) (n : Node) (start stop : Nat) : Prop where
  token?_eq : n.token? = none
  start_eq : n.start = start
  stop_eq : n.stop = stop
  le : start ≤ stop
  accounted : ∀ d ∈ n.descendants, d.Accounted input
  leaves_eq : n.leaves.flatMap Node.indices = List.range' start (stop - start)

theorem Covers.accounts (h : Covers input a b ns) (name : String) (skipped : Bool) :
    (Node.branch name ns a b skipped).AccountsFor input a b where
  token?_eq := rfl
  start_eq := rfl
  stop_eq := rfl
  le := Node.start_le_stop _ (h.sound name skipped).1
  accounted := (h.sound name skipped).1
  leaves_eq := Node.leaves_indices _ (h.sound name skipped).1

/-- **No token is lost, duplicated or reordered.**  The tree of a matched rule accounts for the tokens from the index that
the match started at to the one that it ended at; the tree of a parse accounts for all tokens. -/
theorem Grammar.matchRule_accounts (g : Grammar) (key : RuleKey) :
    (∀ (input : Input) (s t : State) (node : Node), g.matchRule input key s = (.matched node, t) →
      node.AccountsFor input s.index t.index) ∧
    ∀ (config : ParserConfig) (tokens : List Token) (node : Node), g.parseRule key config tokens = .ok node →
      node.AccountsFor { tokens := tokens.toArray, config } 0 tokens.length := by
  have matched : ∀ (input : Input) (s t : State) (node : Node), g.matchRule input key s = (.matched node, t) →
      node.AccountsFor input s.index t.index := by
    intro input s t node h
    obtain ⟨rule, ns, rfl, hc⟩ := matchRule_node h
    exact hc.accounts rule.name _
  refine ⟨matched, fun config tokens node h => ?_⟩
  obtain ⟨t, hm, hend⟩ := parseRule_ok h
  have hb := matchRule_balanced g { tokens := tokens.toArray, config } key {}
  rw [hm] at hb
  have hle : t.index ≤ tokens.length := hb.2.2 (Nat.zero_le _)
  have hall := matched _ _ t node hm
  rw [Nat.le_antisymm hle hend] at hall
  exact hall

/-- A list of items that give way to what they match: a letter, or whatever stands in front of a semicolon, which may be
nothing. -/
theorem Grammar.matchRule_accounts_items : ∃ (g : Grammar) (tokens : List Token) (root item : Node) (t : State),
    g.parseRule 0 {} tokens = .ok root ∧ root.children.map Node.indices = [[0], [1, 2, 3], [4]] ∧
      root.AccountsFor { tokens := tokens.toArray } 0 5 ∧
      g.matchRule { tokens := tokens.toArray } 1 { index := 1 } = (.matched item, t) ∧ t.index = 4 ∧
      item.AccountsFor { tokens := tokens.toArray } 1 4 := by
  let letter : String → Token := fun value => ⟨value, TokenType.identifier, 1, 0, ⟨0, 1⟩⟩
  let item : Rule := ⟨"item", .firstOf [.literal "x", .till (.literal ";")], .ifOnlyOneChild⟩
  let g : Grammar := ⟨#[⟨"items", .zeroOrMore (.rule 1), .never⟩, item], 0⟩
  let tokens : List Token := [letter "x", letter "a", letter "b", letter ";", letter ";"]
  let input : Input := { tokens := tokens.toArray }
  have parsed : (g.parseRule 0 {} tokens).toOption.map (·.children.map Node.indices) = some [[0], [1, 2, 3], [4]] := by
    decide +kernel
  have isMatch : (g.matchRule input 1 { index := 1 }).1.isMatch = true := by decide +kernel
  have stop : (g.matchRule input 1 { index := 1 }).2.index = 4 := by decide +kernel
  cases hp : g.parseRule 0 {} tokens with
  | error e =>
    rw [hp] at parsed
    exact nomatch parsed
  | ok root =>
    rcases hm : g.matchRule input 1 { index := 1 } with ⟨node | _ | _, t⟩ <;> rw [hm] at isMatch stop
    · rw [hp] at parsed
      have accounts := (g.matchRule_accounts 1).1 input { index := 1 } t node hm
      rw [stop] at accounts
      exact ⟨g, tokens, root, node, t, hp, Option.some.inj parsed, (g.matchRule_accounts 0).2 {} tokens root hp, hm, stop,
        accounts⟩
    · exact nomatch isMatch
    · exact nomatch isMatch

end LayeredParse
