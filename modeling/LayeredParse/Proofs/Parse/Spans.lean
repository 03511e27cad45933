import LayeredParse.Proofs.Lex.Positions
import LayeredParse.Proofs.Parse.Tiling
/-!
# Spans — which characters a tree has

The leaves of a node tile it (`leaves_tiled`), and each has the characters of the tokens that it covers (`leaf_spans`),
unless it covers none: the words in front of a terminator may be no words, and those have the characters from 0 to 0,
wherever they are.  So a node has the characters of its tokens, and is where the first of them is, as long as it neither
begins nor ends with no words (`parseText_spans`).
-/
namespace LayeredParse

variable {input : Input} {token : Token} {start stop : Nat}

/-! ## The characters of a leaf -/

/-- The range goes from the token at `start` to the one before `stop`. -/
def Spans (input : Input) (start stop : Nat) (range : Span) : Prop :=
  ∃ first last, input.read start = some first ∧ input.read (stop - 1) = some last ∧
    range = ⟨first.range.start, last.range.stop⟩

theorem IsToken.spans (h : IsToken input token start stop) : Spans input start stop token.range := by
  obtain ⟨hread, rfl⟩ := h
  exact ⟨token, token, hread, hread, rfl⟩

theorem words_blank (input : Input) (h : stop ≤ start) :
    Attempt.words input start stop = ⟨"", TokenType.words, 0, 0, ⟨0, 0⟩⟩ := by
  have hnone : (input.tokens.extract start stop).toList = [] := by
    rw [Array.toList_extract, List.extract_eq_take_drop, Nat.sub_eq_zero_of_le h, List.take_zero]
  unfold Attempt.words
  rw [hnone]
  rfl

theorem words_range {first last : Token} (hlt : start < stop) (hfirst : input.read start = some first)
    (hlast : input.read (stop - 1) = some last) :
    (Attempt.words input start stop).range = first.range.cover last.range := by
  have hcount : stop - start ≠ 0 := by omega
  have hindex : start + (stop - start - 1) = stop - 1 := by omega
  have hhead : (input.tokens.extract start stop).toList.head? = some first := by
    rw [Array.toList_extract, List.extract_eq_take_drop, List.head?_take, if_neg hcount, List.head?_drop,
      Array.getElem?_toList]
    exact hfirst
  have htail : (input.tokens.extract start stop).toList.getLast? = some last := by
    rw [Array.toList_extract, List.extract_eq_take_drop, List.getLast?_take, if_neg hcount, List.getElem?_drop, hindex,
      Array.getElem?_toList]
    show (input.read (stop - 1)).or _ = some last
    rw [hlast]
    rfl
  unfold Attempt.words
  simp only [hhead, htail]

theorem exists_read {k : Nat} (h : k < input.size) : ∃ t, input.read k = some t :=
  ⟨_, Array.getElem?_eq_getElem h⟩

theorem InOrder.read_le (hin : InOrder input.tokens.toList) {i j : Nat} (hij : i ≤ j) {a b : Token}
    (hi : input.read i = some a) (hj : input.read j = some b) :
    a.range.start ≤ b.range.start ∧ a.range.stop ≤ b.range.stop := by
  unfold Input.read at hi hj
  rw [← Array.getElem?_toList] at hi hj
  exact hin.le hij hi hj

theorem InOrder.read_stop_le (hin : InOrder input.tokens.toList) {i j : Nat} (hij : i < j) {a b : Token}
    (hi : input.read i = some a) (hj : input.read j = some b) : a.range.stop ≤ b.range.start := by
  unfold Input.read at hi hj
  rw [← Array.getElem?_toList] at hi hj
  exact hin.stop_le hij hi hj

theorem IsWords.spans (hin : InOrder input.tokens.toList) (h : IsWords input token start stop) (hlt : start < stop) :
    Spans input start stop token.range := by
  have hstop := h.within hlt
  obtain ⟨first, hfirst⟩ := exists_read (Nat.lt_of_lt_of_le hlt hstop)
  obtain ⟨last, hlast⟩ := exists_read (Nat.lt_of_lt_of_le (Nat.sub_lt (Nat.zero_lt_of_lt hlt) Nat.one_pos) hstop)
  have hle := hin.read_le (Nat.le_sub_one_of_lt hlt) hfirst hlast
  refine ⟨first, last, hfirst, hlast, ?_⟩
  rw [h.token_eq, words_range hlt hfirst hlast, Span.cover, Nat.min_eq_left hle.1, Nat.max_eq_right hle.2]

namespace Node

/-- Whether the node covers no token. -/
def Blank (n : Node) : Prop :=
  n.stop ≤ n.start

instance (n : Node) : Decidable n.Blank :=
  inferInstanceAs (Decidable (n.stop ≤ n.start))

/-- A leaf has the characters of the tokens that it covers, or is no words. -/
theorem leaf_spans (hin : InOrder input.tokens.toList) {n leaf : Node} (h : ∀ d ∈ n.descendants, d.Accounted input)
    (hl : leaf ∈ n.leaves) : ∃ token, leaf.token? = some token ∧
      (¬leaf.Blank → Spans input leaf.start leaf.stop token.range) ∧
      (leaf.Blank → token = ⟨"", TokenType.words, 0, 0, ⟨0, 0⟩⟩) := by
  obtain ⟨hmem, token, start, stop, rfl⟩ := mem_leaves hl
  refine ⟨token, rfl, fun hfull => ?_, fun hblank => ?_⟩
  · rcases h _ hmem with ht | hw
    · exact ht.spans
    · exact hw.spans hin (Nat.lt_of_not_le hfull)
  · rcases h _ hmem with ht | hw
    · have hstop : stop ≤ start := hblank
      have := ht.2
      omega
    · rw [hw.token_eq]
      exact words_blank input hblank

/-- The leaves of a node that covers tokens begin and end where it does. -/
theorem exists_ends {n : Node} (h : ∀ d ∈ n.descendants, d.Accounted input) (hne : n.start < n.stop) :
    ∃ first last, n.leaves.head? = some first ∧ n.leaves.getLast? = some last ∧ first.start = n.start ∧
      first.stop ≤ n.stop ∧ n.start ≤ last.start ∧ last.stop = n.stop := by
  have htiled := leaves_tiled n h
  have hwithin := htiled.within (fun _ hl => leaf_start_le_stop h hl)
  generalize n.leaves = leaves at htiled hwithin
  generalize n.start = i at htiled hwithin hne
  cases htiled with
  | nil => exact (Nat.lt_irrefl _ hne).elim
  | @cons first rest _ hrest =>
    obtain ⟨last, hlast⟩ : ∃ last, (first :: rest).getLast? = some last := ⟨_, List.getLast?_cons⟩
    have hstop := Tiled.last (.cons hrest) hlast
    have hfirst := hwithin first List.mem_cons_self
    have hmem := hwithin last (List.mem_of_getLast? hlast)
    exact ⟨first, last, List.head?_cons, hlast, rfl, hfirst.2, hmem.1, hstop⟩

/-- Every index that a node covers is one of a token. -/
theorem read_covered {n : Node} (h : ∀ d ∈ n.descendants, d.Accounted input) {k : Nat} (hge : n.start ≤ k)
    (hlt : k < n.stop) : ∃ t, input.read k = some t := by
  have hk : k ∈ n.leaves.flatMap indices := by
    rw [leaves_indices n h, indices, List.mem_range'_1]
    omega
  obtain ⟨leaf, hl, hk⟩ := List.mem_flatMap.1 hk
  obtain ⟨hmem, token, start, stop, rfl⟩ := mem_leaves hl
  obtain ⟨hge, hlt⟩ : start ≤ k ∧ k < start + (stop - start) := List.mem_range'_1.1 hk
  rcases h _ hmem with ⟨hread, rfl⟩ | hw
  · exact ⟨token, by rwa [show k = start by omega]⟩
  · exact exists_read (Nat.lt_of_lt_of_le (by omega) (hw.within (by omega)))

theorem textRange?_eq {n first last : Node} {x y : Token} (hfirst : n.leaves.head? = some first)
    (hlast : n.leaves.getLast? = some last) (hx : first.token? = some x) (hy : last.token? = some y) :
    n.textRange? = some (x.range.cover y.range) := by
  rw [textRange?, firstToken?_eq hfirst, lastToken?_eq hlast, hx, hy]

end Node

/-! ## What the text has of a node -/

/-- The tokens of the text. -/
def ParsedText.lexed (p : ParsedText) : Input :=
  { tokens := (lex p.text.toString).toArray }

/-- **Which characters a node has, and where it is said to be**, if `first` and `last` are its first and its last leaf,
and `a` and `b` are the first and the last token that it covers.  Where it begins or ends with no words, these stand in
for a token at the start of the text. -/
structure ParsedText.Shows (p : ParsedText) (n first last : Node) (a b : Token) : Prop where
  location_eq : p.nodeLocation n = p.text.location (if first.Blank then 0 else a.range.start)
  range_full : ¬first.Blank → ¬last.Blank → n.textRange? = some ⟨a.range.start, b.range.stop⟩
  range_first : first.Blank → n.textRange? = some ⟨0, if last.Blank then 0 else b.range.stop⟩
  range_last : ¬first.Blank → last.Blank → ∃ c, p.lexed.read (first.stop - 1) = some c ∧
    n.textRange? = some ⟨0, c.range.stop⟩

theorem Span.cover_blank_left (range : Span) : Span.cover ⟨0, 0⟩ range = ⟨0, range.stop⟩ := by
  rw [Span.cover, Nat.zero_min, Nat.zero_max]

theorem Span.cover_blank_right (range : Span) : range.cover ⟨0, 0⟩ = ⟨0, range.stop⟩ := by
  rw [Span.cover, Nat.min_zero, Nat.max_zero]

namespace ParsedText

theorem lexed_inOrder (p : ParsedText) : InOrder p.lexed.tokens.toList :=
  lex_inOrder p.text.toString

/-- A node that covers tokens has a first and a last one, and a first and a last leaf. -/
theorem exists_shows (p : ParsedText) {n : Node} (h : ∀ d ∈ n.descendants, d.Accounted p.lexed)
    (hne : n.start < n.stop) :
    ∃ first last a b, n.leaves.head? = some first ∧ n.leaves.getLast? = some last ∧ first.stop ≤ n.stop ∧
      p.lexed.read n.start = some a ∧ p.lexed.read (n.stop - 1) = some b ∧ p.Shows n first last a b := by
  have hin := p.lexed_inOrder
  obtain ⟨first, last, hfirst, hlast, hstart, hfits, hlater, hstop⟩ := Node.exists_ends h hne
  obtain ⟨a, ha⟩ := Node.read_covered h (Nat.le_refl _) hne
  obtain ⟨b, hb⟩ := Node.read_covered h (Nat.le_sub_one_of_lt hne) (Nat.sub_lt (Nat.zero_lt_of_lt hne) Nat.one_pos)
  obtain ⟨x, hx, hxspans, hxblank⟩ := Node.leaf_spans hin h (List.mem_of_head? hfirst)
  obtain ⟨y, hy, hyspans, hyblank⟩ := Node.leaf_spans hin h (List.mem_of_getLast? hlast)
  have hrange := Node.textRange?_eq hfirst hlast hx hy
  -- what is known of the leaf at either end, read at the tokens of the node
  have hxrange : ¬first.Blank → ∃ c, p.lexed.read (first.stop - 1) = some c ∧ x.range = ⟨a.range.start, c.range.stop⟩ := by
    intro hfull
    obtain ⟨a', c, ha', hc, hx⟩ := hxspans hfull
    rw [hstart, ha] at ha'
    cases ha'
    exact ⟨c, hc, hx⟩
  have hyrange : ¬last.Blank → ∃ d, p.lexed.read last.start = some d ∧ y.range = ⟨d.range.start, b.range.stop⟩ := by
    intro hfull
    obtain ⟨d, b', hd, hb', hy⟩ := hyspans hfull
    rw [hstop, hb] at hb'
    cases hb'
    exact ⟨d, hd, hy⟩
  refine ⟨first, last, a, b, hfirst, hlast, hfits, ha, hb, ⟨?_, fun hf hl => ?_, fun hf => ?_, fun hf hl => ?_⟩⟩
  · have hlocation : p.nodeLocation n = p.text.location x.range.start := by
      rw [nodeLocation, Node.firstToken?_eq hfirst, hx]
      rfl
    rw [hlocation]
    by_cases hf : first.Blank
    · rw [if_pos hf, hxblank hf]
    · obtain ⟨c, -, hx⟩ := hxrange hf
      rw [if_neg hf, hx]
  · obtain ⟨c, hc, hx⟩ := hxrange hf
    obtain ⟨d, hd, hy⟩ := hyrange hl
    have hbefore := (hin.read_le hlater ha hd).1
    have hafter := (hin.read_le (Nat.sub_le_sub_right hfits 1) hc hb).2
    rw [hrange, hx, hy, Span.cover, Nat.min_eq_left hbefore, Nat.max_eq_right hafter]
  · rw [hrange, hxblank hf, Span.cover_blank_left]
    by_cases hl : last.Blank
    · rw [if_pos hl, hyblank hl]
    · obtain ⟨d, -, hy⟩ := hyrange hl
      rw [if_neg hl, hy]
  · obtain ⟨c, hc, hx⟩ := hxrange hf
    exact ⟨c, hc, by rw [hrange, hyblank hl, Span.cover_blank_right, hx]⟩

/-- **A node has the characters of its tokens and is where the first of them is exactly if** it neither begins nor ends
with no words, or the text begins with it and the words that it begins or ends with make no difference. -/
theorem Shows.iff {p : ParsedText} {n first last : Node} {a b : Token} (h : p.Shows n first last a b)
    (hfits : first.stop ≤ n.stop) (hb : p.lexed.read (n.stop - 1) = some b) :
    (n.textRange? = some ⟨a.range.start, b.range.stop⟩ ∧ p.nodeLocation n = p.text.location a.range.start) ↔
      ¬first.Blank ∧ ¬last.Blank ∨ a.range.start = 0 ∧ (¬last.Blank ∨ ¬first.Blank ∧ first.stop = n.stop) := by
  have hin := p.lexed_inOrder
  have hpos := hin.nonempty b (List.mem_of_getElem? (Array.getElem?_toList.trans hb))
  have hlocation := h.location_eq
  by_cases hf : first.Blank
  · rw [if_pos hf] at hlocation
    rw [h.range_first hf, hlocation]
    by_cases hl : last.Blank
    · have hnever : 0 ≠ b.range.stop := by omega
      simp [hf, hl, hnever]
    · have hzero : 0 = a.range.start ∧ p.text.location 0 = p.text.location a.range.start ↔ a.range.start = 0 :=
        ⟨fun e => e.1.symm, fun e => by rw [e]; exact ⟨rfl, rfl⟩⟩
      simpa [hf, hl] using hzero
  · rw [if_neg hf] at hlocation
    by_cases hl : last.Blank
    · obtain ⟨c, hc, hrange⟩ := h.range_last hf hl
      have hend : c.range.stop = b.range.stop ↔ first.stop = n.stop := by
        constructor
        · intro hsame
          by_contra hne
          have hpositive : first.start < first.stop := Nat.lt_of_not_le hf
          have hbefore := hin.read_stop_le (show first.stop - 1 < n.stop - 1 by omega) hc hb
          omega
        · intro hsame
          rw [hsame, hb] at hc
          cases hc
          rfl
      rw [hrange, hlocation]
      simp [hf, hl, hend, @eq_comm Nat 0 a.range.start]
    · rw [h.range_full hf hl, hlocation]
      simp [hf, hl]

end ParsedText

/-- What was parsed from a text is made of the tokens of the text. -/
theorem Grammar.parseText_ok {g : Grammar} {text : Text} {p : ParsedText} (h : g.parseText text = .ok p) :
    p.text = text ∧ ∀ d ∈ p.root.descendants, d.Accounted p.lexed := by
  unfold parseText at h
  cases hroot : g.parse (lex text.toString) with
  | error e =>
    rw [hroot] at h
    cases h
  | ok root =>
    rw [hroot] at h
    cases h
    obtain ⟨t, hmatched, -⟩ := parseRule_ok hroot
    obtain ⟨rule, ns, rfl, hcovers⟩ := matchRule_node hmatched
    exact ⟨rfl, (hcovers.sound rule.name _).1⟩

/-- **Which characters a node of a parsed text has, and where it is said to be.**  A node that covers tokens, the first of
them `a` and the last `b`, has the characters from the first of `a` to the last of `b` and is where `a` is, unless its
first or its last leaf covers no token.  Such a leaf is the words in front of a terminator that is reached at once, and
stands in for a token at the start of the text, even if the node is not there. -/
theorem Grammar.parseText_spans {g : Grammar} {text : Text} {p : ParsedText} (h : g.parseText text = .ok p) {n : Node}
    (hn : n ∈ p.root.descendants) (hne : n.start < n.stop) :
    ∃ first last a b, n.leaves.head? = some first ∧ n.leaves.getLast? = some last ∧
      (lex text.toString)[n.start]? = some a ∧ (lex text.toString)[n.stop - 1]? = some b ∧
      p.Shows n first last a b ∧
      ((n.textRange? = some ⟨a.range.start, b.range.stop⟩ ∧ p.nodeLocation n = text.location a.range.start) ↔
        ¬first.Blank ∧ ¬last.Blank ∨ a.range.start = 0 ∧ (¬last.Blank ∨ ¬first.Blank ∧ first.stop = n.stop)) ∧
      ∀ leaf ∈ n.leaves, leaf.Blank → leaf.token? = some ⟨"", TokenType.words, 0, 0, ⟨0, 0⟩⟩ := by
  obtain ⟨rfl, haccounted⟩ := parseText_ok h
  have hbelow : ∀ d ∈ n.descendants, d.Accounted p.lexed :=
    fun d hd => haccounted d (Node.mem_descendants_trans hd hn)
  obtain ⟨first, last, a, b, hfirst, hlast, hfits, ha, hb, hshows⟩ := p.exists_shows hbelow hne
  refine ⟨first, last, a, b, hfirst, hlast, ?_, ?_, hshows, hshows.iff hfits hb, fun leaf hl hblank => ?_⟩
  · rw [← List.getElem?_toArray]
    exact ha
  · rw [← List.getElem?_toArray]
    exact hb
  · obtain ⟨token, htoken, -, hwords⟩ := Node.leaf_spans p.lexed_inOrder hbelow hl
    rw [htoken, hwords hblank]

/-- A letter, and whatever stands in front of a semicolon, which is nothing: the node covers the semicolon alone, which is
in another file than the letter, but has the characters from the letter on and is said to be where the letter is. -/
theorem Grammar.parseText_spans_nothing : ∃ (g : Grammar) (text : Text) (p : ParsedText) (n : Node) (semicolon : Token),
    g.parseText text = .ok p ∧ n ∈ p.root.descendants ∧ n.indices = [1] ∧
      (lex text.toString)[1]? = some semicolon ∧ semicolon.range = ⟨2, 3⟩ ∧ n.textRange? = some ⟨0, 3⟩ ∧
      text.location semicolon.range.start = some (.source ⟨some "b.h", 1, 1⟩) ∧
      p.nodeLocation n = some (.source ⟨some "a.h", 1, 1⟩) := by
  let g : Grammar := ⟨#[⟨"r", .sequence [.literal "x", .rule 1], .never⟩, ⟨"rest", .till (.literal ";"), .never⟩], 0⟩
  let text : Text := .composite [.located "a.h" "x ", .located "b.h" ";"]
  let x : Token := ⟨"x", TokenType.identifier, 1, 0, ⟨0, 1⟩⟩
  let semicolon : Token := ⟨";", TokenType.punctuator, 1, 2, ⟨2, 3⟩⟩
  let words : Node := .leaf ⟨"", TokenType.words, 0, 0, ⟨0, 0⟩⟩ 1 1
  let rest : Node := .branch "rest" [.branch "till" [words, .leaf semicolon 1 2] 1 2 false] 1 2 false
  let root : Node := .branch "r" [.leaf x 0 1, rest] 0 2 false
  have hlex : lex text.toString = [x, semicolon] := by decide +kernel
  have hparse : g.parseText text = .ok ⟨root, text⟩ := by
    rw [Grammar.parseText, hlex]
    rfl
  have hmem : rest ∈ root.descendants := by
    rw [Node.descendants_eq]
    exact List.mem_cons_of_mem _ (List.mem_flatMap.2 ⟨rest, List.mem_cons_of_mem _ List.mem_cons_self,
      Node.mem_descendants_self rest⟩)
  have hleaves : rest.leaves = [words, .leaf semicolon 1 2] := by
    rw [Node.leaves_branch, List.flatMap_singleton, Node.leaves_branch, List.flatMap_cons, List.flatMap_singleton,
      Node.leaves_leaf, Node.leaves_leaf]
    rfl
  obtain ⟨first, last, a, b, hfirst, hlast, -, hb, hshows, -⟩ := Grammar.parseText_spans hparse hmem Nat.one_lt_two
  rw [hlex] at hb
  rw [hleaves] at hfirst hlast
  obtain rfl : semicolon = b := Option.some.inj hb
  obtain rfl : words = first := Option.some.inj hfirst
  obtain rfl : .leaf semicolon 1 2 = last := Option.some.inj hlast
  have hblank : words.Blank := Nat.le_refl 1
  have hlocation := hshows.location_eq
  rw [if_pos hblank] at hlocation
  refine ⟨g, text, ⟨root, text⟩, rest, semicolon, hparse, hmem, rfl, by rw [hlex]; rfl, rfl, hshows.range_first hblank, ?_,
    hlocation.trans ?_⟩
  · decide +kernel
  · decide +kernel

end LayeredParse
