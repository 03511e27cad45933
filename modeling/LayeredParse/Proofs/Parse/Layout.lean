import LayeredParse.Parse.Run
import LayeredParse.Proofs.Parse.Agreement
/-!
# Layout — without adjacency it makes no difference where tokens are

Only adjacency looks at lines, columns and ranges.  So a grammar without it (`Grammar.Detached`) does the same with tokens
that are the same but for these (`Token.bare`): it goes through the same states and builds the same tree of them, or fails
with the same error but for where the token that is named there is (`parseRule_layout`).  The token that skipping makes of
several is made of their values alone (`words_bare`).
-/
namespace LayeredParse

/-! ## Tokens, trees and errors, without where tokens are -/

/-- The token, with nothing said of where it is. -/
def Token.bare (t : Token) : Token :=
  { t with line := 0, column := 0, range := ⟨0, 0⟩ }

theorem Token.bare_eq_iff {t u : Token} : t.bare = u.bare ↔ t.value = u.value ∧ t.type = u.type := by
  simp [bare]

namespace Node

mutual

/-- The tree, with nothing said of where its tokens are.  Which of them the nodes cover is kept. -/
def bare : Node → Node
  | leaf token start stop => leaf token.bare start stop
  | branch name children start stop skipped => branch name (bareEach children) start stop skipped

def bareEach : List Node → List Node
  | [] => []
  | n :: ns => bare n :: bareEach ns

end

theorem bareEach_eq_map : ∀ (ns : List Node), bareEach ns = ns.map bare
  | [] => rfl
  | n :: ns => by rw [bareEach, bareEach_eq_map ns, List.map_cons]

theorem bare_branch (name : String) (ns : List Node) (start stop : Nat) (skipped : Bool) :
    (branch name ns start stop skipped).bare = branch name (ns.map bare) start stop skipped := by
  rw [bare, bareEach_eq_map]

theorem spliced_bare (n : Node) : n.bare.spliced = n.spliced.map bare := by
  cases n with
  | leaf token start stop => rfl
  | branch name ns start stop skipped =>
    rw [bare_branch]
    cases skipped with
    | true => rfl
    | false => exact congrArg ([·]) (bare_branch name ns start stop false).symm

end Node

/-- The error, with nothing said of where the token is that was found. -/
def ParseError.bare : ParseError → ParseError
  | unexpectedToken index found _ _ _ expected => unexpectedToken index found 0 0 0 expected
  | unexpectedEnd index expected => unexpectedEnd index expected
  | ambiguousAlternatives index matcher => ambiguousAlternatives index matcher
  | recursionLimit rule limit => recursionLimit rule limit
  | foreignRule key => foreignRule key

/-! ## Tokens laid out in two ways -/

variable {input input' : Input}

/-- **The same tokens but for where they are**, to be parsed with the same configuration. -/
structure Input.Relaid (input input' : Input) : Prop where
  bare_eq : input.tokens.map Token.bare = input'.tokens.map Token.bare
  config_eq : input.config = input'.config

namespace Input.Relaid

theorem size_eq (h : Relaid input input') : input.size = input'.size := by
  have hsize := congrArg Array.size h.bare_eq
  rwa [Array.size_map, Array.size_map] at hsize

theorem read_alike (h : Relaid input input') (i : Nat) :
    Option.Rel (fun t u => t.value = u.value ∧ t.type = u.type) (input.read i) (input'.read i) := by
  have hread := congrArg (·[i]?) h.bare_eq
  simp only [Array.getElem?_map] at hread
  unfold Input.read
  generalize input.tokens[i]? = r at hread ⊢
  generalize input'.tokens[i]? = r' at hread ⊢
  cases r <;> cases r'
  · exact .none
  · cases hread
  · cases hread
  · exact .some (Token.bare_eq_iff.1 (Option.some.inj hread))

/-- The same is wrong in the same state, but for where the token is that was found. -/
theorem failure_bare (h : Relaid input input') (s : State) : (s.failure input).bare = (s.failure input').bare := by
  have hread := h.read_alike s.furthest.index
  unfold State.failure
  dsimp only
  generalize input.read s.furthest.index = r at hread ⊢
  generalize input'.read s.furthest.index = r' at hread ⊢
  cases hread with
  | none => rfl
  | some ht => exact congrArg (ParseError.unexpectedToken _ · 0 0 0 _) ht.1

end Input.Relaid

namespace Attempt

/-- **The token that is made of several is made of their values**, but for where it is. -/
theorem words_bare (input : Input) (start stop : Nat) : (words input start stop).bare =
    ⟨String.join (((input.tokens.map Token.bare).extract start stop).toList.map fun token => token.value ++ " "),
      TokenType.words, 0, 0, ⟨0, 0⟩⟩ := by
  have hvalues : ((input.tokens.map Token.bare).extract start stop).toList.map (fun token => token.value ++ " ") =
      (input.tokens.extract start stop).toList.map (fun token => token.value ++ " ") := by
    rw [← Array.map_extract, Array.toList_map, List.map_map]
    rfl
  rw [hvalues]
  unfold words
  dsimp only
  split <;> rfl

end Attempt

/-! ## The comparison -/

/-- The same states and errors, and trees that are the same but for where their tokens are. -/
def Comparison.layout : Comparison where
  here := 0
  there := 0
  states := Eq
  nodes n n' := n.bare = n'.bare
  forests ns ns' := ns.map Node.bare = ns'.map Node.bare
  errors := Eq
  aside _ := False

namespace Comparison

theorem layout_lockstep (h : Input.Relaid input input') : layout.Lockstep input input' where
  index_eq := by rintro s _ rfl; rfl
  left_eq := by rintro s _ rfl; rw [h.size_eq]
  back := by rintro s _ t _ rfl rfl; rfl
  next := by rintro s _ rfl _; rfl
  miss := by rintro s _ rfl expected; rfl
  nil := rfl
  append {ns ns' ms ms'} hns hms := by
    show (ns ++ ms).map _ = (ns' ++ ms').map _
    rw [List.map_append, List.map_append]
    exact congrArg₂ (· ++ ·) hns hms
  words := by
    rintro s _ t _ rfl rfl
    have hwords : (Attempt.words input s.index t.index).bare = (Attempt.words input' s.index t.index).bare := by
      rw [Attempt.words_bare, Attempt.words_bare, h.bare_eq]
    exact congrArg ([Node.leaf · s.index t.index]) hwords
  branch := by
    rintro s _ t _ ns ns' rfl rfl hns w
    show [(Node.branch w.name ns s.index t.index false).bare] = [(Node.branch w.name ns' s.index t.index false).bare]
    rw [Node.bare_branch, Node.bare_branch, hns]
  tie := by rintro s _ rfl text; rfl

theorem layout_nests (rule : Rule) : layout.Nests rule rule where
  enter := by rintro s _ rfl; rfl
  leave := by rintro s _ rfl matched; rfl
  node := by
    rintro s _ t _ ns ns' rfl rfl hns
    show (rule.node ns s.index t.index).bare = (rule.node ns' s.index t.index).bare
    unfold Rule.node
    rw [rule.policy.skips_of_map_eq hns, Node.bare_branch, Node.bare_branch, hns]

theorem layout_rules (g : Grammar) (h : Input.Relaid input input') : layout.Rules input input' g g := by
  refine rules_self layout_nests (fun {n n'} hn => ?_) (fun _ => rfl) (fun name => ?_)
  · show n.spliced.map _ = n'.spliced.map _
    rw [← Node.spliced_bare, ← Node.spliced_bare]
    exact congrArg Node.spliced hn
  · exact congrArg (fun c => ParseError.recursionLimit name c.maxDepth) h.config_eq

end Comparison

namespace Attempt

/-- A leaf looks at the value and the type of a token only. -/
theorem leaf_layout (h : Input.Relaid input input') (m : Matcher) {accepts : Token → Bool}
    (haccepts : ∀ t u : Token, t.value = u.value → t.type = u.type → accepts t = accepts u) :
    Agree .layout Comparison.layout.forests (leaf input m accepts) (leaf input' m accepts) := by
  rintro s _ rfl
  have hread := h.read_alike s.index
  unfold leaf
  generalize input.read s.index = r at hread ⊢
  generalize input'.read s.index = r' at hread ⊢
  cases hread with
  | none => exact .backtrack rfl
  | @some t u htoken =>
    have hsame := haccepts t u htoken.1 htoken.2
    dsimp only
    by_cases ht : accepts t = true
    · rw [if_pos ht, if_pos (hsame ▸ ht)]
      exact .matched (congrArg ([Node.leaf · s.index (s.index + 1)]) (Token.bare_eq_iff.2 htoken)) rfl
    · rw [if_neg ht, if_neg (hsame ▸ ht)]
      exact .backtrack rfl

end Attempt

/-! ## Grammars without adjacency -/

/-- Whether there is no adjacency in the form. -/
def Form.Detached {ρ : Type} (m : Form ρ) : Prop :=
  ∀ f ∈ m.subforms, ∀ item, f ≠ .adjacent item

instance {ρ : Type} : ∀ f : Form ρ, Decidable (∀ item, f ≠ .adjacent item)
  | .adjacent item => .isFalse fun h => h item rfl
  | .sequence _ | .firstOf _ | .longestOne _ | .strictOr _ | .optional _ | .zeroOrMore _ | .oneOrMore _ | .next _
  | .not _ | .till _ | .literal _ | .regex _ | .tokenType _ | .anyToken | .endOfInput | .rule _ =>
    .isTrue fun _ e => nomatch e

instance {ρ : Type} (m : Form ρ) : Decidable m.Detached :=
  inferInstanceAs (Decidable (∀ f ∈ m.subforms, ∀ item, f ≠ .adjacent item))

/-- Whether there is no adjacency in any rule. -/
def Grammar.Detached (g : Grammar) : Prop :=
  ∀ rule ∈ g.rules, rule.matcher.Detached

instance (g : Grammar) : Decidable g.Detached :=
  inferInstanceAs (Decidable (∀ rule ∈ g.rules, rule.matcher.Detached))

namespace Grammar

open Attempt (Agree)

variable {g : Grammar} {tokens tokens' : List Token}

/-- **A rule of a grammar without adjacency goes through the same states** with the tokens in another layout. -/
theorem enter_layout (hg : g.Detached) (h : Input.Relaid input input') (room : Nat) (key : RuleKey) :
    Agree .layout Comparison.layout.nodes (g.enter input room key) (g.enter input' room key) := by
  refine enter_agree_of (Comparison.layout_rules g h) (fun key rule hr call call' hcall => ?_) room key
  have hlinked := Attempt.agree_linkedApart (Comparison.layout_lockstep h) (fun m _ => Attempt.leaf_layout h m)
  have hdetached : rule.matcher.Detached := hg rule (Array.mem_of_getElem? hr)
  exact Matcher.attempt_linkedApart hlinked hcall rule.matcher (fun f hf item e => (hdetached f hf item e).elim)

/-- **Without adjacency, layout makes no difference.**  With tokens of the same values and types, wherever they are, a
parse from any rule has the same tree but for where the tokens in it are, or the same error but for where the token is
that was found; and what happened during it is the same. -/
theorem parseRule_layout (hg : g.Detached) (key : RuleKey) (config : ParserConfig)
    (h : List.Forall₂ (fun t u : Token => t.value = u.value ∧ t.type = u.type) tokens tokens') :
    ((∃ n n', g.parseRule key config tokens = .ok n ∧ g.parseRule key config tokens' = .ok n' ∧ n.bare = n'.bare) ∨
      ∃ e e', g.parseRule key config tokens = .error e ∧ g.parseRule key config tokens' = .error e' ∧
        e.bare = e'.bare) ∧
    (g.run key config tokens).state = (g.run key config tokens').state := by
  let input : Input := { tokens := tokens.toArray, config }
  let input' : Input := { tokens := tokens'.toArray, config }
  have hrelaid : Input.Relaid input input' := by
    have hbare : tokens.map Token.bare = tokens'.map Token.bare := by
      rw [← List.forall₂_eq_eq_eq, List.forall₂_map_left_iff, List.forall₂_map_right_iff]
      exact h.imp (fun _ _ => Token.bare_eq_iff.2)
    refine ⟨?_, rfl⟩
    show tokens.toArray.map Token.bare = tokens'.toArray.map Token.bare
    rw [List.map_toArray, List.map_toArray, hbare]
  have hagree : Attempt.Alike .layout Comparison.layout.nodes (g.matchRule input key {}) (g.matchRule input' key {}) :=
    enter_layout hg hrelaid config.maxDepth key {} {} rfl
  unfold parseRule run
  dsimp only
  generalize g.matchRule input key {} = r at hagree ⊢
  generalize g.matchRule input' key {} = r' at hagree ⊢
  cases hagree with
  | @matched n n' t _ hn ht =>
    obtain rfl := ht
    have hend : t.atEnd input = t.atEnd input' := by rw [State.atEnd, State.atEnd, hrelaid.size_eq]
    dsimp only
    rw [← hend]
    by_cases hall : t.atEnd input = true
    · rw [if_pos hall, if_pos hall]
      exact ⟨.inl ⟨n, n', rfl, rfl, hn⟩, rfl⟩
    · rw [if_neg hall, if_neg hall]
      exact ⟨.inr ⟨_, _, rfl, rfl, hrelaid.failure_bare _⟩, rfl⟩
  | @backtrack _ t _ ht =>
    obtain rfl := ht
    exact ⟨.inr ⟨_, _, rfl, rfl, hrelaid.failure_bare t⟩, rfl⟩
  | @fatal e _ t _ he ht =>
    obtain rfl := ht
    obtain rfl := he
    exact ⟨.inr ⟨e, e, rfl, rfl, rfl⟩, rfl⟩
  | aside he => exact he.elim

/-- A line up to a semicolon, all in one line or with a line for each word: the tree has the same words in it, with the
semicolon elsewhere.  What comes after a semicolon is wrong at the same index, on the first line or on the second. -/
theorem parseRule_layout_till : ∃ (g : Grammar) (tokens tokens' more more' : List Token), g.Detached ∧
    List.Forall₂ (fun t u : Token => t.value = u.value ∧ t.type = u.type) tokens tokens' ∧
    List.Forall₂ (fun t u : Token => t.value = u.value ∧ t.type = u.type) more more' ∧
    (∃ n n', g.parseRule 0 {} tokens = .ok n ∧ g.parseRule 0 {} tokens' = .ok n' ∧ n.bare = n'.bare ∧
      n.dump = "line\n  till\n    WORDS \"a b \"@1:0\n    end\n      IDENTIFIER \";\"@1:4\n" ∧
      n'.dump = "line\n  till\n    WORDS \"a b \"@1:0\n    end\n      IDENTIFIER \";\"@3:0\n") ∧
    ∃ e e', g.parseRule 0 {} more = .error e ∧ g.parseRule 0 {} more' = .error e' ∧ e.bare = e'.bare ∧
      e = .unexpectedToken 1 "b" 1 1 1 ["end of input"] ∧ e' = .unexpectedToken 1 "b" 2 0 2 ["end of input"] := by
  let letter : String → Nat → Nat → Nat → Token := fun value line column start =>
    ⟨value, TokenType.identifier, line, column, ⟨start, start + 1⟩⟩
  let g : Grammar := ⟨#[⟨"line", .till (.rule 1), .never⟩, ⟨"end", .literal ";", .never⟩], 0⟩
  let tokens : List Token := [letter "a" 1 0 0, letter "b" 1 2 2, letter ";" 1 4 4]
  let tokens' : List Token := [letter "a" 1 0 0, letter "b" 2 0 2, letter ";" 3 0 4]
  let more : List Token := [letter ";" 1 0 0, letter "b" 1 1 1]
  let more' : List Token := [letter ";" 1 0 0, letter "b" 2 0 2]
  have detached : g.Detached := by decide
  have relaid : List.Forall₂ (fun t u : Token => t.value = u.value ∧ t.type = u.type) tokens tokens' := by decide
  have relaid' : List.Forall₂ (fun t u : Token => t.value = u.value ∧ t.type = u.type) more more' := by decide
  have dump : (g.parseRule 0 {} tokens).toOption.map Node.dump =
      some "line\n  till\n    WORDS \"a b \"@1:0\n    end\n      IDENTIFIER \";\"@1:4\n" := by decide +kernel
  have dump' : (g.parseRule 0 {} tokens').toOption.map Node.dump =
      some "line\n  till\n    WORDS \"a b \"@1:0\n    end\n      IDENTIFIER \";\"@3:0\n" := by decide +kernel
  have wrong : g.parseRule 0 {} more = .error (.unexpectedToken 1 "b" 1 1 1 ["end of input"]) := rfl
  have wrong' : g.parseRule 0 {} more' = .error (.unexpectedToken 1 "b" 2 0 2 ["end of input"]) := rfl
  refine ⟨g, tokens, tokens', more, more', detached, relaid, relaid', ?_, ?_⟩
  · rcases (parseRule_layout detached 0 {} relaid).1 with ⟨n, n', hn, hn', hbare⟩ | ⟨e, -, he, -⟩
    · rw [hn] at dump
      rw [hn'] at dump'
      exact ⟨n, n', hn, hn', hbare, Option.some.inj dump, Option.some.inj dump'⟩
    · rw [he] at dump
      cases dump
  · rcases (parseRule_layout detached 0 {} relaid').1 with ⟨n, -, hn, -⟩ | ⟨e, e', he, he', hbare⟩
    · cases wrong.symm.trans hn
    · exact ⟨e, e', he, he', hbare, Except.error.inj (he.symm.trans wrong), Except.error.inj (he'.symm.trans wrong')⟩

end Grammar
end LayeredParse
