import LayeredParse.Proofs.Parse.Nested
/-!
# Heads — left recursion is refused at the nesting limit

The head of a matcher is the rule that it attempts before anything else, where it starts itself (`Form.head?`).  So the
attempt of the head is one of those made during the attempt of the matcher, with as many rules open
(`During.of_head`), and what it fails for good with the matcher fails with.  Where heads lead from rule to rule without
end, the rule that they lead to after as many steps as rules may nest is refused (`parseRule_leftRecursive`).
-/
namespace LayeredParse
namespace Form

variable {ρ : Type}

mutual

/-- **The rule that a form attempts before anything else**, at the index where it is attempted itself.  Adjacency looks at
tokens first, and a leaf or an empty list attempts no rule. -/
def head? : Form ρ → Option RuleKey
  | sequence items | firstOf items | longestOne items | strictOr items => headOf? items
  | optional item | zeroOrMore item | oneOrMore item | next item | not item | till item => head? item
  | adjacent _ | literal _ | regex _ | tokenType _ | anyToken | endOfInput => none
  | rule key => some key

def headOf? : List (Form ρ) → Option RuleKey
  | [] => none
  | item :: _ => head? item

end

end Form

namespace Grammar

variable {g : Grammar} {input : Input} {key called : RuleKey} {n : Nat} {s : State}

/-- The rule that is come to from the one with a key in so many steps, from each rule to the head of its matcher. -/
def headAfter (g : Grammar) (key : RuleKey) : Nat → Option RuleKey
  | 0 => some key
  | n + 1 => (g.headAfter key n).bind fun called => (g.matcher? called).bind Form.head?

theorem headAfter_succ (h : g.headAfter key (n + 1) = some called) :
    ∃ caller rule, g.headAfter key n = some caller ∧ g.rule? caller = some rule ∧ rule.matcher.head? = some called := by
  obtain ⟨caller, hcaller, h⟩ := Option.bind_eq_some_iff.1 h
  obtain ⟨m, hm, hhead⟩ := Option.bind_eq_some_iff.1 h
  obtain ⟨rule, hr, rfl⟩ := Option.map_eq_some_iff.1 hm
  exact ⟨caller, rule, hcaller, hr, hhead⟩

/-- What attempts its items from its own state on, the first of them first, comes to the head of that one. -/
theorem During.of_headOf {items : List Matcher} {whole : Matcher} (h : Form.headOf? items = some key)
    (ih : ∀ m ∈ items, m.head? = some key → g.During input m s (.rule key) s)
    (makes : ∀ m rest, items = m :: rest → g.Makes input whole s m s) : g.During input whole s (.rule key) s := by
  cases items with
  | nil => cases h
  | cons m rest => exact (makes m rest rfl).during (ih m List.mem_cons_self h)

/-- **The head of a matcher is attempted during its attempt**, from the same state. -/
theorem During.of_head {m : Matcher} (h : m.head? = some key) : g.During input m s (.rule key) s := by
  induction m using Form.parts_induction with
  | sequence items ih => exact .of_headOf h ih (by rintro m rest rfl; exact .item .here)
  | firstOf alternatives ih => exact .of_headOf h ih (by rintro m rest rfl; exact .alternative .here)
  | longestOne alternatives ih => exact .of_headOf h ih (by rintro m rest rfl; exact .candidate .here)
  | strictOr alternatives ih => exact .of_headOf h ih (by rintro m rest rfl; exact .contender .here)
  | optional item ih => exact Makes.option.during (ih h)
  | zeroOrMore item ih => exact (Makes.again .refl).during (ih h)
  | oneOrMore item ih => exact Makes.first.during (ih h)
  | next item ih => exact Makes.next.during (ih h)
  | not item ih => exact Makes.not.during (ih h)
  | till terminator ih => exact (Makes.skipping .refl).during (ih h)
  | rule called =>
    cases h
    exact .refl
  | adjacent | literal | regex | tokenType | anyToken | endOfInput => cases h

/-- **Each rule that heads lead to is come to with one more rule open**, as long as rules may nest that deep. -/
theorem During.of_headAfter : ∀ {n : Nat} {called : RuleKey}, g.headAfter key n = some called →
    s.depth + n ≤ input.config.maxDepth → ∃ t, t.depth = s.depth + n ∧ g.During input (.rule key) s (.rule called) t
  | 0, called, h, _ => by
    cases h
    exact ⟨s, rfl, .refl⟩
  | n + 1, called, h, hn => by
    obtain ⟨caller, rule, hcaller, hr, hhead⟩ := headAfter_succ h
    obtain ⟨t, ht, hduring⟩ := During.of_headAfter hcaller (Nat.le_of_succ_le hn)
    have hbody : g.Makes input (.rule caller) t rule.matcher (t.enter rule.name) := .body hr (by omega)
    exact ⟨t.enter rule.name, congrArg (· + 1) ht, hduring.trans (hbody.during (.of_head hhead))⟩

/-- **Left recursion is refused at the nesting limit.**  If the heads lead from a rule to rule after rule without end, then
a parse from it is refused, whatever the tokens are: with any limit, and at the rule that they lead to after as many steps. -/
theorem parseRule_leftRecursive {g : Grammar} {key : RuleKey} (h : ∀ n, (g.headAfter key n).isSome)
    (config : ParserConfig) (tokens : List Token) :
    ∃ last rule, g.headAfter key config.maxDepth = some last ∧ g.rule? last = some rule ∧
      g.parseRule key config tokens = .error (.recursionLimit rule.name config.maxDepth) := by
  let input : Input := { tokens := tokens.toArray, config }
  obtain ⟨following, hfollowing⟩ := Option.isSome_iff_exists.1 (h (config.maxDepth + 1))
  obtain ⟨last, rule, hlast, hr, -⟩ := headAfter_succ hfollowing
  have hlimit : State.depth {} + config.maxDepth ≤ input.config.maxDepth := Nat.le_of_eq (Nat.zero_add _)
  obtain ⟨t, ht, hduring⟩ := During.of_headAfter hlast hlimit
  have hraises : g.Raises input (.rule last) t (.recursionLimit rule.name config.maxDepth) :=
    .deep hr (Nat.le_of_eq (ht.trans (Nat.zero_add _)).symm)
  obtain ⟨j, hfails⟩ := hraises.fails
  obtain ⟨-, j', hfails', -, -⟩ := hduring.unwinds hfails
  exact ⟨last, rule, hlast, hr, (parseRule_fatal hfails').1⟩

/-- A list attempts an item first, which looks for what is no list: neither sees a token before the fourth rule, an item
again, is refused. -/
theorem parseRule_leftRecursive_list : ∃ g : Grammar, (∀ n, (g.headAfter 0 n).isSome) ∧
    ∃ last rule, g.headAfter 0 3 = some last ∧ g.rule? last = some rule ∧ rule.name = "item" ∧
      g.parseRule 0 { maxDepth := 3 } [] = .error (.recursionLimit rule.name 3) := by
  let list : Rule := ⟨"list", .zeroOrMore (.firstOf [.rule 1, .anyToken]), .never⟩
  let item : Rule := ⟨"item", .till (.not (.sequence [.optional (.rule 0), .anyToken])), .never⟩
  let g : Grammar := ⟨#[list, item], 0⟩
  have heads : ∀ n, g.headAfter 0 n = some 0 ∨ g.headAfter 0 n = some 1 := by
    intro n
    induction n with
    | zero => exact .inl rfl
    | succ n ih =>
      rcases ih with h | h
      · exact .inr (by rw [headAfter, h]; rfl)
      · exact .inl (by rw [headAfter, h]; rfl)
  have endless : ∀ n, (g.headAfter 0 n).isSome := by
    intro n
    rcases heads n with h | h <;> rw [h] <;> rfl
  obtain ⟨last, rule, hlast, hr, hrefused⟩ := parseRule_leftRecursive endless { maxDepth := 3 } []
  have hname : rule.name = "item" := by
    cases hlast
    cases hr
    rfl
  exact ⟨g, endless, last, rule, hlast, hr, hname, hrefused⟩

end Grammar
end LayeredParse
