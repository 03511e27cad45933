import LayeredParse.Grammar.Basic
import Mathlib.Data.Finset.Card
import Mathlib.Data.Finset.Range
import Mathlib.Logic.Relation
/-!
# LeftCalls — which rules a rule can enter before it takes a token

Both are read off the form of the matchers: whether a matcher can match without taking a token (`Grammar.Nullable`), and
which rules it can come to before it has taken one (`Grammar.LeadsTo`).  If no rule can come back to itself like that,
the rules have ranks below their number, and a rule that is come to has a lower one (`rank_lt_rank`).
-/
namespace LayeredParse
namespace Grammar

/-- **Whether a matcher may match without taking a token**, as far as its form tells. -/
inductive Nullable (g : Grammar) : Matcher → Prop where
  | sequence {items : List Matcher} : (∀ m ∈ items, Nullable g m) → Nullable g (.sequence items)
  | firstOf {alternatives : List Matcher} {m : Matcher} : m ∈ alternatives → Nullable g m →
      Nullable g (.firstOf alternatives)
  | longestOne {alternatives : List Matcher} {m : Matcher} : m ∈ alternatives → Nullable g m →
      Nullable g (.longestOne alternatives)
  | strictOr {alternatives : List Matcher} {m : Matcher} : m ∈ alternatives → Nullable g m →
      Nullable g (.strictOr alternatives)
  | optional (item : Matcher) : Nullable g (.optional item)
  | zeroOrMore (item : Matcher) : Nullable g (.zeroOrMore item)
  | oneOrMore {item : Matcher} : Nullable g item → Nullable g (.oneOrMore item)
  | next (item : Matcher) : Nullable g (.next item)
  | not (item : Matcher) : Nullable g (.not item)
  | adjacent {item : Matcher} : Nullable g item → Nullable g (.adjacent item)
  | till {terminator : Matcher} : Nullable g terminator → Nullable g (.till terminator)
  | endOfInput : Nullable g .endOfInput
  | rule {key : RuleKey} {rule : Rule} : g.rule? key = some rule → Nullable g rule.matcher → Nullable g (.rule key)

/-- **Whether a matcher may come to a rule before it has taken a token**, as far as its form tells: an item of a sequence is
come to if the items before it may match without taking one, an alternative or the only item always. -/
inductive LeadsTo (g : Grammar) (key : RuleKey) : Matcher → Prop where
  | rule : LeadsTo g key (.rule key)
  | sequence {before after : List Matcher} {m : Matcher} : (∀ n ∈ before, g.Nullable n) → LeadsTo g key m →
      LeadsTo g key (.sequence (before ++ m :: after))
  | firstOf {alternatives : List Matcher} {m : Matcher} : m ∈ alternatives → LeadsTo g key m →
      LeadsTo g key (.firstOf alternatives)
  | longestOne {alternatives : List Matcher} {m : Matcher} : m ∈ alternatives → LeadsTo g key m →
      LeadsTo g key (.longestOne alternatives)
  | strictOr {alternatives : List Matcher} {m : Matcher} : m ∈ alternatives → LeadsTo g key m →
      LeadsTo g key (.strictOr alternatives)
  | optional {item : Matcher} : LeadsTo g key item → LeadsTo g key (.optional item)
  | zeroOrMore {item : Matcher} : LeadsTo g key item → LeadsTo g key (.zeroOrMore item)
  | oneOrMore {item : Matcher} : LeadsTo g key item → LeadsTo g key (.oneOrMore item)
  | next {item : Matcher} : LeadsTo g key item → LeadsTo g key (.next item)
  | not {item : Matcher} : LeadsTo g key item → LeadsTo g key (.not item)
  | adjacent {item : Matcher} : LeadsTo g key item → LeadsTo g key (.adjacent item)
  | till {terminator : Matcher} : LeadsTo g key terminator → LeadsTo g key (.till terminator)

/-- Whether a rule may come to another one before it has taken a token. -/
def LeftCalls (g : Grammar) (caller callee : RuleKey) : Prop :=
  ∃ rule, g.rule? caller = some rule ∧ g.LeadsTo callee rule.matcher

/-- Whether a rule may come back to itself before it has taken a token. -/
def LeftRecursive (g : Grammar) : Prop :=
  ∃ key, Relation.TransGen g.LeftCalls key key

variable {g : Grammar} {key : RuleKey} {m : Matcher} {ms : List Matcher}

theorem leadsTo_cons : g.LeadsTo key (.sequence (m :: ms)) ↔
    g.LeadsTo key m ∨ g.Nullable m ∧ g.LeadsTo key (.sequence ms) := by
  constructor
  · intro h
    generalize hitems : m :: ms = items at h
    cases h with
    | @sequence before after n hbefore hn =>
      cases before with
      | nil =>
        cases hitems
        exact .inl hn
      | cons first before =>
        cases hitems
        obtain ⟨hfirst, hbefore⟩ := List.forall_mem_cons.1 hbefore
        exact .inr ⟨hfirst, .sequence hbefore hn⟩
  · rintro (h | ⟨hm, h⟩)
    · exact @LeadsTo.sequence g key [] ms m (fun _ hn => nomatch hn) h
    · cases h with
      | @sequence before after n hbefore hn =>
        exact @LeadsTo.sequence g key (m :: before) after n (List.forall_mem_cons.2 ⟨hm, hbefore⟩) hn

/-- Where every rule comes to later rules only, none comes back to itself. -/
theorem not_leftRecursive (h : ∀ caller callee, g.LeftCalls caller callee → caller < callee) : ¬g.LeftRecursive := by
  rintro ⟨key, hkey⟩
  have hlt : Relation.TransGen (· < ·) key key := Relation.TransGen.mono h _ _ hkey
  rw [Relation.transGen_eq_self] at hlt
  exact Nat.lt_irrefl key hlt

/-! ## Ranks -/

open Classical in
/-- How many rules a rule may come to before it has taken a token. -/
noncomputable def rank (g : Grammar) (key : RuleKey) : Nat :=
  ((Finset.range g.size).filter (Relation.TransGen g.LeftCalls key)).card

theorem rank_lt (h : ¬g.LeftRecursive) (hkey : key < g.size) : g.rank key < g.size := by
  classical
  have hmem : key ∈ Finset.range g.size := Finset.mem_range.2 hkey
  have hself : key ∉ (Finset.range g.size).filter (Relation.TransGen g.LeftCalls key) :=
    fun hin => h ⟨key, (Finset.mem_filter.1 hin).2⟩
  have hlt := Finset.card_lt_card ((Finset.ssubset_iff_of_subset (Finset.filter_subset _ _)).2 ⟨key, hmem, hself⟩)
  rw [Finset.card_range] at hlt
  exact hlt

/-- **A rule that is come to has a lower rank**, unless one comes back to itself. -/
theorem rank_lt_rank (h : ¬g.LeftRecursive) {callee : RuleKey} (hcallee : callee < g.size)
    (hcall : g.LeftCalls key callee) : g.rank callee < g.rank key := by
  classical
  apply Finset.card_lt_card
  refine (Finset.ssubset_iff_of_subset (fun k hk => ?_)).2 ⟨callee, ?_, fun hin => ?_⟩
  · obtain ⟨hrange, hreach⟩ := Finset.mem_filter.1 hk
    exact Finset.mem_filter.2 ⟨hrange, .head hcall hreach⟩
  · exact Finset.mem_filter.2 ⟨Finset.mem_range.2 hcallee, .single hcall⟩
  · exact h ⟨callee, (Finset.mem_filter.1 hin).2⟩

end Grammar
end LayeredParse
