import LayeredParse.Proofs.Grammar.Faults
import Mathlib.Data.List.Induction
import Mathlib.Data.List.Nodup
/-!
# Drafting — what comes of a sequence of calls on a draft

A call looks a rule up, by its name, which declares it if needed, or by its key, and may do something to it
(`Draft.call`).  The log of the calls is which rules were looked up and what was to be done to them.  All that a draft is
can be told from the log: which rules there are and in what order from the names, and each definition from what was to be
done to that rule, in its own order (`drafted_eq`).  So can what `Draft.build` makes of it (`Draft.drafted_builds`).
-/
namespace LayeredParse

inductive Deed where
  | define (body : Expr)
  | wrap (f : Expr → Expr)
  | mock
  | skipIf (policy : SkipPolicy)

namespace Deed

def body? : Deed → Option Expr
  | define body => some body
  | wrap _ | mock | skipIf _ => none

def wrap? : Deed → Option (Expr → Expr)
  | wrap f => some f
  | define _ | mock | skipIf _ => none

def isMock : Deed → Bool
  | mock => true
  | define _ | wrap _ | skipIf _ => false

def policy? : Deed → Option SkipPolicy
  | skipIf policy => some policy
  | define _ | wrap _ | mock => none

end Deed

inductive Target where
  | named (name : String)
  | keyed (key : RuleKey)

/-- A call on a draft: a rule is looked up, and perhaps something is done to it. -/
structure Call where
  target : Target
  deed : Option Deed := none

/-- What a call gives back: the key of the rule that it was about, nothing if there is none, or why it was refused. -/
inductive Reply where
  | rule (key : RuleKey)
  | missing
  | refused (error : GrammarError)

def Definition.act (d : Definition) : Deed → Except GrammarError Definition
  | .define body => d.define body
  | .wrap f => .ok (d.wrap f)
  | .mock => .ok d.mock
  | .skipIf policy => .ok (d.skipIf policy)

namespace Draft

def actNamed (d : Draft) (name : String) : Deed → Except GrammarError Draft
  | .define body => d.define name body
  | .wrap f => .ok (d.wrap name f)
  | .mock => .ok (d.mock name)
  | .skipIf policy => .ok (d.skipIf name policy)

/-- Does something to the rule with a key, if there is one. -/
def actKeyed (d : Draft) (key : RuleKey) (deed : Deed) : Except GrammarError Draft :=
  match d.definition? key with
  | none => .ok d
  | some definition => (definition.act deed).map fun definition => d.update key fun _ => definition

/-- The reply of a call that was about the rule with a key, and the draft after it; `d` is the draft before. -/
def settle (d : Draft) (key : RuleKey) : Except GrammarError Draft → Reply × Draft
  | .ok after => (.rule key, after)
  | .error e => (.refused e, d)

def call (d : Draft) : Call → Reply × Draft
  | ⟨.named name, none⟩ => (.rule (d.declare name).1, (d.declare name).2)
  | ⟨.named name, some deed⟩ => settle (d.declare name).2 (d.declare name).1 (d.actNamed name deed)
  | ⟨.keyed key, none⟩ => if key < d.size then (.rule key, d) else (.missing, d)
  | ⟨.keyed key, some deed⟩ => if key < d.size then settle d key (d.actKeyed key deed) else (.missing, d)

def drafted (calls : List Call) : Draft :=
  calls.foldl (fun d c => (d.call c).2) {}

theorem update_congr {d : Draft} {key : RuleKey} {definition : Definition} {f f' : Definition → Definition}
    (h : d.definition? key = some definition) (hf : f definition = f' definition) : d.update key f = d.update key f' := by
  unfold update
  refine congrArg Draft.mk (Array.ext_getElem? fun i => ?_)
  rw [Array.getElem?_modify, Array.getElem?_modify]
  by_cases hi : key = i
  · subst hi
    rw [definition?] at h
    simp [h, hf]
  · simp [hi]

theorem declare_definition? (d : Draft) (name : String) :
    ∃ definition, (d.declare name).2.definition? (d.declare name).1 = some definition := by
  unfold declare
  split
  · rename_i key hkey
    obtain ⟨hlt, -⟩ := Array.findIdx?_eq_some_iff_getElem.1 hkey
    exact ⟨d.definitions[key], Array.getElem?_eq_getElem hlt⟩
  · simp [definition?, size]

/-- What is done to a rule by its name is done by its key once it is declared. -/
theorem actNamed_eq (d : Draft) (name : String) (deed : Deed) :
    d.actNamed name deed = (d.declare name).2.actKeyed (d.declare name).1 deed := by
  obtain ⟨definition, h⟩ := d.declare_definition? name
  unfold actKeyed
  rw [h]
  cases deed with
  | define body => simp [actNamed, define, h, Definition.act]
  | wrap f => exact congrArg Except.ok (update_congr h rfl)
  | mock => exact congrArg Except.ok (update_congr h rfl)
  | skipIf policy => exact congrArg Except.ok (update_congr h rfl)

end Draft

/-! ## The log -/

/-- The rules that calls were about, and what was to be done to them. -/
abbrev Log := List (String × Option Deed)

namespace Log

/-- The rules in the order in which they were first mentioned. -/
def names (log : Log) : List String :=
  (log.map Prod.fst).eraseDups

def deeds (log : Log) (name : String) : List Deed :=
  log.filterMap fun entry => if entry.1 = name then entry.2 else none

def about? (log : Log) : Target → Option String
  | .named name => some name
  | .keyed key => log.names[key]?

def note (log : Log) (c : Call) : Log :=
  match log.about? c.target with
  | some name => log ++ [(name, c.deed)]
  | none => log

end Log

def logOf (calls : List Call) : Log :=
  calls.foldl Log.note []

theorem logOf_snoc (calls : List Call) (c : Call) : logOf (calls ++ [c]) = (logOf calls).note c := by
  rw [logOf, List.foldl_append]
  rfl

/-- **The definition of a rule, told from what was to be done to it**: its own name if it was ever mocked, otherwise the
first body that it was given; all that was to be wrapped around it; and the policy that was set last. -/
def Definition.told (name : String) (deeds : List Deed) : Definition where
  name
  body := if deeds.any Deed.isMock then some (.literal name) else deeds.findSome? Deed.body?
  wraps := deeds.filterMap Deed.wrap?
  policy := (deeds.filterMap Deed.policy?).getLast?.getD .never

/-- **The draft, told from the log.** -/
def Draft.told (log : Log) : Draft where
  definitions := (log.names.map fun name => Definition.told name (log.deeds name)).toArray

namespace Log

variable {log : Log} {name other : String}

theorem names_snoc (log : Log) (name : String) (deed : Option Deed) :
    (log ++ [(name, deed)]).names = if name ∈ log.names then log.names else log.names ++ [name] := by
  unfold names
  rw [List.map_append, List.eraseDups_append]
  by_cases hmem : name ∈ log.map Prod.fst
  · simp [hmem, List.removeAll, -List.mem_map]
  · simp [hmem, List.removeAll, -List.mem_map, List.eraseDups_cons]

theorem names_nodup (log : Log) : log.names.Nodup := by
  induction log using List.reverseRecOn with
  | nil => exact List.nodup_nil
  | append_singleton log entry ih =>
    rw [names_snoc]
    split
    · exact ih
    · rename_i hmem
      refine List.nodup_append.2 ⟨ih, List.nodup_singleton _, fun a ha b hb e => hmem ?_⟩
      rwa [← List.mem_singleton.1 hb, ← e]

theorem deeds_snoc (log : Log) (name other : String) (deed : Option Deed) :
    (log ++ [(name, deed)]).deeds other = if name = other then log.deeds other ++ deed.toList else log.deeds other := by
  unfold deeds
  rw [List.filterMap_append]
  by_cases h : name = other
  · cases deed <;> simp [h]
  · simp [h]

theorem deeds_mention (log : Log) (name other : String) : (log ++ [(name, none)]).deeds other = log.deeds other := by
  rw [deeds_snoc, Option.toList_none, List.append_nil, ite_self]

theorem note_of_about {c : Call} (h : log.about? c.target = some name) : log.note c = log ++ [(name, c.deed)] := by
  simp only [note, h]

theorem names_prefix_snoc (log : Log) (name : String) (deed : Option Deed) :
    log.names <+: (log ++ [(name, deed)]).names := by
  rw [names_snoc]
  split
  · exact List.prefix_rfl
  · exact List.prefix_append _ _

theorem names_prefix_note (log : Log) (c : Call) : log.names <+: (log.note c).names := by
  unfold note
  split
  · exact names_prefix_snoc log _ _
  · exact List.prefix_rfl

theorem mem_names_snoc (log : Log) (name : String) (deed : Option Deed) : name ∈ (log ++ [(name, deed)]).names := by
  rw [names_snoc]
  split
  · assumption
  · simp

theorem deeds_eq_nil (h : name ∉ log.names) : log.deeds name = [] := by
  unfold deeds
  rw [List.filterMap_eq_nil_iff]
  intro entry hentry
  have hne : entry.1 ≠ name := by
    rintro rfl
    exact h (List.mem_eraseDups.2 (List.mem_map_of_mem hentry))
  simp [hne]

end Log

/-! ## The draft -/

/-- Whether something that was to be done is refused: a body for a rule that has one. -/
def Log.refuses (log : Log) (name : String) : Option Deed → Bool
  | some (.define _) => (Definition.told name (log.deeds name)).isDefined
  | _ => false

namespace Definition

theorem told_define (name : String) (deeds : List Deed) (body : Expr) : told name (deeds ++ [.define body]) =
    if (told name deeds).isDefined then told name deeds else { told name deeds with body := some body } := by
  have happend : (deeds ++ [Deed.define body]).findSome? Deed.body? = (deeds.findSome? Deed.body?).or (some body) := by
    rw [List.findSome?_append]
    rfl
  unfold told isDefined
  rw [happend]
  by_cases hmock : deeds.any Deed.isMock
  · simp [hmock, Deed.isMock, Deed.wrap?, Deed.policy?]
  · cases deeds.findSome? Deed.body? <;> simp [hmock, Deed.isMock, Deed.wrap?, Deed.policy?]

theorem told_wrap (name : String) (deeds : List Deed) (f : Expr → Expr) :
    told name (deeds ++ [.wrap f]) = (told name deeds).wrap f := by
  simp [told, wrap, Deed.isMock, Deed.body?, Deed.wrap?, Deed.policy?]

theorem told_mock (name : String) (deeds : List Deed) : told name (deeds ++ [.mock]) = (told name deeds).mock := by
  simp [told, mock, Deed.isMock, Deed.wrap?, Deed.policy?]

theorem told_skipIf (name : String) (deeds : List Deed) (policy : SkipPolicy) :
    told name (deeds ++ [.skipIf policy]) = (told name deeds).skipIf policy := by
  simp [told, skipIf, Deed.isMock, Deed.body?, Deed.wrap?, Deed.policy?]

end Definition

namespace Log

variable {log log' : Log} {name : String} {key : RuleKey}

theorem act_told (log : Log) (name : String) (deed : Deed) : (Definition.told name (log.deeds name)).act deed =
    if log.refuses name (some deed) then .error (.alreadyDefined name)
    else .ok (Definition.told name (log.deeds name ++ [deed])) := by
  cases deed with
  | define body =>
    rw [Definition.told_define, Definition.act, Definition.define, refuses]
    by_cases h : (Definition.told name (log.deeds name)).isDefined
    · rw [if_pos h, if_pos h]
      rfl
    · rw [if_neg h, if_neg h, if_neg h]
  | wrap f => exact congrArg Except.ok (Definition.told_wrap name _ f).symm
  | mock => exact congrArg Except.ok (Definition.told_mock name _).symm
  | skipIf policy => exact congrArg Except.ok (Definition.told_skipIf name _ policy).symm

theorem told_refused {deed : Option Deed} (h : log.refuses name deed = true) :
    Definition.told name (log.deeds name ++ deed.toList) = Definition.told name (log.deeds name) := by
  unfold refuses at h
  split at h
  · exact (Definition.told_define name _ _).trans (if_pos h)
  · cases h

end Log

namespace Draft

variable {log log' : Log} {name : String} {key : RuleKey}

theorem told_congr (hnames : log.names = log'.names)
    (h : ∀ name ∈ log.names, Definition.told name (log.deeds name) = Definition.told name (log'.deeds name)) :
    told log = told log' := by
  unfold told
  rw [← hnames, List.map_congr_left h]

theorem told_size (log : Log) : (told log).size = log.names.length := by
  simp [told, size]

theorem told_definition? (log : Log) (key : RuleKey) : (told log).definition? key =
    (log.names[key]?).map fun name => Definition.told name (log.deeds name) := by
  simp [told, definition?]

theorem told_find? (log : Log) (name : String) : (told log).find? name = log.names.findIdx? (· == name) := by
  unfold find? told
  rw [List.findIdx?_toArray, List.findIdx?_map]
  rfl

/-- What is only mentioned stays as it is. -/
theorem told_mention (h : name ∈ log.names) : told (log ++ [(name, none)]) = told log := by
  refine told_congr ?_ (fun other _ => ?_)
  · rw [Log.names_snoc, if_pos h]
  · rw [Log.deeds_mention]

/-- A rule that is mentioned for the first time comes last. -/
theorem told_push (h : name ∉ log.names) :
    { definitions := (told log).definitions.push { name } } = told (log ++ [(name, none)]) := by
  unfold told
  simp only [Log.names_snoc, if_neg h, Log.deeds_mention, List.map_append, List.push_toArray, List.map_cons, List.map_nil,
    Log.deeds_eq_nil h]
  rfl

/-- A look-up by name finds the rule or declares it. -/
theorem told_declare (log : Log) (name : String) : ∃ key,
    (told log).declare name = (key, told (log ++ [(name, none)])) ∧ (log ++ [(name, none)]).names[key]? = some name := by
  rw [Log.names_snoc, declare, told_find?, told_size]
  cases hfind : log.names.findIdx? (· == name) with
  | some key =>
    obtain ⟨hlt, hname, -⟩ := List.findIdx?_eq_some_iff_getElem.1 hfind
    have hkey : log.names[key]? = some name := by rw [List.getElem?_eq_getElem hlt, eq_of_beq hname]
    have hmem : name ∈ log.names := List.mem_of_getElem? hkey
    exact ⟨key, by rw [told_mention hmem], by rw [if_pos hmem, hkey]⟩
  | none =>
    have hnot : name ∉ log.names := fun hmem => by
      simpa using List.findIdx?_eq_none_iff.1 hfind name hmem
    exact ⟨log.names.length, by rw [told_push hnot], by rw [if_neg hnot]; simp⟩

theorem told_update (h : log.names[key]? = some name) (deed : Deed) :
    (told log).update key (fun _ => Definition.told name (log.deeds name ++ [deed])) = told (log ++ [(name, some deed)]) := by
  have hnames : (log ++ [(name, some deed)]).names = log.names := by
    rw [Log.names_snoc, if_pos (List.mem_of_getElem? h)]
  unfold update told
  rw [hnames, List.modify_toArray]
  refine congrArg (fun ds => Draft.mk ds.toArray) (List.ext_getElem? fun i => ?_)
  simp only [List.getElem?_modify, List.getElem?_map, Log.deeds_snoc]
  by_cases hi : key = i
  · subst hi
    simp [h]
  · cases hother : log.names[i]? with
    | none => rfl
    | some other =>
      -- names are not repeated, so no other place has the rule
      have hne : name ≠ other := by
        rintro rfl
        exact hi ((List.getElem?_inj (List.getElem?_eq_some_iff.1 h).1 log.names_nodup).1 (h.trans hother.symm))
      simp [hi, hne]

/-- **Doing something to a rule is refused, or changes the definition of that rule only.** -/
theorem told_actKeyed (h : log.names[key]? = some name) (deed : Deed) : (told log).actKeyed key deed =
    if log.refuses name (some deed) then .error (.alreadyDefined name) else .ok (told (log ++ [(name, some deed)])) := by
  unfold actKeyed
  rw [told_definition?, h, Option.map_some]
  simp only [Log.act_told]
  split
  · rfl
  · exact congrArg Except.ok (told_update h deed)

theorem mem_names_of_refuses {deed : Option Deed} (h : log.refuses name deed = true) : name ∈ log.names := by
  by_contra hmem
  unfold Log.refuses at h
  rw [Log.deeds_eq_nil hmem] at h
  split at h
  · cases h
  · cases h

/-- What is refused leaves everything as it was. -/
theorem told_refused {deed : Option Deed} (h : log.refuses name deed = true) : told (log ++ [(name, deed)]) = told log := by
  refine told_congr ?_ (fun other _ => ?_)
  · rw [Log.names_snoc, if_pos (mem_names_of_refuses h)]
  · rw [Log.deeds_snoc]
    by_cases hother : name = other
    · subst hother
      rw [if_pos rfl, Log.told_refused h]
    · rw [if_neg hother]

/-- **What a call gives back and leaves**, told from the log before it. -/
def Answers (log : Log) (c : Call) (r : Reply × Draft) : Prop :=
  match log.about? c.target with
  | none => r = (.missing, told log)
  | some name =>
    if log.refuses name c.deed then r = (.refused (.alreadyDefined name), told log)
    else ∃ key, (log.note c).names[key]? = some name ∧ r = (.rule key, told (log.note c))

theorem call_named (log : Log) (name : String) (deed : Option Deed) :
    Answers log ⟨.named name, deed⟩ ((told log).call ⟨.named name, deed⟩) := by
  show if log.refuses name deed then _ else _
  obtain ⟨key, hdeclare, hkey⟩ := told_declare log name
  have hnote : log.note ⟨.named name, deed⟩ = log ++ [(name, deed)] := rfl
  have hnames : (log ++ [(name, deed)]).names = (log ++ [(name, none)]).names := by
    rw [Log.names_snoc, Log.names_snoc]
  rw [hnote, hnames]
  cases deed with
  | none => exact ⟨key, hkey, by rw [call, hdeclare]⟩
  | some deed =>
    -- the rule is mentioned before anything is done to it, which makes no difference to what is told
    have hrefuses : Log.refuses (log ++ [(name, none)]) name (some deed) = log.refuses name (some deed) := by
      unfold Log.refuses
      rw [Log.deeds_mention]
    have htold : told (log ++ [(name, none)] ++ [(name, some deed)]) = told (log ++ [(name, some deed)]) := by
      refine told_congr ?_ (fun other _ => ?_)
      · rw [Log.names_snoc, if_pos (Log.mem_names_snoc log name none), hnames]
      · rw [Log.deeds_snoc (log ++ [(name, none)]), Log.deeds_mention, ← Log.deeds_snoc]
    rw [call, actNamed_eq, hdeclare, told_actKeyed hkey, hrefuses, htold]
    by_cases h : log.refuses name (some deed) = true
    · rw [if_pos h, if_pos h, settle, told_mention (mem_names_of_refuses h)]
    · rw [if_neg h, if_neg h]
      exact ⟨key, hkey, rfl⟩

theorem call_keyed (log : Log) (key : RuleKey) (deed : Option Deed) :
    Answers log ⟨.keyed key, deed⟩ ((told log).call ⟨.keyed key, deed⟩) := by
  show match log.names[key]? with | none => _ | some name => _
  cases hname : log.names[key]? with
  | none =>
    have hout : ¬key < (told log).size := by
      rw [told_size]
      exact Nat.not_lt.2 (List.getElem?_eq_none_iff.1 hname)
    cases deed <;> exact if_neg hout
  | some name =>
    have hin : key < (told log).size := by
      rw [told_size]
      exact (List.getElem?_eq_some_iff.1 hname).1
    have hmem : name ∈ log.names := List.mem_of_getElem? hname
    have hnote : log.note ⟨.keyed key, deed⟩ = log ++ [(name, deed)] := Log.note_of_about hname
    have hkey : (log ++ [(name, deed)]).names[key]? = some name := by rw [Log.names_snoc, if_pos hmem, hname]
    show if log.refuses name deed then _ else _
    rw [hnote]
    cases deed with
    | none => exact ⟨key, hkey, by rw [call, if_pos hin, told_mention hmem]⟩
    | some deed =>
      rw [call, if_pos hin, told_actKeyed hname]
      by_cases h : log.refuses name (some deed) = true
      · rw [if_pos h, if_pos h, settle]
      · rw [if_neg h, if_neg h]
        exact ⟨key, hkey, rfl⟩

theorem call_answers (log : Log) : ∀ c : Call, Answers log c ((told log).call c)
  | ⟨.named name, deed⟩ => call_named log name deed
  | ⟨.keyed key, deed⟩ => call_keyed log key deed

theorem call_eq (log : Log) (c : Call) : ((told log).call c).2 = told (log.note c) := by
  have h := call_answers log c
  unfold Answers at h
  cases habout : log.about? c.target with
  | none =>
    have hnote : log.note c = log := by simp only [Log.note, habout]
    simp only [habout] at h
    rw [h, hnote]
  | some name =>
    simp only [habout] at h
    split at h
    · rename_i hrefused
      rw [h, Log.note_of_about habout, told_refused hrefused]
    · obtain ⟨key, -, h⟩ := h
      rw [h]

/-- **All that a draft is can be told from the log.** -/
theorem drafted_eq (calls : List Call) : drafted calls = told (logOf calls) := by
  induction calls using List.reverseRecOn with
  | nil => rfl
  | append_singleton calls c ih =>
    rw [logOf_snoc, ← call_eq, ← ih, drafted, List.foldl_append]
    rfl

end Draft
end LayeredParse
