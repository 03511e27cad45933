import LayeredParse.Text.Cursor
/-!
# Content — built texts and the characters they have

A text is built from plain text by putting pieces together, opening windows and recording transformations (`Built`).
Every window of a built text lies within its base (`InRange`), so that the length of a built text is the number of its
characters (`length_eq_length_content`).
-/
namespace LayeredParse
namespace Text

/-- **Built texts**: plain text, pieces put together, windows in range, and outputs with their sources. -/
inductive Built : Text → Prop
  | ofString (s : String) : Built (.ofString s)
  | locatedAt (origin s : String) (line column : Nat) : Built (.locatedAt origin s line column)
  | composite (pieces : List Text) (h : ∀ t ∈ pieces, Built t) : Built (.composite pieces)
  | subText {t u : Text} {start stop : Nat} (h : Built t) (hu : t.subText start stop = .ok u) : Built u
  | transformed {output source : Text} (ho : Built output) (hs : Built source) : Built (.transformed output source)

/-- Induction on a text, with a hypothesis for every piece of a concatenation. -/
@[elab_as_elim, induction_eliminator]
theorem layers_induction {P : Text → Prop} (plain : ∀ p, P (.plain p))
    (composite : ∀ pieces, (∀ t ∈ pieces, P t) → P (.composite pieces))
    (sub : ∀ base start stop, P base → P (.sub base start stop))
    (transformed : ∀ output source, P output → P source → P (.transformed output source)) (t : Text) : P t :=
  @Text.rec P (fun pieces => ∀ t ∈ pieces, P t) plain composite sub transformed (fun _ h => nomatch h)
    (fun _ _ ht hts u hu => (List.mem_cons.1 hu).elim (fun e => e ▸ ht) (hts u)) t

mutual

/-- Whether every window lies within its base. -/
def InRange : Text → Prop
  | plain _ => True
  | composite pieces => AllInRange pieces
  | sub base start stop => start ≤ stop ∧ stop ≤ length base ∧ InRange base
  | transformed output source => InRange output ∧ InRange source

/-- Whether every window of the pieces lies within its base. -/
def AllInRange : List Text → Prop
  | [] => True
  | t :: ts => InRange t ∧ AllInRange ts

end

theorem allInRange_iff : ∀ (pieces : List Text), AllInRange pieces ↔ ∀ t ∈ pieces, InRange t
  | [] => by simp [AllInRange]
  | t :: ts => by simp [AllInRange, allInRange_iff ts]

theorem lengths_eq_map : ∀ (pieces : List Text), lengths pieces = pieces.map length
  | [] => rfl
  | t :: ts => by rw [lengths, lengths_eq_map ts, List.map_cons]

theorem contents_eq_flatMap : ∀ (pieces : List Text), contents pieces = pieces.flatMap content
  | [] => rfl
  | t :: ts => by rw [contents, contents_eq_flatMap ts, List.flatMap_cons]

/-- What a window in range onto a text is: the text itself, a window onto the base of a window, or a new window. -/
theorem subText_ok {t u : Text} {start stop : Nat} (h : t.subText start stop = .ok u) :
    start ≤ stop ∧ stop ≤ t.length ∧
      (u = t ∨ (∃ base first last, t = .sub base first last ∧ u = .sub base (first + start) (first + stop)) ∨
        u = .sub t start stop) := by
  unfold subText at h
  split at h
  · rename_i hr
    refine ⟨hr.1, hr.2, ?_⟩
    split at h
    · exact .inl (Except.ok.inj h).symm
    · split at h
      · exact .inr (.inl ⟨_, _, _, rfl, (Except.ok.inj h).symm⟩)
      · exact .inr (.inr (Except.ok.inj h).symm)
  · cases h

/-- **Every window of a built text lies within its base.** -/
theorem Built.inRange {t : Text} (h : Built t) : t.InRange := by
  induction h with
  | ofString s => trivial
  | locatedAt origin s line column => trivial
  | composite pieces _ ih => exact (allInRange_iff pieces).2 ih
  | @subText t u start stop _ hu ih =>
    obtain ⟨h1, h2, rfl | ⟨base, first, last, rfl, rfl⟩ | rfl⟩ := subText_ok hu
    · exact ih
    · obtain ⟨hf, hl, hb⟩ := ih
      have hlen : stop ≤ last - first := h2
      exact ⟨by omega, by omega, hb⟩
    · exact ⟨h1, h2, ih⟩
  | transformed _ _ iho ihs => exact ⟨iho, ihs⟩

theorem total_nil : total [] = 0 := rfl

theorem total_cons (n : Nat) (ns : List Nat) : total (n :: ns) = n + total ns := rfl

theorem total_append : ∀ (ns ms : List Nat), total (ns ++ ms) = total ns + total ms
  | [], ms => by rw [List.nil_append, total_nil, Nat.zero_add]
  | n :: ns, ms => by rw [List.cons_append, total_cons, total_cons, total_append ns ms, Nat.add_assoc]

theorem length_flatMap_content : ∀ (pieces : List Text),
    (pieces.flatMap content).length = total (pieces.map fun t => t.content.length)
  | [] => rfl
  | t :: ts => by
    rw [List.flatMap_cons, List.length_append, length_flatMap_content ts, List.map_cons, total_cons]

/-- **The length of a text whose windows lie within their bases is the number of its characters.** -/
theorem length_eq_length_content (t : Text) (h : t.InRange) : t.length = t.content.length := by
  induction t with
  | plain p => simp [length, content, Plain.length]
  | composite pieces ih =>
    have hp := (allInRange_iff pieces).1 h
    simp only [length, content, lengths_eq_map, contents_eq_flatMap]
    rw [length_flatMap_content, List.map_congr_left (fun t ht => ih t ht (hp t ht))]
  | sub base start stop ih =>
    obtain ⟨h1, h2, hb⟩ := h
    simp only [length, content, List.length_take, List.length_drop]
    rw [← ih hb]
    omega
  | transformed output source iho _ => exact iho h.1

end Text
end LayeredParse
