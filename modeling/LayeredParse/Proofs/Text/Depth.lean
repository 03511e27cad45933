import LayeredParse.Proofs.Text.Lookups
import Mathlib.Algebra.Group.Nat.Defs
/-!
# Depth — how many layers lie below a location

The depth of a text takes the deeper side of a transformation; a location in its output has the layers of both sides, one
above the other.  So a location has at most as many layers below it as `chainDepth` says (`resolve_depth_le`), which adds
the two sides up.  That is the depth of the text if every transformation has a side that is not transformed itself
(`chainDepth_eq`), and less than two to the power of the depth in any case (`chainDepth_lt`).  Both are the best bounds
there are (`location_depth_lt`), and the depth of the text is none (`location_depth_exceeds`).
-/
namespace LayeredParse

namespace Location

theorem depth_withParent (parent : Location) : ∀ (l : Location), (l.withParent parent).depth = l.depth + parent.depth + 1
  | source _ => by rw [withParent, depth, depth, Nat.zero_add]
  | produced _ below => by rw [withParent, depth, depth, depth_withParent parent below]; omega

theorem length_layers : ∀ (l : Location), l.layers.length = l.depth + 1
  | source _ => rfl
  | produced _ parent => by rw [layers, depth, List.length_cons, length_layers parent]

end Location

namespace Text

mutual

/-- How many layers lie below a location in the text at most: those of the output, then those of the source. -/
def chainDepth : Text → Nat
  | plain _ => 0
  | composite pieces => chainDepthMax pieces
  | sub base _ _ => chainDepth base
  | transformed output source => chainDepth output + chainDepth source + 1

def chainDepthMax : List Text → Nat
  | [] => 0
  | t :: ts => max (chainDepth t) (chainDepthMax ts)

end

mutual

/-- Whether every transformation has an output or a source that is not transformed itself. -/
def Unbranched : Text → Prop
  | plain _ => True
  | composite pieces => AllUnbranched pieces
  | sub base _ _ => Unbranched base
  | transformed output source => (depth output = 0 ∨ depth source = 0) ∧ Unbranched output ∧ Unbranched source

def AllUnbranched : List Text → Prop
  | [] => True
  | t :: ts => Unbranched t ∧ AllUnbranched ts

end

theorem resolveIn_some : ∀ {pieces : List Text} {index : Nat} {l : Location}, resolveIn pieces index = some l →
    ∃ t ∈ pieces, ∃ i, t.resolve i = some l
  | [], _, _, h => by simp [resolveIn] at h
  | t :: ts, index, l, h => by
    rw [resolveIn] at h
    by_cases hin : index < t.length ∨ ts.isEmpty = true
    · rw [if_pos hin] at h
      exact ⟨t, List.mem_cons_self, index, h⟩
    · rw [if_neg hin] at h
      obtain ⟨u, hu, hres⟩ := resolveIn_some h
      exact ⟨u, List.mem_cons_of_mem t hu, hres⟩

theorem chainDepth_le_max : ∀ {pieces : List Text} {t : Text}, t ∈ pieces → t.chainDepth ≤ chainDepthMax pieces
  | u :: ts, t, h => by
    rw [chainDepthMax]
    rcases List.mem_cons.1 h with rfl | h
    · exact Nat.le_max_left _ _
    · exact Nat.le_trans (chainDepth_le_max h) (Nat.le_max_right _ _)

/-- **A location has no more layers below it than both sides of the transformations have.** -/
theorem resolve_depth_le (t : Text) : ∀ {index : Nat} {l : Location}, t.resolve index = some l → l.depth ≤ t.chainDepth := by
  induction t with
  | plain p =>
    intro index l h
    rw [resolve] at h
    obtain ⟨place, -, rfl⟩ := Option.map_eq_some_iff.1 h
    exact Nat.zero_le _
  | composite pieces ih =>
    intro index l h
    rw [resolve] at h
    split at h
    · obtain ⟨t, ht, i, hres⟩ := resolveIn_some h
      exact Nat.le_trans (ih t ht hres) (chainDepth_le_max ht)
    · cases h
  | sub base start stop ih =>
    intro index l h
    rw [resolve] at h
    split at h
    · exact ih h
    · cases h
  | transformed output source iho ihs =>
    intro index l h
    rw [resolve] at h
    obtain ⟨inside, hinside, rfl⟩ := Option.map_eq_some_iff.1 h
    have ho := iho hinside
    rw [chainDepth]
    cases hparent : source.resolve 0 with
    | none =>
      show inside.depth ≤ _
      omega
    | some parent =>
      have hs := ihs hparent
      show (inside.withParent parent).depth ≤ _
      rw [Location.depth_withParent]
      omega

/-! ## The two bounds -/

theorem chainDepthMax_lt : ∀ {pieces : List Text}, (∀ t ∈ pieces, t.chainDepth < 2 ^ t.depth) →
    chainDepthMax pieces < 2 ^ depthMax pieces
  | [], _ => by simp [chainDepthMax, depthMax]
  | t :: ts, h => by
    rw [chainDepthMax, depthMax, Nat.max_lt]
    have hts := chainDepthMax_lt (fun u hu => h u (List.mem_cons_of_mem t hu))
    exact ⟨Nat.lt_of_lt_of_le (h t List.mem_cons_self) (Nat.pow_le_pow_right Nat.two_pos (Nat.le_max_left _ _)),
      Nat.lt_of_lt_of_le hts (Nat.pow_le_pow_right Nat.two_pos (Nat.le_max_right _ _))⟩

/-- Every level of nesting at most doubles the number of layers. -/
theorem chainDepth_lt (t : Text) : t.chainDepth < 2 ^ t.depth := by
  induction t with
  | plain p => simp [chainDepth, depth]
  | composite pieces ih =>
    rw [chainDepth, depth]
    exact chainDepthMax_lt ih
  | sub base start stop ih =>
    rw [chainDepth, depth]
    exact ih
  | transformed output source iho ihs =>
    have ho := Nat.pow_le_pow_right Nat.two_pos (Nat.le_max_left output.depth source.depth)
    have hs := Nat.pow_le_pow_right Nat.two_pos (Nat.le_max_right output.depth source.depth)
    rw [chainDepth, depth, Nat.pow_succ]
    omega

theorem chainDepthMax_eq : ∀ {pieces : List Text}, AllUnbranched pieces →
    (∀ t ∈ pieces, t.Unbranched → t.chainDepth = t.depth) → chainDepthMax pieces = depthMax pieces
  | [], _, _ => rfl
  | t :: ts, h, ih => by
    rw [AllUnbranched] at h
    rw [chainDepthMax, depthMax, ih t List.mem_cons_self h.1,
      chainDepthMax_eq h.2 (fun u hu => ih u (List.mem_cons_of_mem t hu))]

/-- Where one side is not transformed itself, adding the sides up is taking the deeper one. -/
theorem chainDepth_eq (t : Text) : t.Unbranched → t.chainDepth = t.depth := by
  induction t with
  | plain p => intro _; rfl
  | composite pieces ih =>
    intro h
    rw [Unbranched] at h
    rw [chainDepth, depth]
    exact chainDepthMax_eq h ih
  | sub base start stop ih =>
    intro h
    rw [Unbranched] at h
    rw [chainDepth, depth]
    exact ih h
  | transformed output source iho ihs =>
    intro h
    rw [Unbranched] at h
    obtain ⟨hside, ho, hs⟩ := h
    rw [chainDepth, depth, iho ho, ihs hs]
    rcases hside with hside | hside <;> rw [hside]
    · rw [Nat.zero_add, Nat.zero_max]
    · rw [Nat.add_zero, Nat.max_zero]

/-! ## Texts that reach the bound -/

/-- A letter transformed `n` levels deep, on both sides. -/
def doubled : Nat → Text
  | 0 => ofString "a"
  | n + 1 => transformed (doubled n) (doubled n)

theorem doubled_built : ∀ (n : Nat), (doubled n).Built
  | 0 => .ofString "a"
  | n + 1 => .transformed (doubled_built n) (doubled_built n)

theorem depth_doubled : ∀ (n : Nat), (doubled n).depth = n
  | 0 => rfl
  | n + 1 => by rw [doubled, depth, depth_doubled n, Nat.max_self]

theorem resolve_doubled : ∀ (n : Nat), ∃ l, (doubled n).resolve 0 = some l ∧ l.depth + 1 = 2 ^ n
  | 0 => ⟨.source ⟨none, 1, 1⟩, by decide, rfl⟩
  | n + 1 => by
    obtain ⟨l, hl, hdepth⟩ := resolve_doubled n
    refine ⟨l.withParent l, ?_, ?_⟩
    · rw [doubled, resolve, hl]
      rfl
    · rw [Location.depth_withParent, Nat.pow_succ]
      omega

/-- The start of a text whose two sides are transformed has three layers below it, and the text has depth two. -/
theorem location_depth_exceeds :
    ¬ ∀ t : Text, t.Built → ∀ (index : Nat) (l : Location), t.location index = some l → l.depth ≤ t.depth := by
  intro h
  let t : Text := .transformed (.transformed (.ofString "a") (.ofString "b")) (.transformed (.ofString "c") (.ofString "d"))
  have built : t.Built := .transformed (.transformed (.ofString _) (.ofString _)) (.transformed (.ofString _) (.ofString _))
  let start : Place := ⟨none, 1, 1⟩
  have location : t.location 0 = some (.produced start (.produced start (.produced start (.source start)))) := by
    decide +kernel
  have deep : 3 ≤ t.depth := h t built 0 _ location
  exact absurd deep (by decide)

/-- **How many layers lie below a location at most.**  A location in a built text has fewer layers below it than two to the
power of the depth of the text, and no more than the depth if every transformation in the text has an output or a source
that is not transformed itself.  For every depth there is a text in which as many layers as that are reached. -/
theorem location_depth_lt :
    (∀ (t : Text), t.Built → ∀ (index : Nat) (l : Location), t.location index = some l →
      l.layers.length = l.depth + 1 ∧ l.depth < 2 ^ t.depth ∧ (t.Unbranched → l.depth ≤ t.depth)) ∧
    ∀ n, ∃ t : Text, t.Built ∧ t.depth = n ∧ ∃ l, t.location 0 = some l ∧ l.depth + 1 = 2 ^ n := by
  refine ⟨fun t built index l h => ?_, fun n => ?_⟩
  · rw [location_eq built.inRange] at h
    have hchain := resolve_depth_le t h
    refine ⟨Location.length_layers l, Nat.lt_of_le_of_lt hchain (chainDepth_lt t), fun hone => ?_⟩
    rw [← chainDepth_eq t hone]
    exact hchain
  · obtain ⟨l, hl, hdepth⟩ := resolve_doubled n
    refine ⟨doubled n, doubled_built n, depth_doubled n, l, ?_, hdepth⟩
    rw [location_eq (doubled_built n).inRange]
    exact hl

/-- An expansion of an expansion after a letter has two layers below it, as deep as the text is.  With an expansion in the
output too there are three, and the depth is still two. -/
theorem location_depth_lt_expansions : ∃ (t u : Text) (l k : Location),
    t.Built ∧ t.Unbranched ∧ t.location 1 = some l ∧ l.depth = 2 ∧ l.depth ≤ t.depth ∧
      u.Built ∧ u.depth = 2 ∧ u.location 0 = some k ∧ k.depth = 3 ∧ k.depth < 2 ^ u.depth := by
  let inner : Text := .transformed (.ofString "c") (.located "m" "C")
  let t : Text := .composite [.ofString "x", .transformed (.ofString "b") inner]
  let u : Text := .transformed (.transformed (.ofString "b") (.located "m" "B")) inner
  have hinner : inner.Built := .transformed (.ofString _) (.locatedAt ..)
  have ht : t.Built := by
    refine .composite _ (fun piece hpiece => ?_)
    simp only [List.mem_cons, List.not_mem_nil, or_false] at hpiece
    rcases hpiece with rfl | rfl
    · exact .ofString _
    · exact .transformed (.ofString _) hinner
  have hu : u.Built := .transformed (.transformed (.ofString _) (.locatedAt ..)) hinner
  have hone : t.Unbranched := ⟨trivial, ⟨.inl rfl, trivial, .inl rfl, trivial, trivial⟩, trivial⟩
  let place : Place := ⟨none, 1, 1⟩
  have hl : t.location 1 = some (.produced place (.produced place (.source ⟨some "m", 1, 1⟩))) := by decide +kernel
  have hk : u.location 0 =
      some (.produced place (.produced ⟨some "m", 1, 1⟩ (.produced place (.source ⟨some "m", 1, 1⟩)))) := by
    decide +kernel
  exact ⟨t, u, _, _, ht, hone, hl, rfl, (location_depth_lt.1 t ht 1 _ hl).2.2 hone, hu, rfl, hk, rfl,
    (location_depth_lt.1 u hu 0 _ hk).2.1⟩

end Text
end LayeredParse
