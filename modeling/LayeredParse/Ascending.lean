/-!
# Ascending — looking a number up among ascending bounds

`rank a x` is the index of the last entry of the ascending array `a` that is at most `x`, found by descending powers of
two: the index is built from its highest bit down.
-/
namespace LayeredParse
namespace Ascending

/-- Adds the bits of the index below `2 ^ bits` to `base`, from the highest down: a bit is set when the entry there is
still at most `x`. -/
def descend (a : Array Nat) (x : Nat) : (bits base : Nat) → Nat
  | 0, base => base
  | bits + 1, base =>
    let probe := base + (1 <<< bits)
    match a[probe]? with
    | some entry => if entry ≤ x then descend a x bits probe else descend a x bits base
    | none => descend a x bits base

/-- The index of the last entry at most `x` of an ascending array whose first entry is. -/
def rank (a : Array Nat) (x : Nat) : Nat :=
  descend a x (Nat.log2 a.size + 1) 0

end Ascending
end LayeredParse
