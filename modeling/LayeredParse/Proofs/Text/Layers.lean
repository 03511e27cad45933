import LayeredParse.Proofs.Text.Depth
import LayeredParse.Proofs.Text.Owners
/-!
# Layers — a parent goes below all layers

A location is told by the places of its layers (`layers_injective`); its depth is how many of them there are below the
first (`length_layers`), and its root is the last (`getLast?_layers`).  Attaching a parent appends the layers of the parent
and changes no place (`layers_withParent`), so that locations with parents behave as lists do (`withParent_appends`).
-/
namespace LayeredParse
namespace Location

theorem layers_ne_nil (l : Location) : l.layers ≠ [] := by
  cases l <;> exact List.cons_ne_nil _ _

/-- **A location is told by the places of its layers.** -/
theorem layers_injective : ∀ {l m : Location}, l.layers = m.layers → l = m
  | source _, source _, h => congrArg source (List.cons.inj h).1
  | source _, produced _ below, h => absurd (List.cons.inj h).2.symm below.layers_ne_nil
  | produced _ below, source _, h => absurd (List.cons.inj h).2 below.layers_ne_nil
  | produced _ _, produced _ _, h => by
    obtain ⟨hplace, hbelow⟩ := List.cons.inj h
    rw [hplace, layers_injective hbelow]

theorem getLast?_layers : ∀ (l : Location), l.layers.getLast? = some l.root
  | source _ => rfl
  | produced _ parent => by
    rw [layers, List.getLast?_cons, getLast?_layers parent, root]
    rfl

/-- **Attaching a parent appends its layers**: the places of a location with a parent are those of the location and then
those of the parent.  So parents can be attached to a location one after the other or to each other first; the depths
add up, with one for the first layer of the parent; and the root is that of the parent. -/
theorem withParent_appends (a b c : Location) :
    (a.withParent b).layers = a.layers ++ b.layers ∧
    (a.withParent b).withParent c = a.withParent (b.withParent c) ∧
    (a.withParent b).depth = a.depth + b.depth + 1 ∧
    (a.withParent b).root = b.root := by
  have happend := layers_withParent b a
  have hlength := congrArg List.length happend
  have hlast := congrArg List.getLast? happend
  refine ⟨happend, layers_injective ?_, ?_, ?_⟩
  · rw [layers_withParent, layers_withParent, layers_withParent, layers_withParent, List.append_assoc]
  · rw [List.length_append, length_layers, length_layers, length_layers] at hlength
    omega
  · rw [List.getLast?_append, getLast?_layers, getLast?_layers] at hlast
    exact Option.some.inj hlast

/-- An expansion of an expansion in a file. -/
example :
    let top : Location := .source ⟨none, 1, 1⟩
    let chained := (top.withParent (.source ⟨some "gen.c", 4, 2⟩)).withParent (.source ⟨some "main.c", 10, 7⟩)
    chained.layers.map Place.line = [1, 4, 10] ∧ chained.depth = 2 ∧ chained.root.origin = some "main.c" := by
  decide

end Location
end LayeredParse
