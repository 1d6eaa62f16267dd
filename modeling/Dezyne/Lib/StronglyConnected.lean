import Mathlib.Data.Set.Basic
import Mathlib.Logic.Relation
/-!
# Strongly connected components

Two nodes are connected strongly when each reaches the other. A set of such nodes
is the whole component when all edges that leave it go to a closed set; a node is
on a cycle when it has an edge to itself or is not alone in its component.
-/

namespace StronglyConnected

open Relation

variable {V : Type*} {edge : V → V → Prop} {v w : V}

/-- Each of two nodes reaches the other. -/
def Mutual (edge : V → V → Prop) (v w : V) : Prop := ReflTransGen edge v w ∧ ReflTransGen edge w v

theorem Mutual.symm (h : Mutual edge v w) : Mutual edge w v := ⟨h.2, h.1⟩

theorem Mutual.trans {x : V} (h : Mutual edge v w) (h' : Mutual edge w x) : Mutual edge v x :=
  ⟨h.1.trans h'.1, h'.2.trans h.2⟩

/-- No edge leaves a closed set, and no path does. -/
theorem mem_of_reach (closed : Set V) (hclosed : ∀ x ∈ closed, ∀ y, edge x y → y ∈ closed) (h : ReflTransGen edge v w)
    (hv : v ∈ closed) : w ∈ closed := by
  induction h with
  | refl => exact hv
  | tail _ hedge ih => exact hclosed _ ih _ hedge

/-- Nodes with edges to a closed set only, apart from those between them, are a component. -/
theorem mem_iff_mutual (component closed : Set V) (hclosed : ∀ x ∈ closed, ∀ y, edge x y → y ∈ closed)
    (hedges : ∀ x ∈ component, ∀ y, edge x y → y ∈ component ∨ y ∈ closed)
    (hdisjoint : ∀ x ∈ component, x ∉ closed) (hmutual : ∀ x ∈ component, Mutual edge v x) (hv : v ∈ component) :
    w ∈ component ↔ Mutual edge v w := by
  refine ⟨hmutual w, fun h => ?_⟩
  have hunion : w ∈ component ∪ closed := by
    refine mem_of_reach _ (fun x hx y hedge => ?_) h.1 (Or.inl hv)
    rcases hx with hx | hx
    · exact hedges x hx y hedge
    · exact Or.inr (hclosed x hx y hedge)
  rcases hunion with hw | hw
  · exact hw
  · exact absurd (mem_of_reach closed hclosed h.2 hw) (hdisjoint v hv)

theorem transGen_self_iff : TransGen edge v v ↔ edge v v ∨ ∃ w, w ≠ v ∧ Mutual edge v w := by
  constructor
  · intro h
    obtain ⟨w, hvw, hwv⟩ := TransGen.head'_iff.1 h
    by_cases heq : w = v
    · exact .inl (heq ▸ hvw)
    · exact .inr ⟨w, heq, .single hvw, hwv⟩
  · rintro (h | ⟨w, hne, hvw, hwv⟩)
    · exact .single h
    · rcases reflTransGen_iff_eq_or_transGen.1 hvw with heq | htrans
      · exact absurd heq hne
      · exact htrans.trans_left hwv

end StronglyConnected
