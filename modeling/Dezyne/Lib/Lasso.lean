import Dezyne.Lib.AppendMap
import Mathlib.Data.List.Nodup
import Mathlib.Data.List.Perm.Subperm
import Mathlib.Logic.Relation
/-!
# Paths up to a repetition

A search that follows every path of a finite graph until it comes to a node that
is on the path already, and then gives the nodes of the path. A path that ends
without a repetition gives nothing. `mem_lassos_iff`: a node is in the paths from
its successors just when it is on a cycle.
-/

namespace Lasso

open AppendMap Relation

variable {V : Type*} [DecidableEq V] (succ : V → List V)

/-- The nodes of the paths from `o` that repeat one of theirs or of `found`, with those of `found`. -/
def lassos : Nat → V → List V → Option (List V)
  | 0, _, _ => none
  | fuel + 1, o, found =>
    if o ∈ found then some found else appendMap (fun v => lassos fuel v (o :: found)) (succ o)

/-- An edge of the graph. -/
def Edge (v w : V) : Prop := w ∈ succ v

/-- A way along the edges of a graph that does not enter the nodes of a list. -/
def Avoids (edge : V → V → Prop) (found : List V) : V → V → Prop := ReflTransGen fun v w => edge v w ∧ w ∉ found

variable {succ} {found nodes r : List V} {o x y : V} {fuel : Nat}

theorem lassos_of_mem (h : lassos succ fuel o found = some r) (ho : o ∈ found) : r = found := by
  cases fuel with
  | zero => cases h
  | succ fuel =>
    rw [lassos, if_pos ho] at h
    exact (Option.some.inj h).symm

theorem lassos_of_not_mem (h : lassos succ fuel o found = some r) (ho : o ∉ found) : ∃ n,
    fuel = n + 1 ∧ appendMap (fun v => lassos succ n v (o :: found)) (succ o) = some r := by
  cases fuel with
  | zero => cases h
  | succ fuel =>
    rw [lassos, if_neg ho] at h
    exact ⟨fuel, rfl, h⟩

/-- The search ends: the nodes of a path are different ones. -/
theorem exists_lassos (hnodes : ∀ v ∈ nodes, ∀ w ∈ succ v, w ∈ nodes) :
    ∀ {fuel : Nat} {o : V} {found : List V}, o ∈ nodes → found.Nodup → found ⊆ nodes →
      nodes.length < fuel + found.length → ∃ r, lassos succ fuel o found = some r := by
  intro fuel
  induction fuel with
  | zero =>
    intro o found _ hnd hsub hlen
    have hle : found.length ≤ nodes.length := (List.subperm_of_subset hnd hsub).length_le
    omega
  | succ fuel ih =>
    intro o found ho hnd hsub hlen
    rw [lassos]
    split
    · exact ⟨found, rfl⟩
    · rename_i hnot
      refine exists_appendMap.2 fun w hw => ih (hnodes o ho w hw) (hnd.cons hnot) ?_ ?_
      · exact List.cons_subset.2 ⟨ho, hsub⟩
      · rw [List.length_cons]
        omega

/-- Only nodes that are reached are added. -/
theorem reached_of_mem : ∀ {fuel : Nat} {o : V} {found r : List V}, lassos succ fuel o found = some r → x ∈ r →
    x ∈ found ∨ ReflTransGen (Edge succ) o x := by
  intro fuel
  induction fuel with
  | zero => intro o found r h; cases h
  | succ fuel ih =>
    intro o found r h hx
    by_cases ho : o ∈ found
    · rw [lassos_of_mem h ho] at hx
      exact .inl hx
    · obtain ⟨n, hn, h⟩ := lassos_of_not_mem h ho
      obtain rfl : fuel = n := by omega
      obtain ⟨w, hw, s, hs, hx⟩ := (mem_appendMap h).1 hx
      rcases ih hs hx with hx | hx
      · rcases List.mem_cons.1 hx with rfl | hx
        · exact .inr .refl
        · exact .inl hx
      · exact .inr (.head hw hx)

omit [DecidableEq V] in
theorem avoids_nil {edge : V → V → Prop} : Avoids edge [] x y ↔ ReflTransGen edge x y := by
  simp [Avoids]

omit [DecidableEq V] in
/-- A way to another node leaves its start for the last time. -/
theorem Avoids.leave {edge : V → V → Prop} (h : Avoids edge found o x) (hne : o ≠ x) :
    ∃ w, edge o w ∧ w ∉ o :: found ∧ Avoids edge (o :: found) w x := by
  let Leaves : Prop := ∃ w, edge o w ∧ w ∉ o :: found ∧ Avoids edge (o :: found) w x
  have hway : ∀ {v : V}, Avoids edge found v x →
      (v = o → Leaves) ∧ (v ≠ o → Avoids edge (o :: found) v x ∨ Leaves) := by
    intro v hv
    induction hv using ReflTransGen.head_induction_on with
    | refl => exact ⟨fun heq => absurd heq.symm hne, fun _ => .inl .refl⟩
    | @head v w hvw _ ih =>
      by_cases hw : w = o
      · exact ⟨fun _ => ih.1 hw, fun _ => .inr (ih.1 hw)⟩
      · have hnot : w ∉ o :: found := by simp [hw, hvw.2]
        rcases ih.2 hw with hwx | hleaves
        · exact ⟨fun hv => ⟨w, hv ▸ hvw.1, hnot, hwx⟩, fun _ => .inl (.head ⟨hvw.1, hnot⟩ hwx)⟩
        · exact ⟨fun _ => hleaves, fun _ => .inr hleaves⟩
  exact (hway h).1 rfl

/-- A node that is reached and from which an edge leads back is found. -/
theorem mem_of_back (hy : y ∈ succ x) : ∀ {fuel : Nat} {o : V} {found r : List V},
    lassos succ fuel o found = some r → o ∉ found → Avoids (Edge succ) found o x → y ∈ o :: found → x ∈ r := by
  intro fuel
  induction fuel with
  | zero => intro o found r h; cases h
  | succ fuel ih =>
    intro o found r h ho hway hback
    obtain ⟨n, hn, h⟩ := lassos_of_not_mem h ho
    obtain rfl : fuel = n := by omega
    by_cases hox : o = x
    · subst hox
      obtain ⟨s, hs, hsub⟩ := subset_appendMap h hy
      rw [lassos_of_mem hs hback] at hsub
      exact hsub (by simp)
    · obtain ⟨w, hw, hnot, hway⟩ := hway.leave hox
      obtain ⟨s, hs, hsub⟩ := subset_appendMap h hw
      exact hsub (ih hs hnot hway (List.mem_cons_of_mem w hback))

/-- The nodes that the successors of a node are on a path to a repetition with are those of its cycles, as far as the
node itself is concerned. -/
theorem mem_lassos_iff {fuel : Nat} {rs : List V}
    (h : appendMap (fun w => (lassos succ fuel w []).map (w :: ·)) (succ x) = some rs) :
    x ∈ rs ↔ TransGen (Edge succ) x x := by
  have hpart : ∀ {w : V} {s : List V}, (lassos succ fuel w []).map (w :: ·) = some s →
      ∃ r, lassos succ fuel w [] = some r ∧ s = w :: r := by
    intro w s hs
    obtain ⟨r, hr, rfl⟩ := Option.map_eq_some_iff.1 hs
    exact ⟨r, hr, rfl⟩
  constructor
  · intro hx
    obtain ⟨w, hw, s, hs, hx⟩ := (mem_appendMap h).1 hx
    obtain ⟨r, hr, rfl⟩ := hpart hs
    rcases List.mem_cons.1 hx with rfl | hx
    · exact .single hw
    · rcases reached_of_mem hr hx with hx | hx
      · cases hx
      · exact .head' hw hx
  · intro hcycle
    obtain ⟨w, hw, hway⟩ := TransGen.head'_iff.1 hcycle
    obtain ⟨s, hs, hsub⟩ := subset_appendMap h hw
    obtain ⟨r, hr, rfl⟩ := hpart hs
    exact hsub (List.mem_cons_of_mem w (mem_of_back hw hr (by simp) (avoids_nil.2 hway) (by simp)))

end Lasso
