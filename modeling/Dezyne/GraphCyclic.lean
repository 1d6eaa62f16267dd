import Dezyne.Lib.StronglyConnected
import Mathlib.Algebra.GroupWithZero.Nat
import Mathlib.Data.List.Perm.Subperm
import Mathlib.Logic.Function.Basic
/-!
# Cycles of a graph

Tarjan's algorithm with tables that stay from one query to the next. A node that
has an index and is not on the stack is done: its component is in the table and so
are those of all nodes that it reaches. Between queries all nodes with an index are.
The graphs of functions and of systems share the tables and no node: together they
are one graph.
-/

namespace Dezyne.GraphCyclic

open Relation StronglyConnected

variable {V : Type}

/-! ## `ast:graph-scc` -/

/-- The tables of `ast:graph-scc`; the stack has its top first. -/
structure Tables (V : Type) where
  indexTable : V → Option Nat
  lowlinkTable : V → Nat
  onStackTable : V → Bool
  sccTable : V → Option (List V)
  index : Nat
  stack : List V

/-- The tables before the first query. -/
def Tables.empty : Tables V := ⟨fun _ => none, fun _ => 0, fun _ => false, fun _ => none, 0, []⟩

section
variable [DecidableEq V]

/-- `v` gets the next index and is pushed. -/
def Tables.enter (s : Tables V) (v : V) : Tables V where
  indexTable := Function.update s.indexTable v (some s.index)
  lowlinkTable := Function.update s.lowlinkTable v s.index
  onStackTable := Function.update s.onStackTable v true
  sccTable := s.sccTable
  index := s.index + 1
  stack := v :: s.stack

/-- The `lowlink` of `v` becomes `n` if that is less. -/
def Tables.lower (s : Tables V) (v : V) (n : Nat) : Tables V :=
  { s with lowlinkTable := Function.update s.lowlinkTable v (min (s.lowlinkTable v) n) }

/-- The loop of `pop!` down to `v`: the component, the rest of the stack and the table of those on it -/
def popLoop (v : V) : List V → (V → Bool) → Option (List V × List V × (V → Bool))
  | [], _ => none
  | w :: stack, onStack =>
    if w = v then some ([v], stack, Function.update onStack w false)
    else (popLoop v stack (Function.update onStack w false)).map fun r => (w :: r.1, r.2)

/-- What is done after the successors -/
def Tables.leave (s : Tables V) (v : V) : Option (Tables V) :=
  if s.indexTable v = some (s.lowlinkTable v) then
    (popLoop v s.stack s.onStackTable).map fun (scc, stack, onStack) =>
      { s with
        sccTable := scc.foldl (fun table w => Function.update table w (some scc)) s.sccTable
        onStackTable := onStack
        stack := stack }
  else some s

variable (succ : V → List V)

def graphScc : Nat → V → Tables V → Option (Tables V)
  | 0, _, _ => none
  | fuel + 1, v, s =>
    match s.indexTable v with
    | some _ => some s
    | none =>
      ((succ v).foldlM (fun (s : Tables V) w =>
        match s.indexTable w with
        | none => (graphScc fuel w s).map fun (s : Tables V) => s.lower v (s.lowlinkTable w)
        | some i => some (if s.onStackTable w then s.lower v i else s)) (s.enter v)).bind fun s => s.leave v

/-- `ast:graph-cyclic?` with the tables after it -/
def graphCyclic (fuel : Nat) (o : V) (s : Tables V) : Option (Bool × Tables V) :=
  (graphScc succ fuel o s).bind fun s =>
    (s.sccTable o).map fun scc => (!scc.tail.isEmpty || o ∈ succ o, s)

/-- One query after the other -/
def queries (fuel : Nat) : List V → Tables V → Option (List Bool × Tables V)
  | [], s => some ([], s)
  | o :: os, s =>
    (graphCyclic succ fuel o s).bind fun (answer, s) =>
      (queries fuel os s).map fun (answers, s) => (answer :: answers, s)

end

/-- An edge of the graph. -/
def Edge (succ : V → List V) (v w : V) : Prop := w ∈ succ v

/-! ## The stack -/

variable {succ : V → List V} {s t u : Tables V} {gray : List V} {v w : V}

section
variable [DecidableEq V]

theorem popLoop_spec {new : List V} (rest : List V) (onStack : V → Bool) (h : v ∉ new) :
    ∃ table, popLoop v (new ++ v :: rest) onStack = some (new ++ [v], rest, table) ∧
      ∀ x, table x = if x ∈ new ++ [v] then false else onStack x := by
  induction new generalizing onStack with
  | nil =>
    refine ⟨Function.update onStack v false, by simp [popLoop], fun x => ?_⟩
    simp [Function.update_apply]
  | cons w new ih =>
    rw [List.mem_cons, not_or] at h
    obtain ⟨table, hpop, htable⟩ := ih (Function.update onStack w false) h.2
    refine ⟨table, ?_, fun x => ?_⟩
    · rw [List.cons_append, popLoop, if_neg (Ne.symm h.1), hpop]
      rfl
    · rw [htable, Function.update_apply]
      by_cases hx : x ∈ new ++ [v]
      · simp [hx]
      · by_cases hxw : x = w
        · simp [hxw]
        · simp [hx, hxw]

theorem foldl_update (scc : List V) (r : Option (List V)) (table : V → Option (List V)) (x : V) :
    (scc.foldl (fun table w => Function.update table w r) table) x = if x ∈ scc then r else table x := by
  induction scc generalizing table with
  | nil => simp
  | cons w scc ih =>
    rw [List.foldl_cons, ih, Function.update_apply]
    by_cases hx : x ∈ scc
    · simp [hx]
    · by_cases hxw : x = w
      · simp [hxw]
      · simp [hx, hxw]

end

/-! ## The invariant -/

/-- The index of a node -/
def Tables.num (s : Tables V) (v : V) : Nat := (s.indexTable v).getD 0

/-- What is done, what is on the stack and which of these are under way. -/
structure Inv (succ : V → List V) (gray : List V) (s : Tables V) : Prop where
  onStack : ∀ v, s.onStackTable v = true ↔ v ∈ s.stack
  indexed : ∀ v ∈ s.stack, s.indexTable v ≠ none
  bound : ∀ v i, s.indexTable v = some i → i < s.index
  sorted : s.stack.Pairwise fun a b => s.num b < s.num a
  closed : ∀ v, s.indexTable v ≠ none → v ∉ s.stack → ∀ w ∈ succ v, s.indexTable w ≠ none ∧ w ∉ s.stack
  scc : ∀ v, s.indexTable v ≠ none → v ∉ s.stack →
    ∃ l, s.sccTable v = some l ∧ l.Nodup ∧ ∀ w, w ∈ l ↔ Mutual (Edge succ) v w
  black : ∀ v ∈ s.stack, v ∉ gray → ∀ w ∈ succ v, s.indexTable w ≠ none
  pushed : ∀ g ∈ gray, g ∈ s.stack
  up : ∀ g ∈ gray, ∀ x ∈ s.stack, s.num g ≤ s.num x → ReflTransGen (Edge succ) g x
  down : ∀ x ∈ s.stack, ∃ g ∈ gray, s.num g ≤ s.num x ∧ ReflTransGen (Edge succ) x g

/-- From one state to a later one with the same nodes under way the stack grows, by nodes without an index. -/
structure Grows (s t : Tables V) : Prop where
  index : ∀ x i, s.indexTable x = some i → t.indexTable x = some i
  lowlink : ∀ x, s.indexTable x ≠ none → t.lowlinkTable x = s.lowlinkTable x
  stack : s.stack <:+ t.stack
  fresh : ∀ x ∈ t.stack, x ∉ s.stack → s.indexTable x = none

/-- What the `lowlink` of a node that was visited says: all edges from what is new on the stack to what was there go
to nodes with this index at least, and it is no index of what was there, or one of a node that is reached. -/
structure Low (succ : V → List V) (s t : Tables V) (v : V) : Prop where
  reached : s.index ≤ t.lowlinkTable v ∨
    ∃ y ∈ t.stack, t.num y = t.lowlinkTable v ∧ ReflTransGen (Edge succ) v y
  edges : ∀ x ∈ t.stack, x ∉ s.stack → ∀ y ∈ succ x, y ∈ s.stack → t.lowlinkTable v ≤ t.num y

theorem Grows.refl (s : Tables V) : Grows s s :=
  ⟨fun _ _ h => h, fun _ _ => rfl, List.suffix_refl _, fun _ h h' => absurd h h'⟩

theorem Grows.indexed (h : Grows s t) {x : V} (hx : s.indexTable x ≠ none) : t.indexTable x ≠ none := by
  obtain ⟨i, hi⟩ := Option.ne_none_iff_exists'.1 hx
  simp [h.index x i hi]

theorem Grows.num (h : Grows s t) {x : V} (hx : s.indexTable x ≠ none) : t.num x = s.num x := by
  obtain ⟨i, hi⟩ := Option.ne_none_iff_exists'.1 hx
  simp [Tables.num, hi, h.index x i hi]

theorem Grows.trans (h : Grows s t) (h' : Grows t u) : Grows s u where
  index x i hi := h'.index x i (h.index x i hi)
  lowlink x hx := (h'.lowlink x (h.indexed hx)).trans (h.lowlink x hx)
  stack := h.stack.trans h'.stack
  fresh x hx hxs := by
    by_cases hxt : x ∈ t.stack
    · exact h.fresh x hxt hxs
    · by_contra hne
      exact h.indexed hne (h'.fresh x hx hxt)

theorem Inv.stack_eq_nil (h : Inv succ [] s) : s.stack = [] := by
  refine List.eq_nil_iff_forall_not_mem.2 fun x hx => ?_
  obtain ⟨g, hg, -⟩ := h.down x hx
  cases hg

theorem Inv.not_mem (h : Inv succ gray s) (hv : s.indexTable v = none) : v ∉ s.stack :=
  fun hmem => h.indexed v hmem hv

theorem Inv.num_lt (h : Inv succ gray s) {x : V} (hx : s.indexTable x ≠ none) : s.num x < s.index := by
  obtain ⟨i, hi⟩ := Option.ne_none_iff_exists'.1 hx
  simpa [Tables.num, hi] using h.bound x i hi

/-! ## Within a visit -/

/-- Within the visit of a node, after some of its successors. -/
structure Within (succ : V → List V) (gray : List V) (v : V) (s t : Tables V) (visited : List V) : Prop where
  inv : Inv succ (v :: gray) t
  grows : Grows s t
  stack : v :: s.stack <:+ t.stack
  index : t.indexTable v = some s.index
  low : t.lowlinkTable v ≤ s.index
  reached : ∃ y ∈ t.stack, t.num y = t.lowlinkTable v ∧ ReflTransGen (Edge succ) v y
  edges : ∀ x ∈ t.stack, x ∉ s.stack → x ≠ v → ∀ y ∈ succ x, y ∈ s.stack → t.lowlinkTable v ≤ t.num y
  visited : ∀ w ∈ visited, t.indexTable w ≠ none ∧ (w ∈ s.stack → t.lowlinkTable v ≤ t.num w)

variable {visited : List V}

theorem Within.num (h : Within succ gray v s t visited) : t.num v = s.index := by
  simp [Tables.num, h.index]

/-- The nodes above `v` on the stack, with it -/
theorem Within.exists_new (h : Within succ gray v s t visited) : ∃ new, t.stack = new ++ v :: s.stack ∧ v ∉ new ∧
    ∀ x ∈ new, x ∉ s.stack := by
  obtain ⟨new, hnew⟩ := h.stack
  have hsorted := hnew ▸ h.inv.sorted
  obtain ⟨-, -, hlt⟩ := List.pairwise_append.1 hsorted
  refine ⟨new, hnew.symm, fun hmem => ?_, fun x hx hmem => ?_⟩
  · exact Nat.lt_irrefl _ (hlt v hmem v List.mem_cons_self)
  · exact Nat.lt_irrefl _ (hlt x hx x (List.mem_cons_of_mem _ hmem))

/-- All that is new on the stack has an index not less than the one of `v`. -/
theorem Within.index_le (h : Within succ gray v s t visited) {x : V} (hx : x ∈ t.stack) (hxs : x ∉ s.stack) :
    s.index ≤ t.num x := by
  obtain ⟨new, hnew, -, -⟩ := h.exists_new
  rw [← h.num]
  have hsorted := hnew ▸ h.inv.sorted
  obtain ⟨-, -, hlt⟩ := List.pairwise_append.1 hsorted
  rw [hnew, List.mem_append, List.mem_cons] at hx
  rcases hx with hx | rfl | hx
  · exact (hlt x hx v List.mem_cons_self).le
  · exact Nat.le_refl _
  · exact absurd hx hxs

/-- A successor that is done changes nothing. -/
theorem Within.done (h : Within succ gray v s t visited) (hw : t.indexTable w ≠ none) (hstack : w ∉ t.stack) :
    Within succ gray v s t (w :: visited) :=
  { h with
    visited := by
      intro x hx
      rcases List.mem_cons.1 hx with rfl | hx
      · exact ⟨hw, fun hxs => absurd (h.grows.stack.subset hxs) hstack⟩
      · exact h.visited x hx }

variable [DecidableEq V]

/-- The `lowlink` of a node that had no index before may change. -/
theorem Grows.lower (h : Grows s t) (hv : s.indexTable v = none) (n : Nat) : Grows s (t.lower v n) where
  index := h.index
  lowlink x hx := by
    have hne : x ≠ v := fun heq => hx (heq ▸ hv)
    simpa [Tables.lower, hne] using h.lowlink x hx
  stack := h.stack
  fresh := h.fresh

theorem Inv.lower (h : Inv succ gray s) (v : V) (n : Nat) : Inv succ gray (s.lower v n) :=
  { h with }

/-! ## A visit starts -/

theorem grows_enter (hv : s.indexTable v = none) : Grows s (s.enter v) where
  index x i hi := by
    have hne : x ≠ v := fun heq => by simp [heq, hv] at hi
    simp [Tables.enter, hne, hi]
  lowlink x hx := by
    have hne : x ≠ v := fun heq => hx (heq ▸ hv)
    simp [Tables.enter, hne]
  stack := List.suffix_cons _ _
  fresh x hx hxs := by
    rcases List.mem_cons.1 hx with rfl | hx
    · exact hv
    · exact absurd hx hxs

theorem num_enter : (s.enter v).num v = s.index := by
  simp [Tables.num, Tables.enter]

theorem Inv.enter (h : Inv succ gray s) (hv : s.indexTable v = none)
    (hreach : ∀ g ∈ gray, ReflTransGen (Edge succ) g v) : Inv succ (v :: gray) (s.enter v) := by
  have hgrows := grows_enter hv
  have hindexed : ∀ x, (s.enter v).indexTable x ≠ none → x = v ∨ s.indexTable x ≠ none := by
    intro x hx
    by_cases heq : x = v
    · exact .inl heq
    · simp only [Tables.enter, Function.update_of_ne heq] at hx
      exact .inr hx
  have hnum : ∀ x ∈ s.stack, (s.enter v).num x = s.num x ∧ s.num x < s.index := fun x hx =>
    ⟨hgrows.num (h.indexed x hx), h.num_lt (h.indexed x hx)⟩
  exact {
    onStack := by
      intro x
      by_cases heq : x = v
      · simp [Tables.enter, heq]
      · simp [Tables.enter, heq, h.onStack]
    indexed := by
      intro x hx
      rcases List.mem_cons.1 hx with rfl | hx
      · simp [Tables.enter]
      · exact hgrows.indexed (h.indexed x hx)
    bound := by
      intro x i hi
      by_cases heq : x = v
      · subst heq
        simp only [Tables.enter, Function.update_self, Option.some.injEq] at hi ⊢
        omega
      · simp only [Tables.enter, Function.update_of_ne heq] at hi ⊢
        have := h.bound x i hi
        omega
    sorted := by
      refine List.pairwise_cons.2 ⟨fun x hx => ?_, ?_⟩
      · rw [num_enter, (hnum x hx).1]
        exact (hnum x hx).2
      · refine h.sorted.imp_of_mem fun {a b} ha hb hlt => ?_
        rw [(hnum a ha).1, (hnum b hb).1]
        exact hlt
    closed := by
      intro x hx hxs w hw
      have hne : x ≠ v := fun heq => hxs (heq ▸ List.mem_cons_self)
      have hdone := h.closed x ((hindexed x hx).resolve_left hne) (fun hmem => hxs (List.mem_cons_of_mem _ hmem)) w hw
      refine ⟨hgrows.indexed hdone.1, fun hmem => ?_⟩
      rcases List.mem_cons.1 hmem with rfl | hmem
      · exact hdone.1 hv
      · exact hdone.2 hmem
    scc := by
      intro x hx hxs
      have hne : x ≠ v := fun heq => hxs (heq ▸ List.mem_cons_self)
      exact h.scc x ((hindexed x hx).resolve_left hne) fun hmem => hxs (List.mem_cons_of_mem _ hmem)
    black := by
      intro x hx hxg w hw
      rw [List.mem_cons, not_or] at hxg
      exact hgrows.indexed (h.black x ((List.mem_cons.1 hx).resolve_left hxg.1) hxg.2 w hw)
    pushed := by
      intro g hg
      rcases List.mem_cons.1 hg with rfl | hg
      · exact List.mem_cons_self
      · exact List.mem_cons_of_mem _ (h.pushed g hg)
    up := by
      intro g hg x hx hle
      rcases List.mem_cons.1 hg with rfl | hgray
      · rcases List.mem_cons.1 hx with rfl | hx
        · exact .refl
        · rw [num_enter, (hnum x hx).1] at hle
          have := (hnum x hx).2
          omega
      · rcases List.mem_cons.1 hx with rfl | hx
        · exact hreach g hgray
        · rw [(hnum x hx).1, (hnum g (h.pushed g hgray)).1] at hle
          exact h.up g hgray x hx hle
    down := by
      intro x hx
      rcases List.mem_cons.1 hx with rfl | hx
      · exact ⟨x, List.mem_cons_self, Nat.le_refl _, .refl⟩
      · obtain ⟨g, hg, hle, hpath⟩ := h.down x hx
        refine ⟨g, List.mem_cons_of_mem _ hg, ?_, hpath⟩
        rw [(hnum x hx).1, (hnum g (h.pushed g hg)).1]
        exact hle }

/-! ## The successors -/

theorem within_enter (h : Inv succ gray s) (hv : s.indexTable v = none)
    (hreach : ∀ g ∈ gray, ReflTransGen (Edge succ) g v) : Within succ gray v s (s.enter v) [] where
  inv := h.enter hv hreach
  grows := grows_enter hv
  stack := List.suffix_refl _
  index := by simp [Tables.enter]
  low := by simp [Tables.enter]
  reached := ⟨v, List.mem_cons_self, by rw [num_enter]; simp [Tables.enter], .refl⟩
  edges x hx hxs hne := by
    rcases List.mem_cons.1 hx with rfl | hx
    · exact absurd rfl hne
    · exact absurd hx hxs
  visited := by simp

theorem Tables.lowlinkTable_lower (s : Tables V) (v : V) (n : Nat) :
    (s.lower v n).lowlinkTable v = min (s.lowlinkTable v) n := by
  simp [Tables.lower]

/-- A successor on the stack lowers the `lowlink` to its index. -/
theorem Within.back (h : Within succ gray v s t visited) (hv : s.indexTable v = none) {i : Nat}
    (hedge : w ∈ succ v) (hw : t.indexTable w = some i) (hstack : w ∈ t.stack) :
    Within succ gray v s (t.lower v i) (w :: visited) := by
  have hi : t.num w = i := by simp [Tables.num, hw]
  exact {
    inv := h.inv.lower v i
    grows := h.grows.lower hv i
    stack := h.stack
    index := h.index
    low := by
      rw [Tables.lowlinkTable_lower]
      exact (Nat.min_le_left _ _).trans h.low
    reached := by
      rw [Tables.lowlinkTable_lower]
      obtain ⟨y, hy, hnum, hpath⟩ := h.reached
      rcases Nat.le_total (t.lowlinkTable v) i with hle | hle
      · exact ⟨y, hy, hnum.trans (Nat.min_eq_left hle).symm, hpath⟩
      · exact ⟨w, hstack, hi.trans (Nat.min_eq_right hle).symm, .single hedge⟩
    edges := by
      intro x hx hxs hne y hy hys
      rw [Tables.lowlinkTable_lower]
      exact (Nat.min_le_left _ _).trans (h.edges x hx hxs hne y hy hys)
    visited := by
      intro x hx
      rw [Tables.lowlinkTable_lower]
      rcases List.mem_cons.1 hx with rfl | hx
      · exact ⟨by simp [Tables.lower, hw], fun _ => (Nat.min_le_right _ _).trans hi.ge⟩
      · exact ⟨(h.visited x hx).1, fun hxs => (Nat.min_le_left _ _).trans ((h.visited x hx).2 hxs)⟩ }

/-- The visit of a successor lowers the `lowlink` to the one of the successor. -/
theorem Within.tree (h : Within succ gray v s t visited) (hv : s.indexTable v = none)
    (hedge : w ∈ succ v) (hw : t.indexTable w = none) (hu : Inv succ (v :: gray) u) (hgrows : Grows t u)
    (hwu : u.indexTable w ≠ none) (hlow : Low succ t u w) :
    Within succ gray v s (u.lower v (u.lowlinkTable w)) (w :: visited) := by
  have hvt : t.indexTable v ≠ none := by simp [h.index]
  have hlink : u.lowlinkTable v = t.lowlinkTable v := hgrows.lowlink v hvt
  have hnum : ∀ x ∈ t.stack, u.num x = t.num x := fun x hx => hgrows.num (h.inv.indexed x hx)
  have hlowlink : (u.lower v (u.lowlinkTable w)).lowlinkTable v = min (t.lowlinkTable v) (u.lowlinkTable w) := by
    rw [Tables.lowlinkTable_lower, hlink]
  have hwne : w ∉ s.stack := fun hmem => h.inv.not_mem hw (h.grows.stack.subset hmem)
  exact {
    inv := hu.lower v _
    grows := (h.grows.trans hgrows).lower hv _
    stack := h.stack.trans hgrows.stack
    index := hgrows.index v _ h.index
    low := by
      rw [hlowlink]
      exact (Nat.min_le_left _ _).trans h.low
    reached := by
      rw [hlowlink]
      obtain ⟨y, hy, hnumy, hpath⟩ := h.reached
      have hlt : t.lowlinkTable v < t.index := by
        have := h.inv.num_lt hvt
        rw [h.num] at this
        exact Nat.lt_of_le_of_lt h.low this
      rcases Nat.le_total (t.lowlinkTable v) (u.lowlinkTable w) with hle | hle
      · refine ⟨y, hgrows.stack.subset hy, ?_, hpath⟩
        rw [Nat.min_eq_left hle, ← hnumy]
        exact hnum y hy
      · rcases hlow.reached with hge | ⟨z, hz, hnumz, hpathz⟩
        · omega
        · exact ⟨z, hz, hnumz.trans (Nat.min_eq_right hle).symm, .head hedge hpathz⟩
    edges := by
      intro x hx hxs hne y hy hys
      rw [hlowlink]
      have hyt := h.grows.stack.subset hys
      by_cases hxt : x ∈ t.stack
      · have := h.edges x hxt hxs hne y hy hys
        rw [← hnum y hyt] at this
        exact (Nat.min_le_left _ _).trans this
      · exact (Nat.min_le_right _ _).trans (hlow.edges x hx hxt y hy hyt)
    visited := by
      intro x hx
      rw [hlowlink]
      rcases List.mem_cons.1 hx with rfl | hx
      · exact ⟨hwu, fun hmem => absurd hmem hwne⟩
      · refine ⟨hgrows.indexed (h.visited x hx).1, fun hxs => ?_⟩
        have := (h.visited x hx).2 hxs
        rw [← hnum x (h.grows.stack.subset hxs)] at this
        exact (Nat.min_le_left _ _).trans this }

/-! ## A visit ends -/

/-- A node with a `lowlink` less than its index stays on the stack. -/
theorem Within.stay (h : Within succ gray v s t visited) (hs : Inv succ gray s) (hv : s.indexTable v = none)
    (hall : ∀ w ∈ succ v, w ∈ visited) (hne : t.lowlinkTable v ≠ s.index) :
    Inv succ gray t ∧ Low succ s t v := by
  have hlt : t.lowlinkTable v < s.index := Nat.lt_of_le_of_ne h.low hne
  have hvs := hs.not_mem hv
  -- the node reaches one under way that comes before it
  obtain ⟨y, hy, hnumy, hpath⟩ := h.reached
  obtain ⟨g, hg, hle, hpathg⟩ := h.inv.down y hy
  have hgray : g ∈ gray := by
    refine (List.mem_cons.1 hg).resolve_left fun heq => ?_
    rw [heq, h.num, hnumy] at hle
    omega
  refine ⟨⟨h.inv.onStack, h.inv.indexed, h.inv.bound, h.inv.sorted, h.inv.closed, h.inv.scc, ?_, ?_, ?_, ?_⟩, ?_, ?_⟩
  · intro x hx hxg w hw
    by_cases heq : x = v
    · exact (h.visited w (hall w (heq ▸ hw))).1
    · exact h.inv.black x hx (by simp [heq, hxg]) w hw
  · exact fun g hg => h.inv.pushed g (List.mem_cons_of_mem _ hg)
  · exact fun g hg => h.inv.up g (List.mem_cons_of_mem _ hg)
  · intro x hx
    obtain ⟨g', hg', hle', hpath'⟩ := h.inv.down x hx
    rcases List.mem_cons.1 hg' with rfl | hg'
    · rw [h.num] at hle'
      exact ⟨g, hgray, by omega, hpath'.trans (hpath.trans hpathg)⟩
    · exact ⟨g', hg', hle', hpath'⟩
  · exact .inr ⟨y, hy, hnumy, hpath⟩
  · intro x hx hxs z hz hzs
    by_cases heq : x = v
    · exact (h.visited z (hall z (heq ▸ hz))).2 hzs
    · exact h.edges x hx hxs heq z hz hzs

/-- With the `lowlink` its index, a node and what is above it have edges to each other and to what is done. -/
theorem Within.edge (h : Within succ gray v s t visited) (hs : Inv succ gray s) (hall : ∀ w ∈ succ v, w ∈ visited)
    (heq : t.lowlinkTable v = s.index) {x y : V} (hx : x ∈ t.stack) (hxs : x ∉ s.stack) (hy : y ∈ succ x) :
    t.indexTable y ≠ none ∧ y ∉ s.stack := by
  have hlt : y ∈ s.stack → ¬ t.lowlinkTable v ≤ t.num y := by
    intro hys hle
    rw [heq, h.grows.num (hs.indexed y hys)] at hle
    have := hs.num_lt (hs.indexed y hys)
    omega
  by_cases hxv : x = v
  · have hvisited := h.visited y (hall y (hxv ▸ hy))
    exact ⟨hvisited.1, fun hys => hlt hys (hvisited.2 hys)⟩
  · have hxg : x ∉ v :: gray := by
      rw [List.mem_cons, not_or]
      exact ⟨hxv, fun hg => hxs (hs.pushed x hg)⟩
    exact ⟨h.inv.black x hx hxg y hy, fun hys => hlt hys (h.edges x hx hxs hxv y hy hys)⟩

/-- They are the component of the node. -/
theorem Within.component (h : Within succ gray v s t visited) (hs : Inv succ gray s) (hv : s.indexTable v = none)
    (hall : ∀ w ∈ succ v, w ∈ visited) (heq : t.lowlinkTable v = s.index) (w : V) :
    w ∈ t.stack ∧ w ∉ s.stack ↔ Mutual (Edge succ) v w := by
  have hclosed : ∀ x, t.indexTable x ≠ none ∧ x ∉ t.stack → ∀ y, Edge succ x y →
      t.indexTable y ≠ none ∧ y ∉ t.stack := fun x hx => h.inv.closed x hx.1 hx.2
  have hedges : ∀ x, x ∈ t.stack ∧ x ∉ s.stack → ∀ y, Edge succ x y →
      (y ∈ t.stack ∧ y ∉ s.stack) ∨ (t.indexTable y ≠ none ∧ y ∉ t.stack) := by
    intro x hx y hy
    obtain ⟨hindex, hys⟩ := h.edge hs hall heq hx.1 hx.2 hy
    by_cases hyt : y ∈ t.stack
    · exact .inl ⟨hyt, hys⟩
    · exact .inr ⟨hindex, hyt⟩
  have hvt : v ∈ t.stack := h.stack.subset List.mem_cons_self
  refine mem_iff_mutual {x | x ∈ t.stack ∧ x ∉ s.stack} {x | t.indexTable x ≠ none ∧ x ∉ t.stack} hclosed hedges
    (fun x hx hdone => hdone.2 hx.1) ?_ ⟨hvt, hs.not_mem hv⟩
  intro x hx
  refine ⟨h.inv.up v List.mem_cons_self x hx.1 (h.num ▸ h.index_le hx.1 hx.2), ?_⟩
  -- no path leads out of these nodes to one under way, apart from `v`
  obtain ⟨g, hg, -, hpath⟩ := h.inv.down x hx.1
  rcases List.mem_cons.1 hg with rfl | hgray
  · exact hpath
  · have hgs := hs.pushed g hgray
    have hunion := mem_of_reach ({x | x ∈ t.stack ∧ x ∉ s.stack} ∪ {x | t.indexTable x ≠ none ∧ x ∉ t.stack})
      (fun z hz y hy => hz.elim (fun hz => hedges z hz y hy) fun hz => .inr (hclosed z hz y hy)) hpath (.inl hx)
    rcases hunion with hgt | hgt
    · exact absurd hgs hgt.2
    · exact absurd (h.grows.stack.subset hgs) hgt.2

/-- What is popped are the nodes that are new on the stack; they get a component in common. -/
theorem Within.exists_leave (h : Within succ gray v s t visited) (hs : Inv succ gray s) (hv : s.indexTable v = none)
    (heq : t.lowlinkTable v = s.index) : ∃ (scc : List V) (table : V → Bool), scc.Nodup ∧
      (∀ x, x ∈ scc ↔ x ∈ t.stack ∧ x ∉ s.stack) ∧ (∀ x, table x = if x ∈ scc then false else t.onStackTable x) ∧
      t.leave v = some
        { t with
          sccTable := scc.foldl (fun table w => Function.update table w (some scc)) t.sccTable
          onStackTable := table
          stack := s.stack } := by
  obtain ⟨new, hnew, hvnew, hout⟩ := h.exists_new
  obtain ⟨table, hpop, htable⟩ := popLoop_spec s.stack t.onStackTable hvnew
  refine ⟨new ++ [v], table, ?_, fun x => ?_, htable, ?_⟩
  · have hsorted := hnew ▸ h.inv.sorted
    have hsub : (new ++ [v]).Sublist (new ++ v :: s.stack) :=
      (List.Sublist.refl new).append (List.Sublist.cons_cons v (List.nil_sublist _))
    refine (hsorted.sublist hsub).imp ?_
    rintro a b hlt rfl
    exact Nat.lt_irrefl _ hlt
  · rw [hnew]
    constructor
    · intro hx
      rcases List.mem_append.1 hx with hx | hx
      · exact ⟨List.mem_append_left _ hx, hout x hx⟩
      · obtain rfl := List.mem_singleton.1 hx
        exact ⟨by simp, hs.not_mem hv⟩
    · rintro ⟨hx, hxs⟩
      simpa [hxs] using hx
  · rw [Tables.leave, if_pos (heq ▸ h.index), hnew, hpop]
    rfl

/-- Such a node is popped with what is above it. -/
theorem Within.pop (h : Within succ gray v s t visited) (hs : Inv succ gray s) (hv : s.indexTable v = none)
    (hall : ∀ w ∈ succ v, w ∈ visited) (heq : t.lowlinkTable v = s.index) :
    ∃ u, t.leave v = some u ∧ Inv succ gray u ∧ Grows s u ∧ u.indexTable v ≠ none ∧ Low succ s u v := by
  obtain ⟨scc, table, hnodup, hmem, htable, hleave⟩ := h.exists_leave hs hv heq
  have hscc := foldl_update scc (some scc) t.sccTable
  have hnum : ∀ x ∈ s.stack, t.num x = s.num x := fun x hx => h.grows.num (hs.indexed x hx)
  refine ⟨_, hleave, ?_, ?_, ?_, ?_⟩
  · exact {
      onStack := by
        intro x
        have hsub : x ∈ s.stack → x ∈ t.stack := fun hx => h.grows.stack.subset hx
        change table x = true ↔ x ∈ s.stack
        rw [htable x]
        by_cases hx : x ∈ scc
        · rw [if_pos hx]
          simp [((hmem x).1 hx).2]
        · rw [if_neg hx, h.inv.onStack x]
          rw [hmem x, not_and, not_not] at hx
          exact ⟨hx, hsub⟩
      indexed := fun x hx => h.grows.indexed (hs.indexed x hx)
      bound := h.inv.bound
      sorted := by
        refine hs.sorted.imp_of_mem fun {a b} ha hb hlt => ?_
        exact (hnum b hb).trans_lt (hlt.trans_eq (hnum a ha).symm)
      closed := by
        intro x hx hxs y hy
        by_cases hxt : x ∈ t.stack
        · exact h.edge hs hall heq hxt hxs hy
        · have hdone := h.inv.closed x hx hxt y hy
          exact ⟨hdone.1, fun hys => hdone.2 (h.grows.stack.subset hys)⟩
      scc := by
        intro x hx hxs
        by_cases hxt : x ∈ t.stack
        · have hxv := (h.component hs hv hall heq x).1 ⟨hxt, hxs⟩
          refine ⟨scc, (hscc x).trans (if_pos ((hmem x).2 ⟨hxt, hxs⟩)), hnodup, fun w => ?_⟩
          rw [hmem, h.component hs hv hall heq]
          exact ⟨hxv.symm.trans, hxv.trans⟩
        · obtain ⟨l, hl, hrest⟩ := h.inv.scc x hx hxt
          have hnot : x ∉ scc := fun hx => hxt ((hmem x).1 hx).1
          exact ⟨l, (hscc x).trans ((if_neg hnot).trans hl), hrest⟩
      black := by
        intro x hx hxg y hy
        exact h.grows.indexed (hs.black x hx hxg y hy)
      pushed := hs.pushed
      up := by
        intro g hg x hx hle
        have hle' : s.num g ≤ s.num x := (hnum g (hs.pushed g hg)).symm.trans_le (hle.trans_eq (hnum x hx))
        exact hs.up g hg x hx hle'
      down := by
        intro x hx
        obtain ⟨g, hg, hle, hpath⟩ := hs.down x hx
        exact ⟨g, hg, (hnum g (hs.pushed g hg)).trans_le (hle.trans_eq (hnum x hx).symm), hpath⟩ }
  · exact ⟨h.grows.index, h.grows.lowlink, List.suffix_refl _, fun x hx hxs => absurd hx hxs⟩
  · simp [h.index]
  · exact ⟨.inl heq.ge, fun x hx hxs => absurd hx hxs⟩

/-! ## Queries -/

variable {nodes : List V} {fuel : Nat}

/-- A visit comes to an end; the node has an index then. -/
theorem graphScc_spec (hnodes : ∀ v ∈ nodes, ∀ w ∈ succ v, w ∈ nodes) :
    ∀ {fuel : Nat} {v : V} {s : Tables V} {gray : List V}, Inv succ gray s → s.indexTable v = none →
      (∀ g ∈ gray, ReflTransGen (Edge succ) g v) → v ∈ nodes → gray.Nodup → gray ⊆ nodes →
      nodes.length < fuel + gray.length →
      ∃ u, graphScc succ fuel v s = some u ∧ Inv succ gray u ∧ Grows s u ∧ u.indexTable v ≠ none ∧ Low succ s u v := by
  intro fuel
  induction fuel with
  | zero =>
    intro v s gray _ _ _ _ hnd hsub hlen
    have hle := (List.subperm_of_subset hnd hsub).length_le
    omega
  | succ fuel ih =>
    intro v s gray hs hv hreach hvnodes hnd hsub hlen
    have hvgray : v ∉ gray := fun hmem => hs.not_mem hv (hs.pushed v hmem)
    -- the successors one by one
    have hloop : ∀ (ws : List V) (t : Tables V) (visited : List V), (∀ w ∈ ws, w ∈ succ v) →
        Within succ gray v s t visited → ∃ t' visited', (ws.foldlM (fun (s : Tables V) w =>
          match s.indexTable w with
          | none => (graphScc succ fuel w s).map fun (s : Tables V) => s.lower v (s.lowlinkTable w)
          | some i => some (if s.onStackTable w then s.lower v i else s)) t) = some t' ∧
          Within succ gray v s t' visited' ∧ (∀ w ∈ visited, w ∈ visited') ∧ ∀ w ∈ ws, w ∈ visited' := by
      intro ws
      induction ws with
      | nil => exact fun t visited _ ht => ⟨t, visited, rfl, ht, fun w hw => hw, by simp⟩
      | cons w ws ihws =>
        intro t visited hws ht
        have hedge := hws w (by simp)
        obtain ⟨t1, hstep, ht1⟩ : ∃ t1, (match t.indexTable w with
            | none => (graphScc succ fuel w t).map fun (s : Tables V) => s.lower v (s.lowlinkTable w)
            | some i => some (if t.onStackTable w then t.lower v i else t)) = some t1 ∧
            Within succ gray v s t1 (w :: visited) := by
          cases hw : t.indexTable w with
          | none =>
            have hgray : ∀ g ∈ v :: gray, ReflTransGen (Edge succ) g w := by
              intro g hg
              rcases List.mem_cons.1 hg with rfl | hg
              · exact .single hedge
              · exact (hreach g hg).tail hedge
            obtain ⟨u, hvisit, hu, hgrows, hwu, hlow⟩ := ih ht.inv hw hgray (hnodes v hvnodes w hedge)
              (List.nodup_cons.2 ⟨hvgray, hnd⟩) (List.cons_subset.2 ⟨hvnodes, hsub⟩)
              (by rw [List.length_cons]; omega)
            exact ⟨_, by simp only [hvisit]; rfl, ht.tree hv hedge hw hu hgrows hwu hlow⟩
          | some i =>
            by_cases hstack : w ∈ t.stack
            · exact ⟨_, by simp only [(ht.inv.onStack w).2 hstack]; rfl, ht.back hv hedge hw hstack⟩
            · have hfalse : t.onStackTable w = false :=
                Bool.eq_false_iff.2 fun htrue => hstack ((ht.inv.onStack w).1 htrue)
              exact ⟨_, by simp only [hfalse]; rfl, ht.done (by simp [hw]) hstack⟩
        obtain ⟨t2, visited', hrest, ht2, hkeep, hall⟩ := ihws t1 _ (fun w hw => hws w (by simp [hw])) ht1
        refine ⟨t2, visited', ?_, ht2, fun x hx => hkeep x (by simp [hx]), fun x hx => ?_⟩
        · rw [List.foldlM_cons]
          exact (congrArg (· >>= _) hstep).trans hrest
        · rcases List.mem_cons.1 hx with rfl | hx
          · exact hkeep x (by simp)
          · exact hall x hx
    obtain ⟨t, visited, hfold, ht, -, hall⟩ := hloop _ _ _ (fun w hw => hw) (within_enter hs hv hreach)
    have hbody : graphScc succ (fuel + 1) v s = t.leave v := by
      rw [graphScc]
      simp only [hv, hfold]
      rfl
    rw [hbody]
    by_cases heq : t.lowlinkTable v = s.index
    · exact ht.pop hs hv hall heq
    · obtain ⟨hinv, hlow⟩ := ht.stay hs hv hall heq
      refine ⟨t, ?_, hinv, ht.grows, by simp [ht.index], hlow⟩
      rw [Tables.leave, if_neg]
      rw [ht.index, Option.some.injEq]
      exact Ne.symm heq

omit [DecidableEq V] in
theorem inv_empty : Inv succ [] (Tables.empty : Tables V) := by
  constructor <;> simp [Tables.empty]

omit [DecidableEq V] in
theorem tail_isEmpty_iff : ∀ {l : List V}, l.Nodup → v ∈ l → (l.tail.isEmpty = false ↔ ∃ w, w ≠ v ∧ w ∈ l)
  | [x], _, hv => by
    obtain rfl := List.mem_singleton.1 hv
    simp
  | x :: y :: l, hnd, _ => by
    refine ⟨fun _ => ?_, fun _ => rfl⟩
    have hxy : x ≠ y := by
      rintro rfl
      simp at hnd
    by_cases hxv : x = v
    · exact ⟨y, hxv ▸ hxy.symm, by simp⟩
    · exact ⟨x, hxv, by simp⟩

/-- A query leaves the tables as it found them, with nothing under way, and its answer is whether the node is on a
cycle. -/
theorem graphCyclic_spec (hnodes : ∀ v ∈ nodes, ∀ w ∈ succ v, w ∈ nodes) (hfuel : nodes.length < fuel)
    (hs : Inv succ [] s) (hv : v ∈ nodes) : ∃ answer u, graphCyclic succ fuel v s = some (answer, u) ∧
      Inv succ [] u ∧ (answer = true ↔ TransGen (Edge succ) v v) := by
  obtain ⟨u, hvisit, hu, hindex⟩ : ∃ u, graphScc succ fuel v s = some u ∧ Inv succ [] u ∧ u.indexTable v ≠ none := by
    cases hv' : s.indexTable v with
    | none =>
      obtain ⟨u, hvisit, hu, -, hindex, -⟩ := graphScc_spec hnodes hs hv' (by simp) hv List.nodup_nil
        (List.nil_subset _) (by simpa using hfuel)
      exact ⟨u, hvisit, hu, hindex⟩
    | some i =>
      obtain ⟨n, rfl⟩ : ∃ n, fuel = n + 1 := ⟨fuel - 1, by omega⟩
      exact ⟨s, by rw [graphScc]; simp only [hv'], hs, by simp [hv']⟩
  obtain ⟨l, hl, hnd, hmem⟩ := hu.scc v hindex (by simp [hu.stack_eq_nil])
  refine ⟨_, u, by rw [graphCyclic, hvisit, Option.bind_some, hl]; rfl, hu, ?_⟩
  have hvl : v ∈ l := (hmem v).2 ⟨.refl, .refl⟩
  rw [transGen_self_iff, Bool.or_eq_true, Bool.not_eq_true', tail_isEmpty_iff hnd hvl, decide_eq_true_eq]
  simp only [hmem]
  exact or_comm

/-- In a sequence of queries every one comes to an end and answers whether its node is on a cycle. -/
theorem queries_spec (hnodes : ∀ v ∈ nodes, ∀ w ∈ succ v, w ∈ nodes) (hfuel : nodes.length < fuel)
    (os : List V) (hos : os ⊆ nodes) : ∃ answers u, queries succ fuel os Tables.empty = some (answers, u) ∧
      List.Forall₂ (fun o answer => answer = true ↔ TransGen (Edge succ) o o) os answers := by
  have hrun : ∀ (os : List V) (s : Tables V), os ⊆ nodes → Inv succ [] s →
      ∃ answers u, queries succ fuel os s = some (answers, u) ∧
        List.Forall₂ (fun o answer => answer = true ↔ TransGen (Edge succ) o o) os answers := by
    intro os
    induction os with
    | nil => exact fun s _ _ => ⟨[], s, rfl, .nil⟩
    | cons o os ih =>
      intro s hos hs
      rw [List.cons_subset] at hos
      obtain ⟨answer, t, hquery, ht, hanswer⟩ := graphCyclic_spec hnodes hfuel hs hos.1
      obtain ⟨answers, u, hrest, hall⟩ := ih t hos.2 ht
      refine ⟨answer :: answers, u, ?_, .cons hanswer hall⟩
      rw [queries, hquery, Option.bind_some]
      simp only [hrest]
      rfl
  exact hrun os _ hos inv_empty

section

local instance neZeroFour : NeZero 4 := ⟨by decide⟩

/-- A node before a cycle of two, and one with an edge to itself -/
def ring : Fin 4 → List (Fin 4)
  | 0 => [1]
  | 1 => [2, 3]
  | 2 => [1]
  | 3 => [3]

end

theorem queries_ring : ∃ answers u, queries ring 5 [2, 0, 3, 1] Tables.empty = some (answers, u) ∧
    List.Forall₂ (fun o answer => answer = true ↔ TransGen (Edge ring) o o) [2, 0, 3, 1] answers := by
  have hnodes : ∀ v ∈ List.finRange 4, ∀ w ∈ ring v, w ∈ List.finRange 4 := by simp
  exact queries_spec hnodes (by simp) [2, 0, 3, 1] (by simp)

end Dezyne.GraphCyclic
