import Dezyne.Lib.Prerequisites
import Mathlib.Data.List.Perm.Subperm
import Mathlib.Logic.Function.Basic
import Mathlib.Logic.Relation
/-!
# The order of models

Systems are put in the order in which a depth-first walk over their instances leaves
them; the walk marks them by their names in a table. All other models are sorted by
what they are, and come first.
-/

namespace Dezyne.ModelSort

open Prerequisites Relation

variable {M N : Type}

/-! ## `ast:topological-model-sort` -/

inductive Kind where
  | externData
  | interface
  | component
  | foreign
  | system
deriving DecidableEq

/-- Models, with the string object of `ast:name`, and `.type` of each of `ast:instance*`. -/
structure Ast (M N : Type) where
  kind : M → Kind
  name : M → N
  instanceTypes : M → List M

/-- What `adj-table` has for a key. -/
inductive Entry (M : Type) where
  | absent
  | children (l : List M)
  | visited

/-- `(or val '())` -/
def Entry.toList : Entry M → List M
  | .children l => l
  | _ => []

/-- `adj-table` and `sorted` -/
structure Walk (M N : Type) where
  table : N → Entry M
  sorted : List M

section
variable [DecidableEq N] (key : M → N)

/-- `visit`; it fails with `double visit`. -/
def visit : Nat → M → List M → Walk M N → Option (Walk M N)
  | 0, _, _, _ => none
  | fuel + 1, node, children, s =>
    match s.table (key node) with
    | .visited => none
    | _ =>
      (children.foldlM (fun (s : Walk M N) child =>
        match s.table (key child) with
        | .visited => some s
        | val => visit fuel child val.toList s)
        ⟨Function.update s.table (key node) .visited, s.sorted⟩).map fun (s : Walk M N) =>
          ⟨s.table, node :: s.sorted⟩

/-- `adj-table` as it is filled first -/
def adjTable (dag : List (M × List M)) (table : N → Entry M) : N → Entry M :=
  dag.foldl (fun table d => Function.update table (key d.1) (.children d.2)) table

/-- The visit of an entry of the list that is not visited yet. -/
def visitEntry (fuel : Nat) (s : Walk M N) (d : M × List M) : Option (Walk M N) :=
  match s.table (key d.1) with
  | .visited => some s
  | _ => visit key fuel d.1 d.2 s

def topologicalSort (fuel : Nat) : List (M × List M) → Option (List M)
  | [] => some []
  | d :: dag =>
    (visit key fuel d.1 d.2 ⟨adjTable key (d :: dag) fun _ => .absent, []⟩).bind fun s =>
      (dag.foldlM (visitEntry key fuel) s).map fun s => s.sorted.reverse

end

namespace Ast

variable (ast : Ast M N)

/-- The order for `stable-sort` -/
def less (a b : M) : Bool :=
  match ast.kind a, ast.kind b with
  | .externData, .interface => true
  | .externData, .component => true
  | .externData, .foreign => true
  | .interface, .component => true
  | .interface, .foreign => true
  | _, _ => false

def isSystem (m : M) : Bool := ast.kind m = .system

/-- The systems among the types of instances -/
def systemTypes (m : M) : List M := (ast.instanceTypes m).filter ast.isSystem

/-- `system-dag` -/
def systemDag (systems : List M) : List (M × List M) := systems.map fun o => (o, ast.systemTypes o)

/-- `ast:topological-model-sort` -/
def topologicalModelSort [DecidableEq M] [DecidableEq N] (fuel : Nat) (models : List M) : Option (List M) :=
  let (systems, rest) := models.partition ast.isSystem
  let rest := rest.mergeSort fun a b => !ast.less b a
  (topologicalSort ast.name fuel (ast.systemDag systems)).map fun systems =>
    rest ++ systems.filter fun m => m ∈ models

end Ast

/-! ## The walk -/

section
variable {key : M → N} {dag : List (M × List M)}

/-- The edges between the keys of the list. -/
def Needs (key : M → N) (dag : List (M × List M)) (k d : N) : Prop :=
  ∃ e ∈ dag, key e.1 = k ∧ ∃ c ∈ e.2, key c = d

/-- All models of the list. -/
def nodes (dag : List (M × List M)) : List M := dag.flatMap fun d => d.1 :: d.2

/-- What the table has for a key fits the list. -/
def Fits (key : M → N) (dag : List (M × List M)) (k : N) (e : Entry M) : Prop :=
  (∀ d, Needs key dag k d ↔ ∃ c ∈ e.toList, key c = d) ∧ ∀ c ∈ e.toList, c ∈ nodes dag

variable [DecidableEq N]

theorem adjTable_of_not_mem {k : N} : ∀ {dag : List (M × List M)} {table : N → Entry M},
    k ∉ dag.map (fun d => key d.1) → adjTable key dag table k = table k := by
  intro dag
  induction dag with
  | nil => intro table _; rfl
  | cons d dag ih =>
    intro table hk
    rw [List.map_cons, List.mem_cons, not_or] at hk
    rw [adjTable, List.foldl_cons, ← adjTable, ih hk.2, Function.update_of_ne hk.1]

theorem adjTable_of_mem {d : M × List M} : ∀ {dag : List (M × List M)} {table : N → Entry M},
    (dag.map fun d => key d.1).Nodup → d ∈ dag → adjTable key dag table (key d.1) = .children d.2 := by
  intro dag
  induction dag with
  | nil => intro table _ hd; cases hd
  | cons e dag ih =>
    intro table hnd hd
    rw [List.map_cons, List.nodup_cons] at hnd
    rw [adjTable, List.foldl_cons, ← adjTable]
    rcases List.mem_cons.1 hd with rfl | hd
    · rw [adjTable_of_not_mem hnd.1, Function.update_self]
    · exact ih hnd.2 hd

/-- Every entry is absent or has the children of its key. -/
theorem adjTable_fits (hnd : (dag.map fun d => key d.1).Nodup) (k : N) :
    adjTable key dag (fun _ => .absent) k ≠ .visited ∧ Fits key dag k (adjTable key dag (fun _ => .absent) k) := by
  by_cases hk : k ∈ dag.map fun d => key d.1
  · obtain ⟨e, he, rfl⟩ := List.mem_map.1 hk
    rw [adjTable_of_mem hnd he]
    refine ⟨by simp, fun d => ⟨?_, fun ⟨c, hc, hd⟩ => ⟨e, he, rfl, c, hc, hd⟩⟩, fun c hc => ?_⟩
    · rintro ⟨e', he', hkey, c, hc, hd⟩
      have heq : e' = e := List.inj_on_of_nodup_map hnd he' he hkey
      exact ⟨c, heq ▸ hc, hd⟩
    · exact List.mem_flatMap.2 ⟨e, he, List.mem_cons_of_mem _ hc⟩
  · rw [adjTable_of_not_mem hk]
    refine ⟨by simp, fun d => ⟨?_, by simp [Entry.toList]⟩, by simp [Entry.toList]⟩
    rintro ⟨e, he, hkey, -⟩
    exact absurd (List.mem_map.2 ⟨e, he, hkey⟩) hk

/-- The models that are visited are those that are left, in an order in which children come before, and those under
way; for all others the table is as it was filled. -/
structure Inv (key : M → N) (dag : List (M × List M)) (gray : List N) (s : Walk M N) : Prop where
  table : ∀ k, s.table k ≠ .visited → s.table k = adjTable key dag (fun _ => .absent) k
  visited : ∀ k, s.table k = .visited ↔ k ∈ gray ∨ k ∈ s.sorted.map key
  ready : Ready (Needs key dag) key [] s.sorted.reverse
  nodup : (s.sorted.map key).Nodup
  apart : ∀ k ∈ gray, k ∉ s.sorted.map key
  sorted : ∀ n ∈ s.sorted, n ∈ nodes dag

variable {s : Walk M N} {gray : List N} {node : M}

theorem Inv.fits (hnd : (dag.map fun d => key d.1).Nodup) (h : Inv key dag gray s) {k : N}
    (hk : s.table k ≠ .visited) : Fits key dag k (s.table k) := by
  rw [h.table k hk]
  exact (adjTable_fits hnd k).2

/-- A visit starts. -/
theorem Inv.enter (h : Inv key dag gray s) (hn : s.table (key node) ≠ .visited) :
    Inv key dag (key node :: gray) ⟨Function.update s.table (key node) .visited, s.sorted⟩ where
  table k hk := by
    by_cases heq : k = key node
    · subst heq
      simp at hk
    · simp only [Function.update_of_ne heq] at hk ⊢
      exact h.table k hk
  visited k := by
    by_cases heq : k = key node
    · simp [heq]
    · simp only [Function.update_of_ne heq, h.visited, List.mem_cons]
      simp [heq]
  ready := h.ready
  nodup := h.nodup
  apart k hk hmem := by
    rcases List.mem_cons.1 hk with rfl | hk
    · exact hn ((h.visited _).2 (.inr hmem))
    · exact h.apart k hk hmem
  sorted := h.sorted

/-- A visit ends, when all children are left. -/
theorem Inv.leave (h : Inv key dag (key node :: gray) s) (hgray : key node ∉ gray) (hnode : node ∈ nodes dag)
    (hneeds : ∀ d, Needs key dag (key node) d → d ∈ s.sorted.map key) :
    Inv key dag gray ⟨s.table, node :: s.sorted⟩ where
  table := h.table
  visited k := by
    rw [h.visited k, List.map_cons, List.mem_cons, List.mem_cons]
    tauto
  ready := by
    rw [List.reverse_cons, ready_append]
    exact ⟨h.ready, fun d hd => by simpa using hneeds d hd, trivial⟩
  nodup := List.nodup_cons.2 ⟨h.apart _ (by simp), h.nodup⟩
  apart k hk hmem := by
    rcases List.mem_cons.1 hmem with rfl | hmem
    · exact hgray hk
    · exact h.apart k (List.mem_cons_of_mem _ hk) hmem
  sorted n hn := by
    rcases List.mem_cons.1 hn with rfl | hn
    · exact hnode
    · exact h.sorted n hn

/-- The children one by one, each of which comes to an end and is left. -/
theorem children_spec {gray : List N} {step : Walk M N → M → Option (Walk M N)} {children : List M}
    (hstep : ∀ c ∈ children, ∀ s, Inv key dag gray s → ∃ s', step s c = some s' ∧ Inv key dag gray s' ∧
      key c ∈ s'.sorted.map key ∧ s.sorted <:+ s'.sorted) :
    ∀ {s : Walk M N}, Inv key dag gray s → ∃ s', children.foldlM step s = some s' ∧ Inv key dag gray s' ∧
      (∀ c ∈ children, key c ∈ s'.sorted.map key) ∧ s.sorted <:+ s'.sorted := by
  induction children with
  | nil => exact fun {s} hs => ⟨s, rfl, hs, by simp, List.suffix_refl _⟩
  | cons c children ih =>
    intro s hs
    obtain ⟨s1, hc, hs1, hmem, hsuff⟩ := hstep c (by simp) s hs
    obtain ⟨s2, hrest, hs2, hall, hsuff'⟩ := ih (fun d hd => hstep d (by simp [hd])) hs1
    refine ⟨s2, ?_, hs2, fun d hd => ?_, hsuff.trans hsuff'⟩
    · rw [List.foldlM_cons, hc]
      exact hrest
    · rcases List.mem_cons.1 hd with rfl | hd
      · exact List.map_subset _ hsuff'.subset hmem
      · exact hall d hd

/-- A visit comes to an end and leaves the model, after all that it needs. -/
theorem visit_spec (hnd : (dag.map fun d => key d.1).Nodup) (hacyclic : ∀ k, ¬ TransGen (Needs key dag) k k) :
    ∀ {fuel : Nat} {node : M} {s : Walk M N} {gray : List N}, Inv key dag gray s → s.table (key node) ≠ .visited → node ∈ nodes dag → gray.Nodup →
      gray ⊆ (nodes dag).map key → (∀ g ∈ gray, TransGen (Needs key dag) g (key node)) →
      (nodes dag).length < fuel + gray.length →
      ∃ s', visit key fuel node (s.table (key node)).toList s = some s' ∧ Inv key dag gray s' ∧
        key node ∈ s'.sorted.map key ∧ s.sorted <:+ s'.sorted := by
  intro fuel
  induction fuel with
  | zero =>
    intro node s gray _ _ _ hgnd hsub _ hlen
    have hle := (List.subperm_of_subset hgnd hsub).length_le
    rw [List.length_map] at hle
    omega
  | succ fuel ih =>
    intro node s gray hinv hnot hnode hgnd hsub hreach hlen
    have hgray : key node ∉ gray := fun hmem => hnot ((hinv.visited _).2 (.inl hmem))
    have hfits := hinv.fits hnd hnot
    have henter := hinv.enter hnot
    have hcycle : ∀ g ∈ key node :: gray, ¬ Needs key dag (key node) g := by
      intro g hg hneeds
      rcases List.mem_cons.1 hg with rfl | hg
      · exact hacyclic _ (.single hneeds)
      · exact hacyclic g ((hreach g hg).tail hneeds)
    -- a child that is visited already is left, any other one is visited
    have hchild : ∀ c ∈ (s.table (key node)).toList, ∀ t, Inv key dag (key node :: gray) t → ∃ t',
        (match t.table (key c) with
          | .visited => some t
          | val => visit key fuel c val.toList t) = some t' ∧ Inv key dag (key node :: gray) t' ∧
        key c ∈ t'.sorted.map key ∧ t.sorted <:+ t'.sorted := by
      intro c hc t ht
      have hneeds : Needs key dag (key node) (key c) := (hfits.1 _).2 ⟨c, hc, rfl⟩
      by_cases hv : t.table (key c) = .visited
      · rw [hv]
        refine ⟨t, rfl, ht, ?_, List.suffix_refl _⟩
        exact ((ht.visited _).1 hv).resolve_left fun hg => hcycle _ hg hneeds
      · have hvisit := ih ht hv (hfits.2 c hc) (List.nodup_cons.2 ⟨hgray, hgnd⟩)
          (List.cons_subset.2 ⟨List.mem_map_of_mem hnode, hsub⟩) (fun g hg => ?_) (by rw [List.length_cons]; omega)
        · obtain ⟨t', ht'⟩ := hvisit
          refine ⟨t', ?_, ht'.2⟩
          rw [← ht'.1]
          split
          · exact absurd ‹_› hv
          · rfl
        · rcases List.mem_cons.1 hg with rfl | hg
          · exact .single hneeds
          · exact (hreach g hg).tail hneeds
    obtain ⟨t, hfold, ht, hall, hsuff⟩ := children_spec hchild henter
    refine ⟨⟨t.table, node :: t.sorted⟩, ?_, ht.leave hgray hnode fun d hd => ?_, by simp, ?_⟩
    · rw [visit]
      split
      · exact absurd ‹_› hnot
      · rw [hfold]
        rfl
    · obtain ⟨c, hc, rfl⟩ := (hfits.1 d).1 hd
      exact hall c hc
    · exact hsuff.trans (List.suffix_cons _ _)

/-- The visit of an entry leaves its model. -/
theorem visitEntry_spec {fuel : Nat} {d : M × List M} (hnd : (dag.map fun d => key d.1).Nodup)
    (hacyclic : ∀ k, ¬ TransGen (Needs key dag) k k) (hfuel : (nodes dag).length < fuel) (h : Inv key dag [] s)
    (hd : d ∈ dag) :
    ∃ s', visitEntry key fuel s d = some s' ∧ Inv key dag [] s' ∧ key d.1 ∈ s'.sorted.map key ∧
      s.sorted <:+ s'.sorted := by
  rw [visitEntry]
  split
  · rename_i hv
    exact ⟨s, rfl, h, ((h.visited _).1 hv).resolve_left (by simp), List.suffix_refl _⟩
  · rename_i hv
    have hchildren : (s.table (key d.1)).toList = d.2 := by
      rw [h.table _ hv, adjTable_of_mem hnd hd]
      rfl
    rw [← hchildren]
    exact visit_spec hnd hacyclic h hv (List.mem_flatMap.2 ⟨d, hd, List.mem_cons_self⟩) List.nodup_nil
      (List.nil_subset _) (by simp) (by simpa using hfuel)

/-- The list that is sorted has every key once, after those it needs, and all models of it are of the list. -/
theorem topologicalSort_spec {fuel : Nat} (hnd : (dag.map fun d => key d.1).Nodup)
    (hacyclic : ∀ k, ¬ TransGen (Needs key dag) k k) (hfuel : (nodes dag).length < fuel) :
    ∃ l, topologicalSort key fuel dag = some l ∧ (l.map key).Nodup ∧ Ready (Needs key dag) key [] l ∧
      (∀ n ∈ l, n ∈ nodes dag) ∧ ∀ d ∈ dag, key d.1 ∈ l.map key := by
  cases hdag : dag with
  | nil => exact ⟨[], rfl, List.nodup_nil, trivial, by simp, by simp⟩
  | cons d rest =>
    have hinit : Inv key dag [] ⟨adjTable key dag fun _ => .absent, []⟩ :=
      { table := fun k _ => rfl
        visited := fun k => by simpa using (adjTable_fits hnd k).1
        ready := trivial
        nodup := List.nodup_nil
        apart := by simp
        sorted := by simp }
    have hloop : ∀ (l : List (M × List M)) (s : Walk M N), (∀ e ∈ l, e ∈ dag) → Inv key dag [] s →
        ∃ s', l.foldlM (visitEntry key fuel) s = some s' ∧ Inv key dag [] s' ∧
          (∀ e ∈ l, key e.1 ∈ s'.sorted.map key) ∧ s.sorted <:+ s'.sorted := by
      intro l
      induction l with
      | nil => exact fun s _ hs => ⟨s, rfl, hs, by simp, List.suffix_refl _⟩
      | cons e l ih =>
        intro s hl hs
        obtain ⟨s1, hstep, hs1, hmem, hsuff⟩ := visitEntry_spec hnd hacyclic hfuel hs (hl e (by simp))
        obtain ⟨s2, hrest, hs2, hall, hsuff'⟩ := ih s1 (fun e he => hl e (by simp [he])) hs1
        refine ⟨s2, by rw [List.foldlM_cons, hstep]; exact hrest, hs2, fun a ha => ?_, hsuff.trans hsuff'⟩
        rcases List.mem_cons.1 ha with rfl | ha
        · exact List.map_subset _ hsuff'.subset hmem
        · exact hall a ha
    obtain ⟨s, hfold, hs, hall, -⟩ := hloop dag _ (fun e he => he) hinit
    -- the first entry is visited without a test
    have hfirst : topologicalSort key fuel dag = (dag.foldlM (visitEntry key fuel)
        ⟨adjTable key dag fun _ => .absent, []⟩).map fun s => s.sorted.reverse := by
      have hd : adjTable key dag (fun _ => .absent) (key d.1) = .children d.2 :=
        adjTable_of_mem hnd (by simp [hdag])
      rw [hdag, topologicalSort, List.foldlM_cons, visitEntry, ← hdag]
      simp only [hd]
      cases visit key fuel d.1 d.2 ⟨adjTable key dag fun _ => .absent, []⟩ <;> rfl
    rw [← hdag, hfirst, hfold]
    refine ⟨s.sorted.reverse, rfl, ?_, hs.ready, fun n hn => hs.sorted n (List.mem_reverse.1 hn), fun e he => ?_⟩
    · rw [List.map_reverse, List.nodup_reverse]
      exact hs.nodup
    · rw [List.map_reverse, List.mem_reverse]
      exact hall e he

end

namespace Ast

variable {ast : Ast M N} {models : List M}

/-! ## The result -/

/-- A system has an instance of a system. -/
def Instantiates (ast : Ast M N) (m c : M) : Prop := ast.isSystem m ∧ ast.isSystem c ∧ c ∈ ast.instanceTypes m

/-- Interfaces come before components and foreign components, and these before systems. -/
def rank (ast : Ast M N) (m : M) : Nat :=
  match ast.kind m with
  | .externData => 0
  | .interface => 1
  | .component | .foreign => 2
  | .system => 3

/-- The systems and those they instantiate have different name objects. -/
def NamesApart (ast : Ast M N) (models : List M) : Prop :=
  ∀ m ∈ nodes (ast.systemDag (models.filter ast.isSystem)), ∀ n ∈ nodes (ast.systemDag (models.filter ast.isSystem)),
    ast.name m = ast.name n → m = n

theorem mem_nodes {m : M} : m ∈ nodes (ast.systemDag (models.filter ast.isSystem)) ↔
    (m ∈ models ∧ ast.isSystem m) ∨ ∃ o ∈ models, ast.Instantiates o m := by
  simp only [nodes, systemDag, systemTypes, Instantiates, List.mem_flatMap, List.mem_map, List.mem_filter]
  constructor
  · rintro ⟨d, ⟨o, ⟨ho, hs⟩, rfl⟩, hm⟩
    rcases List.mem_cons.1 hm with rfl | hm
    · exact .inl ⟨ho, hs⟩
    · rw [List.mem_filter] at hm
      exact .inr ⟨o, ho, hs, hm.2, hm.1⟩
  · rintro (⟨hm, hs⟩ | ⟨o, ho, hso, hsm, hm⟩)
    · exact ⟨_, ⟨m, ⟨hm, hs⟩, rfl⟩, List.mem_cons_self⟩
    · exact ⟨_, ⟨o, ⟨ho, hso⟩, rfl⟩, List.mem_cons_of_mem _ (List.mem_filter.2 ⟨hm, hsm⟩)⟩

/-- The edges between the names are those between the systems. -/
theorem needs_iff (hnames : ast.NamesApart models) {m : M} (hm : m ∈ models) (hs : ast.isSystem m) {d : N} :
    Needs ast.name (ast.systemDag (models.filter ast.isSystem)) (ast.name m) d ↔
      ∃ c, ast.Instantiates m c ∧ ast.name c = d := by
  constructor
  · rintro ⟨e, he, hkey, c, hc, hd⟩
    simp only [systemDag, List.mem_map, List.mem_filter] at he
    obtain ⟨o, ⟨ho, hso⟩, rfl⟩ := he
    obtain rfl := hnames o (mem_nodes.2 (.inl ⟨ho, hso⟩)) m (mem_nodes.2 (.inl ⟨hm, hs⟩)) hkey
    rw [systemTypes, List.mem_filter] at hc
    exact ⟨c, ⟨hs, hc.2, hc.1⟩, hd⟩
  · rintro ⟨c, ⟨-, hsc, hc⟩, hd⟩
    exact ⟨(m, ast.systemTypes m), List.mem_map.2 ⟨m, List.mem_filter.2 ⟨hm, hs⟩, rfl⟩, rfl, c,
      List.mem_filter.2 ⟨hc, hsc⟩, hd⟩

/-- Where no system is part of itself, no name needs itself. -/
theorem needs_acyclic (hnames : ast.NamesApart models) (hacyclic : ∀ m, ¬ TransGen ast.Instantiates m m) (k : N) :
    ¬ TransGen (Needs ast.name (ast.systemDag (models.filter ast.isSystem))) k k := by
  have hsource : ∀ {k d : N}, Needs ast.name (ast.systemDag (models.filter ast.isSystem)) k d →
      ∃ m ∈ models, ast.isSystem m ∧ ast.name m = k := by
    rintro k d ⟨e, he, hkey, -⟩
    simp only [systemDag, List.mem_map, List.mem_filter] at he
    obtain ⟨o, ⟨ho, hso⟩, rfl⟩ := he
    exact ⟨o, ho, hso, hkey⟩
  have hpath : ∀ {m : M} {d : N}, m ∈ models → ast.isSystem m →
      TransGen (Needs ast.name (ast.systemDag (models.filter ast.isSystem))) (ast.name m) d →
      ∃ c ∈ nodes (ast.systemDag (models.filter ast.isSystem)), TransGen ast.Instantiates m c ∧ ast.name c = d := by
    intro m d hm hs h
    induction h with
    | single h =>
      obtain ⟨c, hc, hd⟩ := (needs_iff hnames hm hs).1 h
      exact ⟨c, mem_nodes.2 (.inr ⟨m, hm, hc⟩), .single hc, hd⟩
    | @tail b d _ h ih =>
      obtain ⟨c, hc, hmc, rfl⟩ := ih
      obtain ⟨o, ho, hso, hname⟩ := hsource h
      obtain rfl := hnames o (mem_nodes.2 (.inl ⟨ho, hso⟩)) c hc hname
      obtain ⟨c', hc', hd⟩ := (needs_iff hnames ho hso).1 h
      exact ⟨c', mem_nodes.2 (.inr ⟨o, ho, hc'⟩), hmc.tail hc', hd⟩
  intro hk
  obtain ⟨d, hd, -⟩ := TransGen.head'_iff.1 hk
  obtain ⟨m, hm, hs, rfl⟩ := hsource hd
  obtain ⟨c, hc, hmc, hname⟩ := hpath hm hs hk
  obtain rfl := hnames c hc m (mem_nodes.2 (.inl ⟨hm, hs⟩)) hname
  exact hacyclic c hmc

/-- What is not a system is sorted by rank. -/
theorem rest_sorted {rest : List M} (h : ∀ m ∈ rest, ¬ ast.isSystem m) :
    (rest.mergeSort fun a b => !ast.less b a).Pairwise fun a b => ast.rank a ≤ ast.rank b := by
  have hle : ∀ a ∈ rest, ∀ b ∈ rest, (!ast.less b a) = decide (ast.rank (id a) ≤ ast.rank (id b)) := by
    intro a ha b hb
    have hsa := h a ha
    have hsb := h b hb
    unfold isSystem at hsa hsb
    unfold less rank
    cases hka : ast.kind a <;> cases hkb : ast.kind b <;> simp_all
  have hsame : (rest.mergeSort fun a b => !ast.less b a).map id =
      (rest.map id).mergeSort fun a b => decide (ast.rank a ≤ ast.rank b) := List.map_mergeSort hle
  rw [List.map_id, List.map_id] at hsame
  rw [hsame]
  refine (List.pairwise_mergeSort (fun a b c hab hbc => ?_) (fun a b => ?_) rest).imp fun h => of_decide_eq_true h
  · simp only [decide_eq_true_eq] at hab hbc ⊢
    omega
  · simp only [Bool.or_eq_true, decide_eq_true_eq]
    omega

theorem rank_le_of_isSystem {m n : M} (hn : ast.isSystem n) : ast.rank m ≤ ast.rank n := by
  have hn := of_decide_eq_true hn
  unfold rank
  rw [hn]
  cases ast.kind m <;> simp

/-- Where no system is part of itself, the models come back in an order in which interfaces come before components and
foreign components, these before systems, and systems after those that they instantiate. -/
theorem topologicalModelSort_spec [DecidableEq M] [DecidableEq N] (models : List M) (hnd : models.Nodup)
    (hnames : ast.NamesApart models) (hacyclic : ∀ m, ¬ TransGen ast.Instantiates m m) {fuel : Nat}
    (hfuel : (nodes (ast.systemDag (models.filter ast.isSystem))).length < fuel) :
    ∃ l, ast.topologicalModelSort fuel models = some l ∧ l.Perm models ∧
      l.Pairwise (fun a b => ast.rank a ≤ ast.rank b) ∧ l.Pairwise fun a b => ¬ ast.Instantiates a b := by
  have hmap : (ast.systemDag (models.filter ast.isSystem)).map (fun d => ast.name d.1) =
      (models.filter ast.isSystem).map ast.name := by
    simp [systemDag, Function.comp_def]
  have hsysNodup : ((models.filter ast.isSystem).map ast.name).Nodup := by
    refine List.Nodup.map_on (fun m hm n hn heq => ?_) (hnd.filter _)
    rw [List.mem_filter] at hm hn
    exact hnames m (mem_nodes.2 (.inl hm)) n (mem_nodes.2 (.inl hn)) heq
  obtain ⟨l, hsort, hlnd, hready, hnodes, hall⟩ := topologicalSort_spec (hmap ▸ hsysNodup)
    (needs_acyclic hnames hacyclic) hfuel
  have hlsys : ∀ m ∈ l, ast.isSystem m := by
    intro m hm
    rcases mem_nodes.1 (hnodes m hm) with ⟨-, hs⟩ | ⟨o, -, -, hs, -⟩
    · exact hs
    · exact hs
  have hmem : ∀ m, m ∈ l.filter (fun m => m ∈ models) ↔ m ∈ models.filter ast.isSystem := by
    intro m
    rw [List.mem_filter, List.mem_filter, decide_eq_true_eq]
    refine ⟨fun h => ⟨h.2, hlsys m h.1⟩, fun h => ⟨?_, h.1⟩⟩
    obtain ⟨n, hn, hname⟩ := List.mem_map.1 (hall (m, ast.systemTypes m)
      (List.mem_map.2 ⟨m, List.mem_filter.2 h, rfl⟩))
    exact hnames n (hnodes n hn) m (mem_nodes.2 (.inl h)) hname ▸ hn
  have hsystems : (l.filter fun m => m ∈ models).Perm (models.filter ast.isSystem) :=
    (List.perm_ext_iff_of_nodup (hlnd.of_map.filter _) (hnd.filter _)).2 hmem
  have hrest := List.mergeSort_perm (models.filter fun m => !ast.isSystem m) fun a b => !ast.less b a
  have hrestSys : ∀ m ∈ (models.filter fun m => !ast.isSystem m).mergeSort (fun a b => !ast.less b a),
      ¬ ast.isSystem m := by
    intro m hm
    simpa using (List.mem_filter.1 (hrest.mem_iff.1 hm)).2
  refine ⟨(models.filter fun m => !ast.isSystem m).mergeSort (fun a b => !ast.less b a) ++
    l.filter (fun m => m ∈ models), ?_, ?_, ?_, ?_⟩
  · rw [topologicalModelSort, List.partition_eq_filter_filter]
    simp only [hsort]
    rfl
  · refine (hrest.append hsystems).trans (List.perm_append_comm.trans ?_)
    exact List.filter_append_perm ast.isSystem models
  · refine List.pairwise_append.2 ⟨?_, ?_, ?_⟩
    · exact rest_sorted fun m hm => by simpa using (List.mem_filter.1 hm).2
    · exact List.pairwise_of_forall_mem_list fun a _ b hb => rank_le_of_isSystem (hlsys b (List.mem_filter.1 hb).1)
    · exact fun a _ b hb => rank_le_of_isSystem (hlsys b (List.mem_filter.1 hb).1)
  · refine List.pairwise_append.2 ⟨?_, ?_, fun a ha b _ h => hrestSys a ha h.1⟩
    · exact List.pairwise_of_forall_mem_list fun a ha b _ h => hrestSys a ha h.1
    · have hpair := (hready.pairwise hlnd (by simp)).sublist (List.filter_sublist (p := fun m => decide (m ∈ models)))
      refine hpair.imp_of_mem fun {a b} ha hb hneeds hinst => hneeds ?_
      have ha := (hmem a).1 ha
      rw [List.mem_filter] at ha
      exact (needs_iff hnames ha.1 ha.2).2 ⟨b, hinst, rfl⟩

/-- An interface, a component, a system of the component, and one of that system and of an imported one -/
def nested : Ast (Fin 5) (Fin 5) where
  kind
    | 0 => .interface
    | 1 => .component
    | _ => .system
  name := id
  instanceTypes
    | 2 => [1]
    | 3 => [2, 4]
    | _ => []

theorem nested_acyclic (m : Fin 5) : ¬ TransGen nested.Instantiates m m := by
  have hlt : ∀ a b : Fin 5, nested.Instantiates a b → b = 2 ∧ a = 3 ∨ b = 4 ∧ a = 3 := by
    unfold Instantiates
    decide
  intro h
  obtain ⟨b, hb, hrest⟩ := TransGen.head'_iff.1 h
  obtain ⟨c, -, hc⟩ := TransGen.tail'_iff.1 h
  rcases hlt _ _ hb with ⟨-, rfl⟩ | ⟨-, rfl⟩
  · rcases hlt _ _ hc with ⟨h3, -⟩ | ⟨h3, -⟩ <;> simp at h3
  · rcases hlt _ _ hc with ⟨h3, -⟩ | ⟨h3, -⟩ <;> simp at h3

theorem topologicalModelSort_nested : ∃ l, nested.topologicalModelSort 9 [3, 1, 2, 0] = some l ∧ l.Perm [3, 1, 2, 0] ∧
    l.Pairwise (fun a b => nested.rank a ≤ nested.rank b) ∧ l.Pairwise fun a b => ¬ nested.Instantiates a b :=
  topologicalModelSort_spec [3, 1, 2, 0] (by decide) (by unfold NamesApart; simp [nested]) nested_acyclic (by decide)

end Ast

end Dezyne.ModelSort
