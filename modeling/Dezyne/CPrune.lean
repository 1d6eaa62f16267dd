import Dezyne.Lib.Cells
import Mathlib.Data.List.Nodup
import Mathlib.Data.List.Pairwise
import Mathlib.Data.List.TakeWhile
/-!
# Pruning the deferred list of the C pump

`dzn_pump_prune_deferred` first takes the entries whose predicate fails off the
front of the list, and then looks behind the first entry that is kept. There it
frees the cell before an entry that fails, and unlinks nothing.
-/

namespace Dezyne.CPrune

open Cells

/-! ## The memory -/

/-- `dzn_closure` -/
structure Closure where
  function : Nat
  argument : Nat

/-- `deferred`, with the addresses of its closures -/
structure Deferred where
  component : Nat
  predicate : Nat
  defer : Nat

/-- What `free` is called with. -/
inductive Block where
  | cell (a : Nat)
  | deferred (a : Nat)
  | closure (a : Nat)
deriving DecidableEq

/-- The cells of lists, the records and closures they lead to, and what has been freed. -/
structure Memory where
  cells : Heap Nat
  deferreds : Nat → Option Deferred
  closures : Nat → Option Closure
  freed : List Block

namespace Memory

/-- `free`; `none` where the block is not allocated. -/
def free (m : Memory) : Block → Option Memory
  | .cell a => (m.cells a).map fun _ => { m with cells := m.cells.set a none, freed := m.freed ++ [.cell a] }
  | .deferred a => (m.deferreds a).map fun _ =>
    { m with deferreds := fun b => if b = a then none else m.deferreds b, freed := m.freed ++ [.deferred a] }
  | .closure a => (m.closures a).map fun _ =>
    { m with closures := fun b => if b = a then none else m.closures b, freed := m.freed ++ [.closure a] }

/-- Calls of `free`, one after the other. -/
def freeAll (m : Memory) (blocks : List Block) : Option Memory := blocks.foldlM free m

/-- The predicate of the entry in a cell, with the blocks of the entry that `dzn_pump_prune_deferred` frees. -/
def entryOf (m : Memory) (cell : Cell Nat) : Option (Closure × Block × Block) := do
  let d ← m.deferreds cell.item
  let p ← m.closures d.predicate
  some (p, .closure d.predicate, .deferred cell.item)

end Memory

/-! ## The loops -/

section
variable (predicate : Closure → Bool)

/-- The first loop of `dzn_pump_prune_deferred`; it also sets `self->deferred` to `head`. -/
def pruneHead : Nat → Memory → Nat → Option (Memory × Nat)
  | 0, _, _ => none
  | fuel + 1, m, head =>
    if head = 0 then some (m, head)
    else do
      let cell ← m.cells head
      let (p, closure, record) ← m.entryOf cell
      if predicate p then some (m, head)
      else do
        let m ← m.freeAll [closure, record, .cell head]
        pruneHead fuel m cell.next

/-- The second loop; `none` where it reads what is not allocated. -/
def pruneNext : Nat → Memory → Nat → Option Memory
  | 0, _, _ => none
  | fuel + 1, m, head =>
    if head = 0 then some m
    else do
      let cell ← m.cells head
      if cell.next = 0 then some m
      else do
        let next ← m.cells cell.next
        let (p, closure, record) ← m.entryOf next
        if predicate p then pruneNext fuel m cell.next
        else do
          let m ← m.freeAll [closure, record, .cell head]
          pruneNext fuel m cell.next

/-- `dzn_pump_prune_deferred`, with the deferred list before and after it -/
def dznPumpPruneDeferred (fuel : Nat) (m : Memory) (deferred : Nat) : Option (Memory × Nat) := do
  let (m, head) ← pruneHead predicate fuel m deferred
  let m ← pruneNext predicate fuel m head
  some (m, head)

/-! ## What it is for -/

/-- An entry of the deferred list, with the cell and the record that it is in. -/
structure Entry where
  cell : Nat
  record : Nat
  deferred : Deferred
  predicate : Closure

/-- The blocks that are freed with an entry; its other closure is not. -/
def Entry.blocks (e : Entry) : List Block := [.closure e.deferred.predicate, .deferred e.record, .cell e.cell]

def blocksOf (entries : List Entry) : List Block := entries.flatMap Entry.blocks

/-- The cells of the entries. -/
def nodes (entries : List Entry) : List (Nat × Nat) := entries.map fun e => (e.cell, e.record)

/-- The record and the predicate of an entry are allocated. -/
def Allocated (m : Memory) (e : Entry) : Prop :=
  m.deferreds e.record = some e.deferred ∧ m.closures e.deferred.predicate = some e.predicate

/-- The list at an address has these entries. -/
structure IsDeferred (m : Memory) (deferred : Nat) (entries : List Entry) : Prop where
  linked : Linked m.cells deferred (nodes entries)
  allocated : ∀ e ∈ entries, Allocated m e
  distinct : (blocksOf entries).Nodup

/-- `dzn:prune-deferred` of the Scheme pump -/
def dznPruneDeferred (deferred : List Entry) : List Entry := deferred.filter fun e => predicate e.predicate

/-- `pump::prune_deferred` of the C++ pump, which erases what `std::remove_if` removes -/
def pumpPruneDeferred (deferred : List Entry) : List Entry := deferred.filter fun e => !!predicate e.predicate

/-- The list has the entries that the other pumps keep, and exactly the others have been freed, once. -/
structure Prunes (entries : List Entry) (m m' : Memory) (deferred : Nat) : Prop where
  kept : IsDeferred m' deferred (dznPruneDeferred predicate entries)
  same : dznPruneDeferred predicate entries = pumpPruneDeferred predicate entries
  released : ∀ b, m'.freed.count b =
    m.freed.count b + (blocksOf (entries.filter fun e => !predicate e.predicate)).count b

end

/-! ## Freeing blocks -/

/-- What is not among the blocks that are freed stays as it is. -/
structure Frees (m m' : Memory) (blocks : List Block) : Prop where
  freed : m'.freed = m.freed ++ blocks
  cells : ∀ a, .cell a ∉ blocks → m'.cells a = m.cells a
  deferreds : ∀ a, .deferred a ∉ blocks → m'.deferreds a = m.deferreds a
  closures : ∀ a, .closure a ∉ blocks → m'.closures a = m.closures a

section
variable {m m' m'' : Memory} {blocks more : List Block} {p : Nat} {e : Entry} {entries : List Entry}

theorem Frees.nil (m : Memory) : Frees m m [] :=
  ⟨by simp, fun _ _ => rfl, fun _ _ => rfl, fun _ _ => rfl⟩

theorem Frees.trans (h : Frees m m' blocks) (h' : Frees m' m'' more) : Frees m m'' (blocks ++ more) where
  freed := by simp [h'.freed, h.freed]
  cells := by
    intro a ha
    simp only [List.mem_append, not_or] at ha
    rw [h'.cells a ha.2, h.cells a ha.1]
  deferreds := by
    intro a ha
    simp only [List.mem_append, not_or] at ha
    rw [h'.deferreds a ha.2, h.deferreds a ha.1]
  closures := by
    intro a ha
    simp only [List.mem_append, not_or] at ha
    rw [h'.closures a ha.2, h.closures a ha.1]

/-- The record and the predicate of one entry are freed, with a cell. -/
theorem free_entry {a : Nat} (h : Allocated m e) (ha : (m.cells a).isSome) :
    ∃ m', m.freeAll [.closure e.deferred.predicate, .deferred e.record, .cell a] = some m' ∧
      Frees m m' [.closure e.deferred.predicate, .deferred e.record, .cell a] := by
  obtain ⟨c, hc⟩ := Option.isSome_iff_exists.1 ha
  refine ⟨{
    cells := m.cells.set a none
    deferreds := fun b => if b = e.record then none else m.deferreds b
    closures := fun b => if b = e.deferred.predicate then none else m.closures b
    freed := m.freed ++ [.closure e.deferred.predicate, .deferred e.record, .cell a] }, ?_, rfl, fun b hb => ?_,
    fun b hb => ?_, fun b hb => ?_⟩
  · simp [Memory.freeAll, Memory.free, h.1, h.2, hc]
  · exact set_other _ _ fun heq => hb (by simp [heq])
  · exact if_neg fun heq => hb (by simp [heq])
  · exact if_neg fun heq => hb (by simp [heq])

theorem Allocated.frees (h : Allocated m e) (hf : Frees m m' blocks) (hb : ∀ b ∈ e.blocks, b ∉ blocks) :
    Allocated m' e := by
  unfold Allocated
  rw [hf.deferreds _ (hb _ (by simp [Entry.blocks])), hf.closures _ (hb _ (by simp [Entry.blocks]))]
  exact h

theorem mem_blocksOf {b : Block} (he : e ∈ entries) (hb : b ∈ e.blocks) : b ∈ blocksOf entries :=
  List.mem_flatMap.2 ⟨e, he, hb⟩

theorem linked_frees (h : Linked m.cells p (nodes entries)) (hf : Frees m m' blocks)
    (hb : ∀ e ∈ entries, .cell e.cell ∉ blocks) : Linked m'.cells p (nodes entries) := by
  refine linked_congr (fun a ha => ?_) h
  simp only [addresses, nodes, List.map_map, List.mem_map, Function.comp_apply] at ha
  obtain ⟨e, he, rfl⟩ := ha
  exact hf.cells _ (hb e he)

/-- A list keeps its entries when other blocks are freed. -/
theorem IsDeferred.frees (h : IsDeferred m p entries) (hf : Frees m m' blocks)
    (hb : ∀ b ∈ blocksOf entries, b ∉ blocks) : IsDeferred m' p entries where
  linked := linked_frees h.linked hf fun e he => hb _ (mem_blocksOf he (by simp [Entry.blocks]))
  allocated := fun e he => (h.allocated e he).frees hf fun b hbe => hb b (mem_blocksOf he hbe)
  distinct := h.distinct

theorem entryOf_allocated (h : Allocated m e) (next : Nat) :
    m.entryOf ⟨e.record, next⟩ = some (e.predicate, .closure e.deferred.predicate, .deferred e.record) := by
  simp [Memory.entryOf, h.1, h.2]

/-- No two entries share a block. -/
theorem entry_of_block {e' : Entry} {b : Block} (h : (blocksOf entries).Nodup) (he : e ∈ entries) (he' : e' ∈ entries)
    (hb : b ∈ e.blocks) (hb' : b ∈ e'.blocks) : e = e' := by
  by_contra hne
  have hsymm : Std.Symm (Function.onFun List.Disjoint Entry.blocks) := ⟨fun _ _ h _ hb hb' => h hb' hb⟩
  exact (List.nodup_flatMap.1 h).2.forall he he' hne hb hb'

end

/-! ## The front of the list -/

section
variable {predicate : Closure → Bool} {fuel : Nat} {m : Memory} {p : Nat} {e : Entry} {entries : List Entry}

/-- The entries before the first that is kept are freed, and the list begins with that. -/
theorem pruneHead_spec (predicate : Closure → Bool) (h : IsDeferred m p entries) (hfuel : entries.length < fuel) :
    ∃ m' head, pruneHead predicate fuel m p = some (m', head) ∧
      Frees m m' (blocksOf (entries.takeWhile fun e => !predicate e.predicate)) ∧
      IsDeferred m' head (entries.dropWhile fun e => !predicate e.predicate) := by
  induction entries generalizing fuel m p with
  | nil =>
    obtain ⟨fuel, rfl⟩ : ∃ k, fuel = k + 1 := ⟨fuel - 1, by omega⟩
    have hp : p = 0 := h.linked
    exact ⟨m, p, by simp [pruneHead, hp], Frees.nil m, h⟩
  | cons e entries ih =>
    obtain ⟨fuel, rfl⟩ : ∃ k, fuel = k + 1 := ⟨fuel - 1, by omega⟩
    obtain ⟨hp, hne, next, hcell, hnext⟩ := h.linked
    have hp : p = e.cell := hp
    subst hp
    have hcell : m.cells e.cell = some ⟨e.record, next⟩ := hcell
    have he := h.allocated e (by simp)
    have hentry := entryOf_allocated he next
    cases hkeep : predicate e.predicate with
    | true =>
      refine ⟨m, e.cell, ?_, by simpa [hkeep, blocksOf] using Frees.nil m, by simpa [hkeep] using h⟩
      simp [pruneHead, hne, hcell, hentry, hkeep]
    | false =>
      obtain ⟨m₁, hfree, hm₁⟩ := free_entry he (a := e.cell) (by simp [hcell])
      have hdistinct := h.distinct
      rw [blocksOf, List.flatMap_cons, List.nodup_append'] at hdistinct
      have hrest : IsDeferred m next entries :=
        ⟨hnext, fun x hx => h.allocated x (by simp [hx]), hdistinct.2.1⟩
      have hrest₁ := hrest.frees hm₁ fun b hb hbe => hdistinct.2.2 hbe hb
      obtain ⟨m', head, hrun, hm', hlist⟩ := ih hrest₁ (by simpa using hfuel)
      refine ⟨m', head, ?_, ?_, by simpa [hkeep] using hlist⟩
      · simp [pruneHead, hne, hcell, hentry, hkeep, hfree, hrun]
      · simpa [hkeep, blocksOf, Entry.blocks] using hm₁.trans hm'

/-! ## Behind the first entry that is kept -/

/-- What the second loop frees behind an entry. -/
def behind (predicate : Closure → Bool) (e : Entry) : List Entry → List Block
  | [] => []
  | x :: rest =>
    (if predicate x.predicate then [] else [.closure x.deferred.predicate, .deferred x.record, .cell e.cell]) ++
      behind predicate x rest

theorem pruneNext_spec (predicate : Closure → Bool) (hlinked : Linked m.cells p (nodes (e :: entries))) (halloc : ∀ x ∈ entries, Allocated m x)
    (hdistinct : (blocksOf (e :: entries)).Nodup) (hfuel : entries.length < fuel) :
    ∃ m', pruneNext predicate fuel m p = some m' ∧ Frees m m' (behind predicate e entries) := by
  induction entries generalizing fuel m p e with
  | nil =>
    obtain ⟨fuel, rfl⟩ : ∃ k, fuel = k + 1 := ⟨fuel - 1, by omega⟩
    obtain ⟨rfl, hne, next, hcell, hnext⟩ := hlinked
    have hnext : next = 0 := hnext
    have hcell : m.cells e.cell = some ⟨e.record, next⟩ := hcell
    exact ⟨m, by simp [pruneNext, hcell, hnext], Frees.nil m⟩
  | cons x entries ih =>
    obtain ⟨fuel, rfl⟩ : ∃ k, fuel = k + 1 := ⟨fuel - 1, by omega⟩
    obtain ⟨hp, hne, next, hcell, hnext⟩ := hlinked
    have hp : p = e.cell := hp
    subst hp
    have hcell : m.cells e.cell = some ⟨e.record, next⟩ := hcell
    have hlinked := hnext
    obtain ⟨hx, hxne, next', hxcell, -⟩ := hnext
    have hx : next = x.cell := hx
    subst hx
    have hxcell : m.cells x.cell = some ⟨x.record, next'⟩ := hxcell
    have hxne : x.cell ≠ 0 := hxne
    have halx := halloc x (by simp)
    have hentry := entryOf_allocated halx next'
    have hdistinct' := hdistinct
    rw [blocksOf, List.flatMap_cons, List.nodup_append'] at hdistinct'
    cases hkeep : predicate x.predicate with
    | true =>
      obtain ⟨m', hrun, hm'⟩ := ih hlinked (fun y hy => halloc y (by simp [hy])) hdistinct'.2.1 (by simpa using hfuel)
      refine ⟨m', ?_, by simpa [behind, hkeep] using hm'⟩
      simp [pruneNext, hne, hcell, hxne, hxcell, hentry, hkeep, hrun]
    | false =>
      obtain ⟨m₁, hfree, hm₁⟩ := free_entry halx (a := e.cell) (by simp [hcell])
      have hxe : ∀ y ∈ x :: entries, y.cell ≠ e.cell := by
        intro y hy heq
        have hmem : .cell e.cell ∈ e.blocks := by simp [Entry.blocks]
        exact hdistinct'.2.2 hmem (mem_blocksOf hy (by simp [Entry.blocks, heq]))
      have hrest := hdistinct'.2.1
      rw [List.flatMap_cons, List.nodup_append'] at hrest
      have hfreed : ∀ y ∈ entries, ∀ b ∈ y.blocks,
          b ∉ [.closure x.deferred.predicate, .deferred x.record, .cell e.cell] := by
        intro y hy b hb hmem
        have hbrest := mem_blocksOf hy hb
        simp only [List.mem_cons, List.not_mem_nil, or_false] at hmem
        rcases hmem with rfl | rfl | rfl
        · exact hrest.2.2 (by simp [Entry.blocks]) hbrest
        · exact hrest.2.2 (by simp [Entry.blocks]) hbrest
        · refine hxe y (by simp [hy]) ?_
          simpa [Entry.blocks, eq_comm] using hb
      obtain ⟨m', hrun, hm'⟩ := ih (linked_frees hlinked hm₁ fun y hy => by simpa using hxe y hy)
        (fun y hy => (halloc y (by simp [hy])).frees hm₁ (hfreed y hy)) hdistinct'.2.1 (by simpa using hfuel)
      refine ⟨m', ?_, by simpa [behind, hkeep] using hm₁.trans hm'⟩
      simp [pruneNext, hne, hcell, hxne, hxcell, hentry, hkeep, hfree, hrun]

theorem behind_nil (h : ∀ x ∈ entries, predicate x.predicate = true) : behind predicate e entries = [] := by
  induction entries generalizing e with
  | nil => rfl
  | cons x entries ih => simp [behind, h x (by simp), ih fun y hy => h y (by simp [hy])]

/-- The cell before an entry that fails is freed, although the entry in it is kept. -/
theorem behind_kept (he : predicate e.predicate = true) (h : ∃ x ∈ entries, predicate x.predicate = false) :
    ∃ y ∈ e :: entries, predicate y.predicate = true ∧ .cell y.cell ∈ behind predicate e entries := by
  induction entries generalizing e with
  | nil => simp at h
  | cons x entries ih =>
    cases hkeep : predicate x.predicate with
    | true =>
      obtain ⟨y, hy, hpred, hmem⟩ := ih hkeep (by simpa [hkeep] using h)
      exact ⟨y, List.mem_cons_of_mem _ hy, hpred, by simpa [behind, hkeep] using hmem⟩
    | false => exact ⟨e, by simp, he, by simp [behind, hkeep]⟩

/-! ## The whole list -/

/-- What the second loop frees of a list. -/
def behindFirst (predicate : Closure → Bool) : List Entry → List Block
  | [] => []
  | e :: rest => behind predicate e rest

/-- The first loop frees the entries that fail before the first that is kept, the second one goes on from there. -/
theorem pruneDeferred_spec (predicate : Closure → Bool) (h : IsDeferred m p entries) (hfuel : entries.length < fuel) :
    ∃ removed kept m₁ m' head, entries = removed ++ kept ∧ (∀ e ∈ removed, predicate e.predicate = false) ∧
      (∀ e rest, kept = e :: rest → predicate e.predicate = true) ∧
      dznPumpPruneDeferred predicate fuel m p = some (m', head) ∧ Frees m m₁ (blocksOf removed) ∧
      IsDeferred m₁ head kept ∧ Frees m₁ m' (behindFirst predicate kept) := by
  obtain ⟨m₁, head, hhead, hm₁, hlist⟩ := pruneHead_spec predicate h hfuel
  have hsplit := List.takeWhile_append_dropWhile (p := fun e : Entry => !predicate e.predicate) (l := entries)
  have hremoved : ∀ e ∈ entries.takeWhile (fun e => !predicate e.predicate), predicate e.predicate = false := by
    intro e he
    simpa using List.mem_takeWhile_imp he
  have hlength : (entries.dropWhile fun e => !predicate e.predicate).length ≤ entries.length :=
    List.length_dropWhile_le _ _
  cases hkept : entries.dropWhile fun e => !predicate e.predicate with
  | nil =>
    rw [hkept] at hlist hsplit
    have h0 : head = 0 := hlist.linked
    obtain ⟨fuel, rfl⟩ : ∃ k, fuel = k + 1 := ⟨fuel - 1, by omega⟩
    refine ⟨_, [], m₁, m₁, head, hsplit.symm, hremoved, by simp, ?_, hm₁, hlist, Frees.nil m₁⟩
    simp [dznPumpPruneDeferred, hhead, pruneNext, h0]
  | cons e rest =>
    have hfirst : predicate e.predicate = true := by
      have := List.head?_dropWhile_not (fun e : Entry => !predicate e.predicate) entries
      simpa [hkept] using this
    rw [hkept] at hlist hsplit hlength
    have hrest : rest.length < fuel := by
      rw [List.length_cons] at hlength
      omega
    obtain ⟨m', hnext, hm'⟩ := pruneNext_spec predicate hlist.linked
      (fun x hx => hlist.allocated x (List.mem_cons_of_mem e hx)) hlist.distinct hrest
    refine ⟨_, e :: rest, m₁, m', head, hsplit.symm, hremoved, ?_, ?_, hm₁, hlist, hm'⟩
    · rintro e' rest' heq
      obtain ⟨rfl, rfl⟩ := List.cons.inj heq
      exact hfirst
    · simp [dznPumpPruneDeferred, hhead, hnext]

/-- No entry fails behind one that is kept, if all those from the first one on are kept. -/
theorem pairwise_append_iff {removed kept : List Entry} (hremoved : ∀ e ∈ removed, predicate e.predicate = false)
    (hfirst : ∀ e rest, kept = e :: rest → predicate e.predicate = true) :
    ((removed ++ kept).Pairwise fun e x => predicate e.predicate = true → predicate x.predicate = true) ↔
      ∀ e ∈ kept, predicate e.predicate = true := by
  rw [List.pairwise_append]
  constructor
  · rintro ⟨-, hkept, -⟩ e he
    cases kept with
    | nil => cases he
    | cons x rest =>
      have hx := hfirst x rest rfl
      rcases List.mem_cons.1 he with rfl | he
      · exact hx
      · exact (List.pairwise_cons.1 hkept).1 e he hx
  · intro hkept
    refine ⟨List.pairwise_of_forall_mem_list fun e he x _ heq => ?_,
      List.pairwise_of_forall_mem_list fun e _ x hx _ => hkept x hx, fun e he x hx _ => hkept x hx⟩
    simp [hremoved e he] at heq

theorem filter_removed {removed kept : List Entry} (hremoved : ∀ e ∈ removed, predicate e.predicate = false)
    (hkept : ∀ e ∈ kept, predicate e.predicate = true) :
    dznPruneDeferred predicate (removed ++ kept) = kept ∧
      (removed ++ kept).filter (fun e => !predicate e.predicate) = removed := by
  unfold dznPruneDeferred
  rw [List.filter_append, List.filter_append, List.filter_eq_nil_iff.2, List.filter_eq_self.2 hkept,
    List.filter_eq_self.2, List.filter_eq_nil_iff.2]
  · simp
  · simpa using hkept
  · simpa using hremoved
  · simpa using hremoved

/-- `dzn_pump_prune_deferred` returns for every list, and prunes it if and only if no entry fails that stands
behind one which is kept. -/
theorem pruneDeferred_iff (predicate : Closure → Bool) (h : IsDeferred m p entries) (hfuel : entries.length < fuel) :
    ∃ m' deferred, dznPumpPruneDeferred predicate fuel m p = some (m', deferred) ∧
      (Prunes predicate entries m m' deferred ↔
        entries.Pairwise fun e x => predicate e.predicate = true → predicate x.predicate = true) := by
  obtain ⟨removed, kept, m₁, m', head, rfl, hremoved, hfirst, hrun, hm₁, hlist, hm'⟩ :=
    pruneDeferred_spec predicate h hfuel
  refine ⟨m', head, hrun, ?_⟩
  rw [pairwise_append_iff hremoved hfirst]
  constructor
  · intro hprunes e he
    by_contra hfails
    cases kept with
    | nil => cases he
    | cons x rest =>
      have hx := hfirst x rest rfl
      have hmiss : ∃ z ∈ rest, predicate z.predicate = false := by
        rcases List.mem_cons.1 he with rfl | he
        · exact absurd hx hfails
        · exact ⟨e, he, by simpa using hfails⟩
      obtain ⟨y, hy, hpred, hmem⟩ := behind_kept hx hmiss
      -- the cell of y has been freed, but y is not removed
      have hfreed := hprunes.released (.cell y.cell)
      rw [hm'.freed, hm₁.freed, List.count_append, List.count_append] at hfreed
      have hbehind : 0 < List.count (.cell y.cell) (behindFirst predicate (x :: rest)) := List.count_pos_iff.2 hmem
      have hnot : .cell y.cell ∉ blocksOf ((removed ++ x :: rest).filter fun e => !predicate e.predicate) := by
        intro hin
        obtain ⟨z, hz, hzy⟩ := List.mem_flatMap.1 hin
        obtain ⟨hz, hzpred⟩ := List.mem_filter.1 hz
        obtain rfl := entry_of_block h.distinct hz (List.mem_append_right _ hy) hzy (by simp [Entry.blocks])
        simp [hpred] at hzpred
      rw [List.count_eq_zero_of_not_mem hnot] at hfreed
      omega
  · intro hkept
    obtain ⟨hfilter, hfilter'⟩ := filter_removed hremoved hkept
    have hnil : behindFirst predicate kept = [] := by
      cases kept with
      | nil => rfl
      | cons e rest => exact behind_nil fun x hx => hkept x (by simp [hx])
    refine ⟨?_, by simp [dznPruneDeferred, pumpPruneDeferred], fun b => ?_⟩
    · rw [hfilter]
      exact hlist.frees hm' (by simp [hnil])
    · rw [hfilter', hm'.freed, hm₁.freed, hnil]
      simp

end

/-! ## Two entries -/

/-- A predicate that holds for the argument 1. -/
def holdsAtOne (c : Closure) : Bool := c.argument == 1

/-- Two entries, in the cells 1 and 2, the predicates of which have these arguments. -/
def twoEntries (first second : Nat) : List Entry :=
  [⟨1, 1, ⟨0, 1, 3⟩, ⟨0, first⟩⟩, ⟨2, 2, ⟨0, 2, 4⟩, ⟨0, second⟩⟩]

def twoMemory (first second : Nat) : Memory where
  cells := fun a => if a = 1 then some ⟨1, 2⟩ else if a = 2 then some ⟨2, 0⟩ else none
  deferreds := fun a => if a = 1 then some ⟨0, 1, 3⟩ else if a = 2 then some ⟨0, 2, 4⟩ else none
  closures := fun a => if a = 1 then some ⟨0, first⟩ else if a = 2 then some ⟨0, second⟩ else none
  freed := []

theorem twoMemory_isDeferred (first second : Nat) : IsDeferred (twoMemory first second) 1 (twoEntries first second) where
  linked := ⟨rfl, Nat.succ_ne_zero 0, 2, rfl, rfl, Nat.succ_ne_zero 1, 0, rfl, rfl⟩
  allocated := by
    intro e he
    simp only [twoEntries, List.mem_cons, List.not_mem_nil, or_false] at he
    rcases he with rfl | rfl <;> exact ⟨rfl, rfl⟩
  distinct := by simp [twoEntries, blocksOf, Entry.blocks]

theorem pruneDeferred_front : ∃ m' deferred,
    dznPumpPruneDeferred holdsAtOne 3 (twoMemory 0 1) 1 = some (m', deferred) ∧
      (Prunes holdsAtOne (twoEntries 0 1) (twoMemory 0 1) m' deferred ↔ (twoEntries 0 1).Pairwise fun e x =>
        holdsAtOne e.predicate = true → holdsAtOne x.predicate = true) :=
  pruneDeferred_iff holdsAtOne (twoMemory_isDeferred 0 1) (by decide)

/-- The first entry is kept and the second one fails: the cell of the first is freed. -/
theorem pruneDeferred_behind : ¬ ∃ m' deferred,
    dznPumpPruneDeferred holdsAtOne 3 (twoMemory 1 0) 1 = some (m', deferred) ∧
      Prunes holdsAtOne (twoEntries 1 0) (twoMemory 1 0) m' deferred := by
  rintro ⟨m', deferred, hrun, hprunes⟩
  have hfreed : (dznPumpPruneDeferred holdsAtOne 3 (twoMemory 1 0) 1).map (fun r => r.1.freed) =
      some [.closure 2, .deferred 2, .cell 1] := by decide
  rw [hrun, Option.map_some, Option.some.injEq] at hfreed
  have hreleased := hprunes.released (.cell 1)
  rw [hfreed] at hreleased
  simp [twoMemory, twoEntries, holdsAtOne, blocksOf, Entry.blocks] at hreleased

end Dezyne.CPrune
