import Dezyne.Lib.Cells
import Mathlib.Data.List.Infix
/-!
# The queue of the C runtime

The dynamic queue is a chain of nodes with a head and a tail pointer, and beside
it a counter of eight bits. The counter alone says whether the queue is empty.
-/

namespace Dezyne.CQueue

open Cells

variable {α : Type}

/-! ## The operations -/

/-- `dzn_queue`, with the memory that holds its nodes; a null pointer is 0. -/
structure Queue (α : Type) where
  head : Nat
  tail : Nat
  size : UInt8
  heap : Heap α

/-- `dzn_queue_init` -/
def dznQueueInit : Queue α := { head := 0, tail := 0, size := 0, heap := fun _ => none }

/-- `dzn_queue_size` -/
def dznQueueSize (self : Queue α) : UInt8 := self.size

/-- `dzn_queue_empty` -/
def dznQueueEmpty (self : Queue α) : Bool := if dznQueueSize self = 0 then true else false

/-- `dzn_queue_push`, when `dzn_malloc` returns `n`. -/
def dznQueuePush (self : Queue α) (n : Nat) (e : α) : Option (Queue α) :=
  let heap := self.heap.set n (some ⟨e, 0⟩)
  if self.head = 0 then some { head := n, tail := n, size := self.size + 1, heap }
  else do
    -- self->tail->next = n
    let tail ← heap self.tail
    some { self with tail := n, size := self.size + 1, heap := heap.set self.tail (some { tail with next := n }) }

/-- `dzn_queue_pop`; `none` where its assertion fails. -/
def dznQueuePop (self : Queue α) : Option (α × Queue α) :=
  if self.size = 0 then none
  else do
    let head ← self.heap self.head
    some (head.item, { self with head := head.next, size := self.size - 1, heap := self.heap.set self.head none })

inductive Op (α : Type) where
  | push (n : Nat) (e : α)
  | pop

/-- The queue after an operation, with what it returns. -/
def step (q : Queue α) : Op α → Option (List α × Queue α)
  | .push n e => (dznQueuePush q n e).map fun q => ([], q)
  | .pop => (dznQueuePop q).map fun r => ([r.1], r.2)

/-- The queue after a sequence of operations, with what its pops return. -/
def run (q : Queue α) : List (Op α) → Option (List α × Queue α)
  | [] => some ([], q)
  | op :: ops => do
    let r ← step q op
    let r' ← run r.2 ops
    some (r.1 ++ r'.1, r'.2)

/-- The events that a handler posts, each in a node of its own. -/
def pushes (posts : List (Nat × α)) : List (Op α) := posts.map fun c => .push c.1 c.2

/-- The loop of `dzn_runtime_flush` over the queue of a component. Handling an
event posts what `react` says, and `dzn_runtime_finish` flushes once more; `past`
is what has been done to the queue. -/
def dznRuntimeFlush (react : List (Op α) → List (Nat × α)) :
    Nat → List (Op α) → Queue α → Option (List (Op α) × Queue α)
  | 0, _, _ => none
  | fuel + 1, past, q =>
    if dznQueueEmpty q then some (past, q)
    else do
      let c ← dznQueuePop q
      let past := past ++ [.pop]
      let posts := react past
      let r ← run c.2 (pushes posts)
      let r ← dznRuntimeFlush react fuel (past ++ pushes posts) r.2
      dznRuntimeFlush react fuel r.1 r.2

/-! ## What they are for -/

/-- The elements that are pushed. -/
def pushed : List (Op α) → List α
  | [] => []
  | .push _ e :: ops => e :: pushed ops
  | .pop :: ops => pushed ops

/-- The number of pops. -/
def popped : List (Op α) → Nat
  | [] => 0
  | .push _ _ :: ops => popped ops
  | .pop :: ops => popped ops + 1

/-- The nodes after an operation. -/
def nodeStep (cells : List (Nat × α)) : Op α → List (Nat × α)
  | .push n e => cells ++ [(n, e)]
  | .pop => cells.tail

/-- The nodes after a sequence of operations. -/
def nodes (ops : List (Op α)) : List (Nat × α) := ops.foldl nodeStep []

/-- `dzn_malloc` gives memory that is not in use, and nothing is popped from an empty queue. -/
def LegalStep (cells : List (Nat × α)) : Op α → Prop
  | .push n _ => n ≠ 0 ∧ n ∉ addresses cells
  | .pop => cells ≠ []

/-- Every operation is legal when it is done. -/
def Legal (ops : List (Op α)) : Prop := ∀ p op, p ++ [op] <+: ops → LegalStep (nodes p) op

/-- The pops return the pushed elements in order, and the queue is empty when all are popped. -/
def Agrees (ops : List (Op α)) : Prop :=
  ∃ q, run dznQueueInit ops = some ((pushed ops).take (popped ops), q) ∧
    (dznQueueEmpty q = true ↔ (pushed ops).length = popped ops)

/-- Every element that is pushed is popped. -/
def AllPopped (ops : List (Op α)) : Prop := (pushed ops).length = popped ops

/-- The number of elements that are pushed and not popped. -/
def pending (ops : List (Op α)) : Nat := (pushed ops).length - popped ops

/-! ## Operations one by one -/

theorem run_append (ops more : List (Op α)) :
    ∀ q : Queue α, run q (ops ++ more) =
      (run q ops).bind fun r => (run r.2 more).map fun r' => (r.1 ++ r'.1, r'.2) := by
  induction ops with
  | nil =>
    intro q
    cases h : run q more <;> simp [run, h]
  | cons op ops ih =>
    intro q
    simp only [List.cons_append, run, ih]
    cases step q op with
    | none => rfl
    | some r =>
      cases h : run r.2 ops with
      | none => simp [h]
      | some r' => cases h' : run r'.2 more <;> simp [h, h']

theorem run_snoc (ops : List (Op α)) (op : Op α) (q : Queue α) :
    run q (ops ++ [op]) = (run q ops).bind fun r => (step r.2 op).map fun r' => (r.1 ++ r'.1, r'.2) := by
  rw [run_append]
  cases run q ops with
  | none => rfl
  | some r => cases h : step r.2 op <;> simp [run, h]

@[simp] theorem pushed_append (ops more : List (Op α)) :
    pushed (ops ++ more) = pushed ops ++ pushed more := by
  induction ops with
  | nil => rfl
  | cons op ops ih => cases op <;> simp [pushed, ih]

@[simp] theorem popped_append (ops more : List (Op α)) : popped (ops ++ more) = popped ops + popped more := by
  induction ops with
  | nil => simp [popped]
  | cons op ops ih => cases op <;> simp [popped, ih]; omega

@[simp] theorem nodes_snoc (ops : List (Op α)) (op : Op α) :
    nodes (ops ++ [op]) = nodeStep (nodes ops) op := by
  simp [nodes]

theorem Legal.init {ops : List (Op α)} {op : Op α} (h : Legal (ops ++ [op])) : Legal ops :=
  fun p op' hp => h p op' (hp.trans (List.prefix_append ops [op]))

theorem Legal.last {ops : List (Op α)} {op : Op α} (h : Legal (ops ++ [op])) : LegalStep (nodes ops) op :=
  h ops op (List.prefix_refl _)

theorem Legal.snoc {ops : List (Op α)} {op : Op α} (h : Legal ops) (hop : LegalStep (nodes ops) op) :
    Legal (ops ++ [op]) := by
  intro p op' hp
  rcases List.prefix_concat_iff.mp hp with heq | hp
  · obtain ⟨hpre, hop'⟩ := List.append_inj' heq rfl
    obtain rfl := List.singleton_inj.mp hop'
    rw [hpre]
    exact hop
  · exact h p op' hp

theorem legal_nil : Legal ([] : List (Op α)) := by
  intro p op hp
  have := hp.length_le
  simp at this

theorem Legal.of_prefix {p ops : List (Op α)} (hp : p <+: ops) (h : Legal ops) : Legal p :=
  fun p' op hp' => h p' op (hp'.trans hp)

/-- The nodes hold what is pushed and not popped. -/
theorem nodes_items {ops : List (Op α)} :
    Legal ops → popped ops ≤ (pushed ops).length ∧ (nodes ops).map Prod.snd = (pushed ops).drop (popped ops) := by
  induction ops using List.reverseRecOn with
  | nil => intro _; simp [nodes, pushed, popped]
  | append_singleton ops op ih =>
    intro hl
    obtain ⟨hle, hitems⟩ := ih hl.init
    have hlast := hl.last
    cases op with
    | push n e =>
      have hdrop : (pushed ops ++ [e]).drop (popped ops) = (pushed ops).drop (popped ops) ++ [e] :=
        List.drop_append_of_le_length hle
      simp only [pushed_append, popped_append, nodes_snoc, nodeStep, pushed, popped, List.map_append, hitems]
      refine ⟨?_, hdrop.symm⟩
      simp
      omega
    | pop =>
      have hlen : 0 < (nodes ops).length := List.length_pos_of_ne_nil hlast
      have heq := congrArg List.length hitems
      simp only [List.length_map, List.length_drop] at heq
      simp only [pushed_append, popped_append, nodes_snoc, nodeStep, pushed, popped, List.append_nil]
      refine ⟨by omega, ?_⟩
      rw [List.map_tail, hitems, List.tail_drop]

theorem nodes_length {ops : List (Op α)} (h : Legal ops) : (nodes ops).length = pending ops := by
  rw [← List.length_map (f := Prod.snd), (nodes_items h).2, List.length_drop, pending]

/-! ## The chain and the counter -/

/-- The queue holds these nodes, and the counter their number modulo 256. -/
structure Holds (q : Queue α) (cells : List (Nat × α)) : Prop where
  linked : Linked q.heap q.head cells
  nodup : (addresses cells).Nodup
  size : q.size = UInt8.ofNat cells.length
  last : ∀ cells' c, cells = cells' ++ [c] → q.tail = c.1

theorem holds_init : Holds (dznQueueInit : Queue α) [] :=
  ⟨rfl, by simp, rfl, fun cells' c h => by simp at h⟩

theorem ofNat_eq_zero (n : Nat) : UInt8.ofNat n = 0 ↔ n % 256 = 0 := by
  rw [← UInt8.toNat_inj]
  simp

theorem ofNat_succ (n : Nat) : UInt8.ofNat (n + 1) = UInt8.ofNat n + 1 := UInt8.ofNat_add n 1

/-- The counter cannot tell a multiple of 256 from zero. -/
theorem empty_iff {q : Queue α} {cells : List (Nat × α)} (h : Holds q cells) :
    dznQueueEmpty q = true ↔ cells.length % 256 = 0 := by
  simp [dznQueueEmpty, dznQueueSize, h.size, ofNat_eq_zero]

theorem push_holds {q : Queue α} {cells : List (Nat × α)} {n : Nat} {e : α} (h : Holds q cells) (hn : n ≠ 0)
    (hnew : n ∉ addresses cells) : ∃ q', dznQueuePush q n e = some q' ∧ Holds q' (cells ++ [(n, e)]) := by
  have hnd : (addresses (cells ++ [(n, e)])).Nodup := by
    rw [addresses_append, List.nodup_append]
    refine ⟨h.nodup, by simp, ?_⟩
    rintro a ha b hb rfl
    obtain rfl : a = n := by simpa using hb
    exact hnew ha
  have hsize : q.size + 1 = UInt8.ofNat (cells ++ [(n, e)]).length := by
    rw [h.size, List.length_append, List.length_singleton, ofNat_succ]
  have hlast : ∀ cells' c, cells ++ [(n, e)] = cells' ++ [c] → n = c.1 := by
    intro cells' c heq
    rw [← (List.append_inj_right' heq rfl |> List.singleton_inj.mp)]
  rcases List.eq_nil_or_concat' cells with rfl | ⟨cells', ⟨t, x⟩, rfl⟩
  · have hhead : q.head = 0 := h.linked
    refine ⟨_, by simp only [dznQueuePush, hhead]; rfl, ?_, hnd, hsize, hlast⟩
    exact ⟨rfl, hn, 0, by simp, rfl⟩
  · have htail : q.tail = t := h.last _ _ rfl
    obtain ⟨-, hcell⟩ := linked_last h.linked
    have hne : t ≠ n := by
      rintro rfl
      exact hnew (by simp)
    have hhead : q.head ≠ 0 := by
      intro h0
      have := linked_null (h0 ▸ h.linked)
      simp at this
    refine ⟨_, by simp only [dznQueuePush, hhead, htail, set_other _ _ hne, hcell]; rfl, ?_, hnd, hsize, hlast⟩
    exact linked_snoc hn h.linked h.nodup hnew

theorem pop_holds {q q' : Queue α} {cells : List (Nat × α)} {e : α} (h : Holds q cells)
    (hp : dznQueuePop q = some (e, q')) :
    ∃ a rest, cells = (a, e) :: rest ∧ Holds q' rest ∧ cells.length % 256 ≠ 0 := by
  unfold dznQueuePop at hp
  split at hp
  · cases hp
  · rename_i hsize
    rw [h.size, ofNat_eq_zero] at hsize
    cases cells with
    | nil => simp at hsize
    | cons c rest =>
      obtain ⟨a, e'⟩ := c
      obtain ⟨next, hcell, hrest⟩ := linked_tail h.linked h.nodup
      have hhead : q.head = a := h.linked.1
      simp only [hhead, hcell] at hp
      cases hp
      refine ⟨a, rest, rfl, ⟨hrest, (List.nodup_cons.mp h.nodup).2, ?_, ?_⟩, hsize⟩
      · rw [h.size, List.length_cons, ofNat_succ]
        simp
      · intro cells' c hrest'
        exact h.last ((a, e') :: cells') c (by rw [hrest']; rfl)

theorem pop_some {q : Queue α} {a : Nat} {e : α} {rest : List (Nat × α)} (h : Holds q ((a, e) :: rest))
    (hsize : (rest.length + 1) % 256 ≠ 0) : ∃ q', dznQueuePop q = some (e, q') := by
  obtain ⟨next, hcell, -⟩ := linked_tail h.linked h.nodup
  have hhead : q.head = a := h.linked.1
  have hne : q.size ≠ 0 := by
    rw [h.size, Ne, ofNat_eq_zero]
    exact hsize
  exact ⟨_, by simp only [dznQueuePop, hne, hhead, hcell]; rfl⟩

/-! ## Runs -/

/-- A run that is defined ends with the nodes of the specification, and its pops are in order. -/
theorem run_holds {ops : List (Op α)} :
    ∀ {outs : List α} {q : Queue α}, Legal ops → run dznQueueInit ops = some (outs, q) →
      Holds q (nodes ops) ∧ outs = (pushed ops).take (popped ops) := by
  induction ops using List.reverseRecOn with
  | nil =>
    intro outs q _ hr
    cases hr
    exact ⟨holds_init, rfl⟩
  | append_singleton ops op ih =>
    intro outs q hl hr
    rw [run_snoc] at hr
    obtain ⟨⟨outs₀, q₀⟩, hr₀, hr⟩ := Option.bind_eq_some_iff.mp hr
    obtain ⟨⟨outs₁, q₁⟩, hs, hr⟩ := Option.map_eq_some_iff.mp hr
    cases hr
    obtain ⟨hh, rfl⟩ := ih hl.init hr₀
    obtain ⟨hle, hitems⟩ := nodes_items hl.init
    have hlast := hl.last
    cases op with
    | push n e =>
      obtain ⟨q', hq', hh'⟩ := push_holds (e := e) hh hlast.1 hlast.2
      simp only [step, hq', Option.map_some, Option.some.injEq, Prod.mk.injEq] at hs
      obtain ⟨rfl, rfl⟩ := hs
      refine ⟨by simpa [nodeStep] using hh', ?_⟩
      simp only [pushed_append, popped_append, pushed, popped, Nat.add_zero, List.append_nil]
      exact (List.take_append_of_le_length hle).symm
    | pop =>
      obtain ⟨⟨e, q'⟩, hp, hs⟩ := Option.map_eq_some_iff.mp hs
      cases hs
      obtain ⟨a, rest, hcells, hh', -⟩ := pop_holds hh hp
      refine ⟨by simpa [nodeStep, hcells] using hh', ?_⟩
      have hget : (pushed ops)[popped ops]? = some e := by
        rw [hcells] at hitems
        have := congrArg List.head? hitems
        simpa [List.head?_drop] using this.symm
      simp only [pushed_append, popped_append, pushed, popped, List.append_nil]
      rw [List.take_add_one, hget]
      rfl

/-- While fewer than 256 elements are pending, every legal operation is defined. -/
theorem run_defined {ops : List (Op α)} :
    Legal ops → (∀ p, p <+: ops → p ≠ ops → pending p < 256) → ∃ outs q, run dznQueueInit ops = some (outs, q) := by
  induction ops using List.reverseRecOn with
  | nil => intro _ _; exact ⟨[], dznQueueInit, rfl⟩
  | append_singleton ops op ih =>
    intro hl hb
    have hpre : ops <+: ops ++ [op] := List.prefix_append ops [op]
    obtain ⟨outs, q, hr⟩ := ih hl.init fun p hp _ => hb p (hp.trans hpre) (by
      intro h
      have := hp.length_le
      rw [h, List.length_append, List.length_singleton] at this
      omega)
    obtain ⟨hh, -⟩ := run_holds hl.init hr
    have hlast := hl.last
    rw [run_snoc, hr]
    cases op with
    | push n e =>
      obtain ⟨q', hq', -⟩ := push_holds (e := e) hh hlast.1 hlast.2
      exact ⟨outs ++ [], q', by simp [step, hq']⟩
    | pop =>
      have hlt := hb ops hpre (by simp)
      rw [← nodes_length hl.init] at hlt
      cases hc : nodes ops with
      | nil => exact absurd hc hlast
      | cons c rest =>
        obtain ⟨a, e⟩ := c
        rw [hc] at hh hlt
        simp only [List.length_cons] at hlt
        obtain ⟨q', hp⟩ := pop_some hh (by omega)
        exact ⟨outs ++ [e], q', by simp [step, hp]⟩

/-- With 256 elements pending the queue says that it is empty. -/
theorem pending_lt_of_agrees {ops : List (Op α)} :
    Legal ops → (∀ p, p <+: ops → Agrees p) → pending ops < 256 := by
  induction ops using List.reverseRecOn with
  | nil => intro _ _; simp [pending, pushed]
  | append_singleton ops op ih =>
    intro hl ha
    have hlt := ih hl.init fun p hp => ha p (hp.trans (List.prefix_append ops [op]))
    obtain ⟨q, hr, hempty⟩ := ha _ (List.prefix_refl _)
    obtain ⟨hh, -⟩ := run_holds hl hr
    have hn := nodes_length hl
    have hle := (nodes_items hl).1
    rw [empty_iff hh, hn] at hempty
    have hstep : pending (ops ++ [op]) ≤ pending ops + 1 := by
      cases op <;> simp [pending, pushed, popped] <;> omega
    by_contra hge
    have h256 : pending (ops ++ [op]) = 256 := by omega
    have := hempty.mp (by omega)
    unfold pending at h256
    omega

theorem agrees_of_pending_lt {ops : List (Op α)} (hl : Legal ops) (hb : ∀ p, p <+: ops → pending p < 256) :
    Agrees ops := by
  obtain ⟨outs, q, hr⟩ := run_defined hl fun p hp _ => hb p hp
  obtain ⟨hh, rfl⟩ := run_holds hl hr
  refine ⟨q, hr, ?_⟩
  have hlt := hb ops (List.prefix_refl _)
  have hle := (nodes_items hl).1
  rw [empty_iff hh, nodes_length hl]
  unfold pending at hlt ⊢
  omega

/-- Once 256 elements are pending, that many stay: the pop that would take the last of them fails. -/
theorem pending_ge_of_run {more : List (Op α)} :
    ∀ {ops : List (Op α)} {outs : List α} {q : Queue α}, Legal (ops ++ more) →
      run dznQueueInit (ops ++ more) = some (outs, q) → 256 ≤ pending ops → 256 ≤ pending (ops ++ more) := by
  induction more using List.reverseRecOn with
  | nil => intro ops outs q _ _ h; simpa using h
  | append_singleton more op ih =>
    intro ops outs q hl hr h
    rw [← List.append_assoc] at hl hr ⊢
    rw [run_snoc] at hr
    obtain ⟨⟨outs₀, q₀⟩, hr₀, hr⟩ := Option.bind_eq_some_iff.mp hr
    obtain ⟨⟨outs₁, q₁⟩, hs, -⟩ := Option.map_eq_some_iff.mp hr
    have hge := ih hl.init hr₀ h
    obtain ⟨hh, -⟩ := run_holds hl.init hr₀
    have hn := nodes_length hl.init
    cases op with
    | push n e =>
      have hle := (nodes_items hl.init).1
      simp only [pending, pushed_append, popped_append, pushed, popped, List.length_append] at hge hle ⊢
      omega
    | pop =>
      obtain ⟨⟨e, q'⟩, hp, -⟩ := Option.map_eq_some_iff.mp hs
      obtain ⟨a, rest, -, -, hmod⟩ := pop_holds hh hp
      rw [hn] at hmod
      simp only [pending, pushed_append, popped_append, pushed, popped, List.append_nil] at hge hmod ⊢
      omega

/-! ## The flush -/

/-- A flush does a sequence of pops and pushes, and returns when the queue says that it is empty. -/
theorem flush_run {react : List (Op α) → List (Nat × α)} {fuel : Nat} :
    ∀ {past past' : List (Op α)} {q q' : Queue α}, dznRuntimeFlush react fuel past q = some (past', q') →
      ∃ steps outs, past' = past ++ steps ∧ run q steps = some (outs, q') ∧ dznQueueEmpty q' = true := by
  induction fuel with
  | zero => intro past past' q q' h; cases h
  | succ fuel ih =>
    intro past past' q q' h
    unfold dznRuntimeFlush at h
    split at h
    · rename_i hempty
      cases h
      exact ⟨[], [], by simp, rfl, hempty⟩
    · obtain ⟨⟨e, q₁⟩, hpop, h⟩ := Option.bind_eq_some_iff.mp h
      obtain ⟨⟨outs₂, q₂⟩, hpush, h⟩ := Option.bind_eq_some_iff.mp h
      obtain ⟨⟨past₃, q₃⟩, hflush, h⟩ := Option.bind_eq_some_iff.mp h
      obtain ⟨steps₃, outs₃, rfl, hr₃, -⟩ := ih hflush
      obtain ⟨steps₄, outs₄, rfl, hr₄, hempty⟩ := ih h
      refine ⟨.pop :: (pushes (react (past ++ [.pop])) ++ (steps₃ ++ steps₄)), [e] ++ (outs₂ ++ (outs₃ ++ outs₄)), by simp,
        ?_, hempty⟩
      simp only at hpush hr₃ hr₄
      simp [run, step, hpop, run_append, hpush, hr₃, hr₄]

/-- The queue is first in, first out exactly as long as fewer than 256 elements are pending, and a flush that
returns has handled every event exactly then. -/
theorem queue_iff (ops : List (Op α)) (hl : Legal ops) :
    ((∀ p, p <+: ops → Agrees p) ↔ ∀ p, p <+: ops → pending p < 256) ∧
    ∀ (react : List (Op α) → List (Nat × α)) (fuel : Nat) (outs : List α) (q q' : Queue α) (all : List (Op α)),
      run dznQueueInit ops = some (outs, q) → dznRuntimeFlush react fuel ops q = some (all, q') → Legal all →
        (AllPopped all ↔ ∀ p, p <+: all → pending p < 256) := by
  refine ⟨⟨?_, ?_⟩, ?_⟩
  · intro ha p hp
    exact pending_lt_of_agrees (hl.of_prefix hp) fun p' hp' => ha p' (hp'.trans hp)
  · intro hb p hp
    exact agrees_of_pending_lt (hl.of_prefix hp) fun p' hp' => hb p' (hp'.trans hp)
  · intro react fuel outs q q' all hr hf hall
    obtain ⟨steps, outs', rfl, hr', hempty⟩ := flush_run hf
    have hrun : run dznQueueInit (ops ++ steps) = some (outs ++ outs', q') := by
      rw [run_append, hr]
      simp [hr']
    obtain ⟨hh, -⟩ := run_holds hall hrun
    rw [empty_iff hh, nodes_length hall] at hempty
    have hle := (nodes_items hall).1
    constructor
    · intro hdone p hp
      obtain ⟨more, hmore⟩ := hp
      by_contra hge
      have hstay := pending_ge_of_run (hmore ▸ hall) (hmore ▸ hrun) (Nat.le_of_not_lt hge)
      rw [hmore] at hstay
      unfold AllPopped at hdone
      unfold pending at hstay
      omega
    · intro hb
      have hlt := hb _ (List.prefix_refl _)
      unfold pending at hlt hempty
      unfold AllPopped
      omega

/-- `n` elements in a row. -/
def pushRow : Nat → List (Op Nat)
  | 0 => []
  | n + 1 => pushRow n ++ [.push (n + 1) n]

theorem pushRow_spec (n : Nat) :
    Legal (pushRow n) ∧ pending (pushRow n) = n ∧ ∀ a ∈ addresses (nodes (pushRow n)), a ≤ n := by
  induction n with
  | zero => exact ⟨legal_nil, rfl, by simp [pushRow, nodes]⟩
  | succ n ih =>
    obtain ⟨hl, hn, ha⟩ := ih
    refine ⟨hl.snoc ⟨by omega, fun h => ?_⟩, ?_, ?_⟩
    · have := ha _ h
      omega
    · have hle := (nodes_items hl).1
      simp only [pending, pushRow, pushed_append, popped_append, pushed, popped, List.length_append,
        List.length_singleton] at hn ⊢
      omega
    · intro a h
      simp only [pushRow, nodes_snoc, nodeStep, addresses_append, List.mem_append] at h
      rcases h with h | h
      · have := ha a h
        omega
      · simp at h
        omega

/-- Handling the first event posts one more. -/
def reactOnce (past : List (Op Nat)) : List (Nat × Nat) := if past.length = 4 then [(4, 3)] else []

/-- The operations of a flush of three events, the first of which posts another one. -/
def flushThree : List (Op Nat) := pushRow 3 ++ [.pop] ++ [.push 4 3] ++ [.pop] ++ [.pop] ++ [.pop]

theorem flushThree_legal : Legal flushThree := by
  refine (((((pushRow_spec 3).1.snoc ?_).snoc ?_).snoc ?_).snoc ?_).snoc ?_
  all_goals simp [LegalStep, nodes, nodeStep, pushRow]

theorem queue_three :
    (dznRuntimeFlush reactOnce 9 (pushRow 3) ((run dznQueueInit (pushRow 3)).get rfl).2).map Prod.fst = some flushThree ∧
      ((∀ p, p <+: pushRow 3 → Agrees p) ↔ ∀ p, p <+: pushRow 3 → pending p < 256) ∧
      (AllPopped flushThree ↔ ∀ p, p <+: flushThree → pending p < 256) := by
  refine ⟨rfl, (queue_iff (pushRow 3) (pushRow_spec 3).1).1, ?_⟩
  exact (queue_iff (pushRow 3) (pushRow_spec 3).1).2 reactOnce 9 _ _ _ _ rfl rfl flushThree_legal

/-- 256 events are pending, and the queue says that it is empty. -/
theorem queue_full : ¬ ∀ ops : List (Op Nat), Legal ops → Agrees ops := by
  intro h
  obtain ⟨hl, hn, -⟩ := pushRow_spec 256
  have := pending_lt_of_agrees hl fun p hp => h p (hl.of_prefix hp)
  omega

end Dezyne.CQueue
