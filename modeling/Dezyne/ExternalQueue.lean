import Dezyne.Construct
import Mathlib.Logic.Embedding.Basic
/-!
# The queues of the external ports

A program counter has an association list of the events that wait at external
ports. An event is added at the end of the queue of its port, and the entries are
sorted by the names of the ports; an event is taken from the front, and the rest
of its queue becomes the first entry.
-/

namespace Dezyne

section
variable {Port Trigger : Type} [DecidableEq Port]

/-! ## The operations -/

/-- `.external-q`: ports with the events in their queues. -/
abbrev ExternalQ (Port Trigger : Type) := List (Port × List Trigger)

/-- `assoc-ref` -/
def assocRef (externalQ : ExternalQ Port Trigger) (port : Port) : Option (List Trigger) :=
  (externalQ.find? fun e => e.1 = port).map Prod.snd

/-- `alist-delete` -/
def alistDelete (port : Port) (externalQ : ExternalQ Port Trigger) : ExternalQ Port Trigger :=
  externalQ.filter fun e => e.1 ≠ port

/-- The names of ports are different: `name` of a port is its path. -/
abbrev PortName (Port : Type) := Port ↪ String

/-- `enqueue-external`; `none` is the error, with which the queues stay as they are. -/
def enqueueExternal (name : PortName Port) (queueSizeExternal : Nat) (externalQ : ExternalQ Port Trigger)
    (port : Port) (trigger : Trigger) : Option (ExternalQ Port Trigger) :=
  let q := (assocRef externalQ port).getD []
  if q.length = queueSizeExternal then none
  else
    let externalQ := alistDelete port externalQ
    let externalQ := (port, q ++ [trigger]) :: externalQ
    some (sortBy (fun a b => name a.1 < name b.1) externalQ)

/-- `dequeue-external` -/
def dequeueExternal (externalQ : ExternalQ Port Trigger) (port : Port) :
    ExternalQ Port Trigger × Option Trigger :=
  match assocRef externalQ port with
  | none => (externalQ, none)
  | some [] => (externalQ, none)
  | some (trigger :: tail) =>
    let externalQ := alistDelete port externalQ
    (if tail.isEmpty then externalQ else (port, tail) :: externalQ, some trigger)

inductive ExternalOp (Port Trigger : Type) where
  | enqueue (port : Port) (trigger : Trigger)
  | dequeue (port : Port)

/-- The queues after an operation. -/
def externalStep (name : PortName Port) (size : Nat) (externalQ : ExternalQ Port Trigger) :
    ExternalOp Port Trigger → ExternalQ Port Trigger
  | .enqueue port trigger => (enqueueExternal name size externalQ port trigger).getD externalQ
  | .dequeue port => (dequeueExternal externalQ port).1

/-- The queues after a sequence of operations. -/
def externalRun (name : PortName Port) (size : Nat) (ops : List (ExternalOp Port Trigger)) :
    ExternalQ Port Trigger :=
  ops.foldl (externalStep name size) []

/-! ## What they stand for -/

/-- A queue for every port. -/
abbrev Queues (Port Trigger : Type) := Port → List Trigger

/-- The queues that a list stands for. -/
def contents (externalQ : ExternalQ Port Trigger) : Queues Port Trigger :=
  fun port => (assocRef externalQ port).getD []

/-- First in, first out, with at most `size` events for each port. -/
def Queues.step (size : Nat) (queues : Queues Port Trigger) : ExternalOp Port Trigger → Queues Port Trigger
  | .enqueue port trigger =>
    if (queues port).length = size then queues else Function.update queues port (queues port ++ [trigger])
  | .dequeue port => Function.update queues port (queues port).tail

def Queues.run (size : Nat) (ops : List (ExternalOp Port Trigger)) : Queues Port Trigger :=
  ops.foldl (Queues.step size) fun _ => []

/-- One entry for a port, with a queue that is not empty and not too long. -/
structure Proper (size : Nat) (externalQ : ExternalQ Port Trigger) : Prop where
  nodup : (externalQ.map Prod.fst).Nodup
  nonempty : ∀ e ∈ externalQ, e.2 ≠ []
  bounded : ∀ e ∈ externalQ, e.2.length ≤ size

/-- The entries are in the order of their names. -/
def InPortOrder (name : PortName Port) (externalQ : ExternalQ Port Trigger) : Prop :=
  externalQ.Pairwise fun a b => name a.1 < name b.1

/-- An event is taken from a queue of one, or from the first port that has one. -/
def TakesFirst (name : PortName Port) (externalQ : ExternalQ Port Trigger) : ExternalOp Port Trigger → Prop
  | .enqueue _ _ => True
  | .dequeue port => (contents externalQ port).length ≤ 1 ∨ ∀ port', contents externalQ port' ≠ [] → name port ≤ name port'

/-! ## Association lists -/

variable {name : PortName Port} {size : Nat} {externalQ externalQ' : ExternalQ Port Trigger} {port : Port}
  {q : List Trigger}

theorem assocRef_eq_some_iff (h : (externalQ.map Prod.fst).Nodup) :
    assocRef externalQ port = some q ↔ (port, q) ∈ externalQ := by
  induction externalQ with
  | nil =>
    constructor
    · rintro ⟨⟩
    · rintro ⟨⟩
  | cons e externalQ ih =>
    obtain ⟨hnot, hnodup⟩ := List.nodup_cons.1 h
    unfold assocRef at ih ⊢
    by_cases he : e.1 = port
    · rw [List.find?_cons_of_pos (by simpa using he)]
      constructor
      · rintro ⟨⟩
        rw [← he]
        exact List.mem_cons_self
      · intro hmem
        rcases List.mem_cons.1 hmem with rfl | hmem
        · rfl
        · exact absurd (he ▸ List.mem_map_of_mem hmem) hnot
    · rw [List.find?_cons_of_neg (by simpa using he), ih hnodup, List.mem_cons]
      refine (or_iff_right ?_).symm
      rintro rfl
      exact he rfl

theorem contents_eq_iff (h : Proper size externalQ) (hq : q ≠ []) :
    contents externalQ port = q ↔ (port, q) ∈ externalQ := by
  rw [← assocRef_eq_some_iff h.nodup]
  unfold contents
  cases hr : assocRef externalQ port with
  | none =>
    constructor
    · intro heq
      exact absurd heq.symm hq
    · intro heq
      cases heq
  | some q' => exact (Option.some_inj).symm

/-- Lists with the same entries stand for the same queues. -/
theorem contents_congr (h : Proper size externalQ) (h' : Proper size externalQ')
    (hmem : ∀ e, e ∈ externalQ ↔ e ∈ externalQ') : contents externalQ = contents externalQ' := by
  funext port
  cases hq : contents externalQ' port with
  | nil =>
    by_contra hne
    have hmem' := (contents_eq_iff h hne).1 rfl
    rw [hmem, ← contents_eq_iff h' hne] at hmem'
    exact hne (hmem'.symm.trans hq)
  | cons t q =>
    have hne : t :: q ≠ [] := List.cons_ne_nil t q
    rw [contents_eq_iff h hne, hmem, ← contents_eq_iff h' hne, hq]

theorem mem_alistDelete {e : Port × List Trigger} :
    e ∈ alistDelete port externalQ ↔ e ∈ externalQ ∧ e.1 ≠ port := by
  unfold alistDelete
  rw [List.mem_filter, decide_eq_true_iff]

theorem Proper.alistDelete (h : Proper size externalQ) : Proper size (alistDelete port externalQ) where
  nodup := h.nodup.sublist (List.filter_sublist.map _)
  nonempty := fun e he => h.nonempty e (mem_alistDelete.1 he).1
  bounded := fun e he => h.bounded e (mem_alistDelete.1 he).1

/-- The queue of a port is replaced. -/
theorem Proper.replace (h : Proper size externalQ) (hq : q ≠ []) (hlen : q.length ≤ size) :
    Proper size ((port, q) :: Dezyne.alistDelete port externalQ) where
  nodup := by
    refine List.nodup_cons.2 ⟨?_, h.alistDelete.nodup⟩
    intro hmem
    obtain ⟨e, he, heq⟩ := List.mem_map.1 hmem
    exact (mem_alistDelete.1 he).2 heq
  nonempty := by
    intro e he
    rcases List.mem_cons.1 he with rfl | he
    · exact hq
    · exact h.alistDelete.nonempty e he
  bounded := by
    intro e he
    rcases List.mem_cons.1 he with rfl | he
    · exact hlen
    · exact h.alistDelete.bounded e he

omit [DecidableEq Port] in
theorem Proper.perm (h : Proper size externalQ) (hperm : externalQ'.Perm externalQ) :
    Proper size externalQ' where
  nodup := (hperm.map Prod.fst).nodup_iff.2 h.nodup
  nonempty := fun e he => h.nonempty e (hperm.mem_iff.1 he)
  bounded := fun e he => h.bounded e (hperm.mem_iff.1 he)

/-! ## What an operation does -/

theorem contents_alistDelete : contents (alistDelete port externalQ) = Function.update (contents externalQ) port [] := by
  funext port'
  unfold contents assocRef alistDelete
  rw [List.find?_filter]
  by_cases hp : port' = port
  · subst hp
    have hnone : externalQ.find? (fun e => decide (decide (e.1 ≠ port') = true ∧ decide (e.1 = port') = true)) = none := by
      rw [List.find?_eq_none]
      intro e _ h
      simp at h
    rw [hnone, Function.update_self]
    rfl
  · have hsame : (fun e : Port × List Trigger => decide (decide (e.1 ≠ port) = true ∧ decide (e.1 = port') = true)) =
        fun e => decide (e.1 = port') := by
      funext e
      rw [decide_eq_decide, decide_eq_true_iff, decide_eq_true_iff, and_iff_right_iff_imp]
      rintro rfl
      exact hp
    rw [hsame, Function.update_of_ne hp]

theorem contents_replace : contents ((port, q) :: alistDelete port externalQ) =
    Function.update (contents externalQ) port q := by
  funext port'
  by_cases hp : port' = port
  · subst hp
    rw [Function.update_self]
    unfold contents assocRef
    rw [List.find?_cons_of_pos (by simp)]
    rfl
  · have hcons : contents ((port, q) :: alistDelete port externalQ) port' = contents (alistDelete port externalQ) port' := by
      unfold contents assocRef
      rw [List.find?_cons_of_neg (by simpa using Ne.symm hp)]
    rw [hcons, contents_alistDelete, Function.update_of_ne hp, Function.update_of_ne hp]

omit [DecidableEq Port] in
/-- Different ports have different names. -/
theorem inPortOrder_of_le (h : Proper size externalQ)
    (hle : externalQ.Pairwise fun a b => name a.1 ≤ name b.1) : InPortOrder name externalQ := by
  have hne : externalQ.Pairwise fun a b => a.1 ≠ b.1 := List.pairwise_map.1 h.nodup
  refine (hle.and hne).imp ?_
  rintro a b ⟨hab, hne⟩
  exact lt_of_le_of_ne hab fun heq => hne (name.injective heq)

/-- What `enqueue-external` does. -/
theorem enqueueExternal_spec (name : PortName Port) (port : Port) (h : Proper size externalQ)
    (trigger : Trigger) :
    ((contents externalQ port).length = size ∧ enqueueExternal name size externalQ port trigger = none) ∨
    ((contents externalQ port).length < size ∧ ∃ externalQ', enqueueExternal name size externalQ port trigger = some externalQ' ∧
      Proper size externalQ' ∧ InPortOrder name externalQ' ∧
      contents externalQ' = Function.update (contents externalQ) port (contents externalQ port ++ [trigger])) := by
  have hle : (contents externalQ port).length ≤ size := by
    cases hq : contents externalQ port with
    | nil => exact Nat.zero_le _
    | cons t q => exact h.bounded _ ((contents_eq_iff h (List.cons_ne_nil t q)).1 hq)
  by_cases hfull : (contents externalQ port).length = size
  · exact .inl ⟨hfull, if_pos hfull⟩
  · refine .inr ⟨lt_of_le_of_ne hle hfull, _, if_neg hfull, ?_⟩
    have hproper : Proper size ((port, contents externalQ port ++ [trigger]) :: alistDelete port externalQ) := by
      apply h.replace
      · simp
      · rw [List.length_append, List.length_singleton]
        exact Nat.succ_le_of_lt (lt_of_le_of_ne hle hfull)
    have hperm := perm_sortBy (fun a b : Port × List Trigger => decide (name a.1 < name b.1))
      ((port, contents externalQ port ++ [trigger]) :: alistDelete port externalQ)
    have hsorted := hproper.perm hperm
    refine ⟨hsorted, ?_, ?_⟩
    · exact inPortOrder_of_le hsorted (pairwise_sortBy (fun e : Port × List Trigger => name e.1) _)
    · rw [← contents_replace]
      exact contents_congr hsorted hproper fun e => hperm.mem_iff

theorem dequeueExternal_nil (h : contents externalQ port = []) :
    dequeueExternal externalQ port = (externalQ, none) := by
  unfold contents at h
  unfold dequeueExternal
  cases hq : assocRef externalQ port with
  | none => rfl
  | some q =>
    rw [hq] at h
    obtain rfl : q = [] := h
    rfl

theorem dequeueExternal_cons {trigger : Trigger} {tail : List Trigger}
    (h : contents externalQ port = trigger :: tail) :
    dequeueExternal externalQ port = (if tail.isEmpty then alistDelete port externalQ
      else (port, tail) :: alistDelete port externalQ, some trigger) := by
  unfold contents at h
  unfold dequeueExternal
  cases hq : assocRef externalQ port with
  | none =>
    rw [hq] at h
    cases h
  | some q =>
    rw [hq] at h
    obtain rfl : q = trigger :: tail := h
    rfl

/-- What `dequeue-external` does. -/
theorem dequeueExternal_spec (port : Port) (h : Proper size externalQ) :
    Proper size (dequeueExternal externalQ port).1 ∧
    contents (dequeueExternal externalQ port).1 = Function.update (contents externalQ) port (contents externalQ port).tail ∧
    (dequeueExternal externalQ port).2 = (contents externalQ port).head? := by
  cases hq : contents externalQ port with
  | nil =>
    rw [dequeueExternal_nil hq, List.tail_nil]
    exact ⟨h, by rw [← hq, Function.update_eq_self], rfl⟩
  | cons trigger tail =>
    have hbound := h.bounded _ ((contents_eq_iff h (List.cons_ne_nil trigger tail)).1 hq)
    rw [dequeueExternal_cons hq]
    cases tail with
    | nil => exact ⟨h.alistDelete, contents_alistDelete, rfl⟩
    | cons trigger' tail =>
      exact ⟨h.replace (List.cons_ne_nil _ _) (Nat.le_of_succ_le hbound), contents_replace, rfl⟩

/-- An event is taken from the front without sorting. -/
theorem dequeueExternal_inPortOrder_iff (h : Proper size externalQ) (hord : InPortOrder name externalQ) :
    InPortOrder name (dequeueExternal externalQ port).1 ↔ TakesFirst name externalQ (.dequeue port) := by
  have hdelete : InPortOrder name (alistDelete port externalQ) := List.Pairwise.sublist List.filter_sublist hord
  show _ ↔ (contents externalQ port).length ≤ 1 ∨ ∀ port', contents externalQ port' ≠ [] → name port ≤ name port'
  cases hq : contents externalQ port with
  | nil =>
    rw [dequeueExternal_nil hq]
    exact iff_of_true hord (.inl (Nat.zero_le 1))
  | cons trigger tail =>
    rw [dequeueExternal_cons hq]
    cases tail with
    | nil => exact iff_of_true hdelete (.inl (le_refl 1))
    | cons trigger' tail =>
      have hlong : ¬ (trigger :: trigger' :: tail).length ≤ 1 := by simp
      rw [or_iff_right hlong]
      show InPortOrder name ((port, trigger' :: tail) :: alistDelete port externalQ) ↔ _
      unfold InPortOrder at hdelete ⊢
      rw [List.pairwise_cons, and_iff_left hdelete]
      constructor
      · intro hall port' hne
        by_cases hp : port' = port
        · rw [hp]
        · exact (hall (port', contents externalQ port')
            (mem_alistDelete.2 ⟨(contents_eq_iff h hne).1 rfl, hp⟩)).le
      · intro hall e he
        obtain ⟨hmem, hne⟩ := mem_alistDelete.1 he
        have hcontents : contents externalQ e.1 = e.2 := (contents_eq_iff h (h.nonempty e hmem)).2 hmem
        have hle := hall e.1 (by rw [hcontents]; exact h.nonempty e hmem)
        exact lt_of_le_of_ne hle fun heq => hne (name.injective heq).symm

/-! ## Steps and runs -/

theorem externalStep_enqueue (port : Port) (trigger : Trigger) :
    externalStep name size externalQ (.enqueue port trigger) =
      (enqueueExternal name size externalQ port trigger).getD externalQ := rfl

theorem queuesStep_enqueue (queues : Queues Port Trigger) (port : Port) (trigger : Trigger) :
    Queues.step size queues (.enqueue port trigger) =
      if (queues port).length = size then queues else Function.update queues port (queues port ++ [trigger]) := rfl

theorem externalStep_proper (h : Proper size externalQ) (op : ExternalOp Port Trigger) :
    Proper size (externalStep name size externalQ op) ∧
    contents (externalStep name size externalQ op) = Queues.step size (contents externalQ) op := by
  cases op with
  | enqueue port trigger =>
    rw [externalStep_enqueue, queuesStep_enqueue]
    rcases enqueueExternal_spec name port h trigger with
      ⟨hfull, hnone⟩ | ⟨hlt, externalQ', hsome, hproper, -, hcontents⟩
    · rw [hnone, if_pos hfull]
      exact ⟨h, rfl⟩
    · rw [hsome, if_neg hlt.ne]
      exact ⟨hproper, hcontents⟩
  | dequeue port =>
    obtain ⟨hproper, hcontents, -⟩ := dequeueExternal_spec port h
    exact ⟨hproper, hcontents⟩

theorem externalStep_inPortOrder_iff (h : Proper size externalQ) (hord : InPortOrder name externalQ)
    (op : ExternalOp Port Trigger) :
    InPortOrder name (externalStep name size externalQ op) ↔ TakesFirst name externalQ op := by
  cases op with
  | enqueue port trigger =>
    refine iff_of_true ?_ trivial
    rw [externalStep_enqueue]
    rcases enqueueExternal_spec name port h trigger with
      ⟨-, hnone⟩ | ⟨-, externalQ', hsome, -, hord', -⟩
    · rw [hnone]
      exact hord
    · rw [hsome]
      exact hord'
  | dequeue port => exact dequeueExternal_inPortOrder_iff h hord

/-- Every run has one entry for a port, no empty queue, and the events in the order they came. -/
theorem externalRun_proper (ops : List (ExternalOp Port Trigger)) :
    Proper size (externalRun name size ops) ∧ contents (externalRun name size ops) = Queues.run size ops := by
  induction ops using List.reverseRecOn with
  | nil =>
    refine ⟨⟨List.nodup_nil, ?_, ?_⟩, rfl⟩
    · rintro e ⟨⟩
    · rintro e ⟨⟩
  | append_singleton ops op ih =>
    obtain ⟨hproper, hcontents⟩ := ih
    unfold externalRun Queues.run at *
    rw [List.foldl_append, List.foldl_append, ← hcontents]
    exact externalStep_proper hproper op

/-- Every event in a run is taken from a queue of one or from the first port. -/
def AlwaysFirst (name : PortName Port) (size : Nat) (ops : List (ExternalOp Port Trigger)) : Prop :=
  ∀ ops' op, ops' ++ [op] <+: ops → TakesFirst name (externalRun name size ops') op

theorem alwaysFirst_append (ops : List (ExternalOp Port Trigger)) (op : ExternalOp Port Trigger) :
    AlwaysFirst name size (ops ++ [op]) ↔ AlwaysFirst name size ops ∧ TakesFirst name (externalRun name size ops) op := by
  constructor
  · intro h
    exact ⟨fun ops' op' hpre => h ops' op' (hpre.trans (List.prefix_append _ _)), h ops op (List.prefix_refl _)⟩
  · rintro ⟨hall, hlast⟩ ops' op' hpre
    rcases List.prefix_concat_iff.1 hpre with heq | hpre
    · obtain ⟨rfl, hop⟩ := List.append_inj' heq rfl
      cases hop
      exact hlast
    · exact hall ops' op' hpre

theorem externalRun_append (ops : List (ExternalOp Port Trigger)) (op : ExternalOp Port Trigger) :
    externalRun name size (ops ++ [op]) = externalStep name size (externalRun name size ops) op := by
  unfold externalRun
  rw [List.foldl_append]
  rfl

/-- The lists of a run are in order as long as events are taken from the first port. -/
theorem externalRun_inPortOrder_iff (ops : List (ExternalOp Port Trigger)) :
    (∀ ops', ops' <+: ops → InPortOrder name (externalRun name size ops')) ↔ AlwaysFirst name size ops := by
  induction ops using List.reverseRecOn with
  | nil =>
    refine iff_of_true ?_ ?_
    · intro ops' hpre
      rw [List.prefix_nil.1 hpre]
      exact List.Pairwise.nil
    · intro ops' op hpre
      cases List.append_eq_nil_iff.1 (List.prefix_nil.1 hpre) |>.2
  | append_singleton ops op ih =>
    rw [alwaysFirst_append, ← ih]
    constructor
    · intro hall
      have hbefore : ∀ ops', ops' <+: ops → InPortOrder name (externalRun name size ops') :=
        fun ops' hpre => hall ops' (hpre.trans (List.prefix_append _ _))
      refine ⟨hbefore, ?_⟩
      rw [← externalStep_inPortOrder_iff (externalRun_proper ops).1 (hbefore ops (List.prefix_refl _)),
        ← externalRun_append]
      exact hall _ (List.prefix_refl _)
    · rintro ⟨hbefore, hop⟩ ops' hpre
      rcases List.prefix_concat_iff.1 hpre with rfl | hpre
      · rw [externalRun_append,
          externalStep_inPortOrder_iff (externalRun_proper ops).1 (hbefore ops (List.prefix_refl _))]
        exact hop
      · exact hbefore ops' hpre

/-- In port order, the contents determine the list. -/
theorem inPortOrder_unique (h : Proper size externalQ) (h' : Proper size externalQ')
    (hord : InPortOrder name externalQ)
    (hord' : InPortOrder name externalQ') (heq : contents externalQ = contents externalQ') : externalQ = externalQ' := by
  have hmem : ∀ e, e ∈ externalQ ↔ e ∈ externalQ' := by
    rintro ⟨port, q⟩
    by_cases hq : q = []
    · subst hq
      exact iff_of_false (fun he => h.nonempty _ he rfl) fun he => h'.nonempty _ he rfl
    · rw [← contents_eq_iff h hq, ← contents_eq_iff h' hq, heq]
  have hperm : externalQ.Perm externalQ' :=
    (List.perm_ext_iff_of_nodup h.nodup.of_map h'.nodup.of_map).2 hmem
  refine hperm.eq_of_pairwise ?_ hord hord'
  intro a b _ _ hab hba
  exact absurd (hab.trans hba) (lt_irrefl _)

/-! ## The theorem -/

/-- In every run there is one entry for a port, no empty queue, no queue that is too long, and the events of a
port leave in the order they came. The entries are in port order after every operation if and only if every
event is taken from a queue of one or from the first port that has one; then the contents determine the list. -/
theorem externalQ_canonical_iff (name : PortName Port) (size : Nat) :
    (∀ ops : List (ExternalOp Port Trigger), Proper size (externalRun name size ops) ∧
      contents (externalRun name size ops) = Queues.run size ops ∧
      ∀ port, (dequeueExternal (externalRun name size ops) port).2 = (Queues.run size ops port).head?) ∧
    (∀ ops : List (ExternalOp Port Trigger),
      (∀ ops', ops' <+: ops → InPortOrder name (externalRun name size ops')) ↔ AlwaysFirst name size ops) ∧
    ∀ ops ops' : List (ExternalOp Port Trigger), AlwaysFirst name size ops → AlwaysFirst name size ops' →
      contents (externalRun name size ops) = contents (externalRun name size ops') →
      externalRun name size ops = externalRun name size ops' := by
  refine ⟨?_, externalRun_inPortOrder_iff, ?_⟩
  · intro ops
    have hrun : Proper size (externalRun name size ops) ∧ contents (externalRun name size ops) = Queues.run size ops :=
      externalRun_proper ops
    obtain ⟨hproper, hcontents⟩ := hrun
    refine ⟨hproper, hcontents, fun port => ?_⟩
    rw [← hcontents]
    exact (dequeueExternal_spec port hproper).2.2
  · intro ops ops' hfirst hfirst' heq
    exact inPortOrder_unique (externalRun_proper ops).1 (externalRun_proper ops').1
      ((externalRun_inPortOrder_iff ops).2 hfirst ops (List.prefix_refl _))
      ((externalRun_inPortOrder_iff ops').2 hfirst' ops' (List.prefix_refl _)) heq

end

/-- An event at `p` and two at `q`, of which the first is taken. -/
def takenOps : List (ExternalOp String Nat) := [.enqueue "p" 1, .enqueue "q" 1, .enqueue "q" 2, .dequeue "q"]

/-- An event at `p` and the second of those at `q`. -/
def untakenOps : List (ExternalOp String Nat) := [.enqueue "p" 1, .enqueue "q" 2]

/-- The same events wait at the same ports, in lists of a different order. -/
theorem externalQ_not_canonical :
    ¬ InPortOrder (Function.Embedding.refl String) (externalRun (Function.Embedding.refl String) 2 takenOps) ∧
    contents (externalRun (Function.Embedding.refl String) 2 takenOps) =
      contents (externalRun (Function.Embedding.refl String) 2 untakenOps) ∧
    externalRun (Function.Embedding.refl String) 2 takenOps ≠
      externalRun (Function.Embedding.refl String) 2 untakenOps := by
  have htaken : externalRun (Function.Embedding.refl String) 2 takenOps = [("q", [2]), ("p", [1])] := by decide
  have huntaken : externalRun (Function.Embedding.refl String) 2 untakenOps = [("p", [1]), ("q", [2])] := by decide
  rw [htaken, huntaken]
  refine ⟨?_, ?_, by decide⟩
  · unfold InPortOrder
    decide
  · have hproper : Proper 2 [("p", [1]), ("q", [2])] := ⟨by decide, by decide, by decide⟩
    exact contents_congr (hproper.perm (List.Perm.swap _ _ _)) hproper fun e => (List.Perm.swap _ _ _).mem_iff

end Dezyne
