import Dezyne.ExternalQueue
import Mathlib.Algebra.BigOperators.Group.List.Defs
/-!
# The check on the queues of the external ports

From the program counters at the end of a trail, all modeling events of the
external ports are run, once more each time, until a queue is full or the events
that wait in the queues, counted over all program counters, are no longer more
than they were. `full_check_iff`: the check ends with an error exactly when a
sequence of modeling events overflows a queue, if and only if that number grows
up to the first overflow, and stops growing if there is none.
-/

namespace Dezyne.QueueFull

/-- The names of the modeling events. -/
inductive Modeling where
  | inevitable
  | optional
deriving DecidableEq, Repr

/-- What a modeling event does on a port: the events that it sends, each with the state of the port by then,
and the state at the end. -/
structure Trace (State Trigger : Type) where
  sent : List (State × Trigger)
  state : State

/-- The external requires ports at the boundary: `modeling-names`, and what `run-to-completion` of a modeling
event leads to from a state of the port, other than errors. -/
structure Ports (Port State Trigger : Type) where
  ports : List Port
  modelingNames : Port → List Modeling
  traces : Port → Modeling → State → List (Trace State Trigger)

/-- A `<queue-full-error>` or another status. -/
inductive Status where
  | queueFull
  | other
deriving DecidableEq, Repr

variable {Port State Trigger : Type} [DecidableEq Port]

/-- A `<program-counter>`: the states of the ports, `.external-q` and `.status`. Its queues are not longer
than allowed. -/
structure Pc (Port State Trigger : Type) [DecidableEq Port] (size : Nat) where
  state : Port → State
  externalQ : ExternalQ Port Trigger
  proper : Proper size externalQ
  status : Option Status

/-! ## The program counters -/

section
variable {size : Nat} (name : PortName Port)

/-- An event of an external port is sent: `enqueue-external`. -/
def Pc.send (pc : Pc Port State Trigger size) (port : Port) (s : State × Trigger) :
    Pc Port State Trigger size :=
  let state := Function.update pc.state port s.1
  match h : enqueueExternal name size pc.externalQ port s.2 with
  | none => { pc with state := state, status := some .queueFull }
  | some externalQ =>
    { pc with
      state := state
      externalQ := externalQ
      proper := by
        obtain ⟨-, hnone⟩ | ⟨-, externalQ', hsome, hproper, -⟩ := enqueueExternal_spec name port pc.proper s.2
        · rw [hnone] at h
          cases h
        · rw [hsome] at h
          obtain rfl := Option.some.inj h
          exact hproper }

/-- The events are sent one after the other, until there is an error. -/
def Pc.sendAll (port : Port) : List (State × Trigger) → Pc Port State Trigger size →
    Pc Port State Trigger size
  | [], pc => pc
  | s :: sent, pc =>
    let pc := pc.send name port s
    if pc.status.isSome then pc else Pc.sendAll port sent pc

/-- The program counter at the end of a trace. -/
def Pc.run (pc : Pc Port State Trigger size) (port : Port) (t : Trace State Trigger) :
    Pc Port State Trigger size :=
  let pc := Pc.sendAll name port t.sent pc
  if pc.status.isSome then pc else { pc with state := Function.update pc.state port t.state }

variable (m : Ports Port State Trigger)

/-- `run-to-completion`: a program counter with a status is where it ends. -/
def runToCompletion (pc : Pc Port State Trigger size) (port : Port) (event : Modeling) :
    List (Pc Port State Trigger size) :=
  if pc.status.isSome then [pc] else (m.traces port event (pc.state port)).map (pc.run name port)

/-- `run-external-modeling` of one port: other errors are left out. -/
def runExternalModelingPort (pc : Pc Port State Trigger size) (port : Port) :
    List (Pc Port State Trigger size) :=
  ((m.modelingNames port).flatMap (runToCompletion name m pc port)).filter fun pc => pc.status ≠ some .other

/-- `run-external-modeling` -/
def runExternalModeling (pc : Pc Port State Trigger size) : List (Pc Port State Trigger size) :=
  m.ports.flatMap (runExternalModelingPort name m pc)

/-- All modeling events from all of the program counters. -/
def runAll (pcs : List (Pc Port State Trigger size)) : List (Pc Port State Trigger size) :=
  pcs.flatMap (runExternalModeling name m)

/-- The number of events that wait. -/
def queued (pcs : List (Pc Port State Trigger size)) : Nat :=
  ((pcs.flatMap Pc.externalQ).flatMap Prod.snd).length

/-- The loop of `check-external-queue-full`: `none` without fuel, otherwise the error or `#f`. -/
def loop : Nat → List (Pc Port State Trigger size) → Nat → Option (Option (Pc Port State Trigger size))
  | 0, _, _ => none
  | fuel + 1, pcs, q =>
    let pcs := runAll name m pcs
    match pcs.find? fun pc => pc.status.isSome with
    | some error => some (some error)
    | none => if q < queued pcs then loop fuel pcs (queued pcs) else some none

/-- `check-external-queue-full` -/
def checkExternalQueueFull (fuel : Nat) (pcs : List (Pc Port State Trigger size)) :
    Option (Option (Pc Port State Trigger size)) := loop name m fuel pcs 0

end

/-! ## Sequences of modeling events -/

/-- The states of the ports and what waits at them. -/
structure World (Port State Trigger : Type) where
  state : Port → State
  queues : Queues Port Trigger

section
variable (m : Ports Port State Trigger) (size : Nat)

/-- The traces of the modeling events of a port. -/
def World.Allows (w : World Port State Trigger) (port : Port) (t : Trace State Trigger) : Prop :=
  port ∈ m.ports ∧ ∃ event ∈ m.modelingNames port, t ∈ m.traces port event (w.state port)

/-- After a trace. -/
def World.after (w : World Port State Trigger) (port : Port) (t : Trace State Trigger) :
    World Port State Trigger where
  state := Function.update w.state port t.state
  queues := Function.update w.queues port (w.queues port ++ t.sent.map Prod.snd)

/-- What a modeling event sends fits in the queue. -/
def World.Fits (w : World Port State Trigger) (port : Port) (t : Trace State Trigger) : Prop :=
  (w.queues port).length + t.sent.length ≤ size

instance (w : World Port State Trigger) (port : Port) (t : Trace State Trigger) :
    Decidable (w.Fits size port t) :=
  inferInstanceAs (Decidable (_ ≤ _))

/-- A modeling event overflows a queue after `n` modeling events that fit. -/
def World.OverflowsAfter : Nat → World Port State Trigger → Prop
  | 0, w => ∃ port t, w.Allows m port t ∧ ¬w.Fits size port t
  | n + 1, w => ∃ port t, w.Allows m port t ∧ w.Fits size port t ∧ World.OverflowsAfter n (w.after port t)

end

section
variable {size : Nat} (name : PortName Port) (m : Ports Port State Trigger)

def Pc.world (pc : Pc Port State Trigger size) : World Port State Trigger where
  state := pc.state
  queues := contents pc.externalQ

/-- A program counter with a full queue has overflowed, which shows at the first modeling event. One with
another error does nothing. -/
def Pc.OverflowsAfter (n : Nat) (pc : Pc Port State Trigger size) : Prop :=
  match pc.status with
  | none => pc.world.OverflowsAfter m size n
  | some .queueFull => n = 0 ∧ ∃ port ∈ m.ports, m.modelingNames port ≠ []
  | some .other => False

/-- A queue overflows after `n` modeling events from one of the program counters. -/
def OverflowsAfter (n : Nat) (pcs : List (Pc Port State Trigger size)) : Prop :=
  ∃ pc ∈ pcs, pc.OverflowsAfter m n

/-- Some sequence of modeling events overflows a queue. -/
def Overflows (pcs : List (Pc Port State Trigger size)) : Prop := ∃ n, OverflowsAfter m n pcs

/-- The first queue to overflow does so after `n` modeling events. -/
def FirstOverflow (n : Nat) (pcs : List (Pc Port State Trigger size)) : Prop :=
  OverflowsAfter m n pcs ∧ ∀ k < n, ¬OverflowsAfter m k pcs

/-- The events that wait after every sequence of `n` modeling events from a program counter, together. -/
def waiting : Nat → Pc Port State Trigger size → Nat
  | 0, pc => (pc.externalQ.flatMap Prod.snd).length
  | n + 1, pc => ((runExternalModeling name m pc).map (waiting n)).sum

/-- Those from all program counters, with `q` before the first modeling event. -/
def waitingAfter (q : Nat) (pcs : List (Pc Port State Trigger size)) : Nat → Nat
  | 0 => q
  | n + 1 => (pcs.map (waiting name m (n + 1))).sum

end

section
variable {size : Nat} {name : PortName Port} {m : Ports Port State Trigger}
  {pc pc' : Pc Port State Trigger size} {pcs : List (Pc Port State Trigger size)} {port : Port} {t : Trace State Trigger}
  {externalQ : ExternalQ Port Trigger}

/-! ## One modeling event -/

/-- An event that fits is the last one in the queue of its port. -/
theorem Pc.send_spec (name : PortName Port) (port : Port) (hpc : pc.status = none) (s : State × Trigger) :
    ((contents pc.externalQ port).length = size ∧ (pc.send name port s).status = some .queueFull) ∨
    ((contents pc.externalQ port).length < size ∧ (pc.send name port s).status = none ∧
      contents (pc.send name port s).externalQ =
        Function.update (contents pc.externalQ) port (contents pc.externalQ port ++ [s.2]) ∧
      (pc.send name port s).state = Function.update pc.state port s.1) := by
  unfold Pc.send
  obtain ⟨hlen, hnone⟩ | ⟨hlen, externalQ', hsome, -, -, hcontents⟩ :=
    enqueueExternal_spec name port pc.proper s.2
  · left
    refine ⟨hlen, ?_⟩
    split
    · rfl
    · next hsome =>
      rw [hnone] at hsome
      cases hsome
  · right
    split
    · next hnone =>
      rw [hsome] at hnone
      cases hnone
    · next heq =>
      obtain rfl := Option.some.inj (hsome.symm.trans heq)
      exact ⟨hlen, hpc, hcontents, rfl⟩

theorem length_contents_le (h : Proper size externalQ) (port : Port) :
    (contents externalQ port).length ≤ size := by
  by_cases hq : contents externalQ port = []
  · rw [hq]
    exact Nat.zero_le _
  · exact h.bounded _ ((contents_eq_iff h hq).1 rfl)

/-- The events of a trace all fit, or the queue is full before the last one. -/
theorem Pc.sendAll_spec (name : PortName Port) (port : Port) (sent : List (State × Trigger))
    (hpc : pc.status = none) :
    (size < (contents pc.externalQ port).length + sent.length ∧
      (Pc.sendAll name port sent pc).status = some .queueFull) ∨
    ((contents pc.externalQ port).length + sent.length ≤ size ∧ (Pc.sendAll name port sent pc).status = none ∧
      contents (Pc.sendAll name port sent pc).externalQ =
        Function.update (contents pc.externalQ) port (contents pc.externalQ port ++ sent.map Prod.snd) ∧
      ∀ st, Function.update (Pc.sendAll name port sent pc).state port st =
        Function.update pc.state port st) := by
  induction sent generalizing pc with
  | nil =>
    right
    refine ⟨length_contents_le pc.proper port, hpc, ?_, fun _ => rfl⟩
    rw [List.map_nil, List.append_nil, Function.update_eq_self]
    rfl
  | cons s sent ih =>
    rw [List.length_cons, Pc.sendAll]
    obtain ⟨hlen, hfull⟩ | ⟨hlen, hnone, hcontents, hstate⟩ := Pc.send_spec name port hpc s
    · left
      refine ⟨by omega, ?_⟩
      rw [if_pos (by rw [hfull]; rfl)]
      exact hfull
    · have hq : contents (pc.send name port s).externalQ port = contents pc.externalQ port ++ [s.2] := by
        rw [hcontents, Function.update_self]
      rw [if_neg (by rw [hnone]; decide)]
      obtain ⟨hlen', hfull⟩ | ⟨hlen', hnone', hcontents', hstate'⟩ := ih hnone
      · left
        rw [hq, List.length_append, List.length_singleton] at hlen'
        exact ⟨by omega, hfull⟩
      · right
        rw [hq, List.length_append, List.length_singleton] at hlen'
        refine ⟨by omega, hnone', ?_, ?_⟩
        · rw [hcontents', hq, hcontents, Function.update_idem, List.append_assoc]
          rfl
        · intro st
          rw [hstate', hstate, Function.update_idem]

/-- A modeling event overflows the queue of its port, or what it sends is added to it. -/
theorem Pc.run_spec (name : PortName Port) (port : Port) (t : Trace State Trigger) (hpc : pc.status = none) :
    (¬pc.world.Fits size port t ∧ (pc.run name port t).status = some .queueFull) ∨
    (pc.world.Fits size port t ∧ (pc.run name port t).status = none ∧
      (pc.run name port t).world = pc.world.after port t) := by
  unfold Pc.run
  obtain ⟨hlen, hfull⟩ | ⟨hlen, hnone, hcontents, hstate⟩ := Pc.sendAll_spec name port t.sent hpc
  · left
    refine ⟨Nat.not_le.2 hlen, ?_⟩
    rw [if_pos (by rw [hfull]; rfl)]
    exact hfull
  · right
    refine ⟨hlen, ?_⟩
    rw [if_neg (by rw [hnone]; decide)]
    refine ⟨hnone, ?_⟩
    unfold Pc.world World.after
    rw [hcontents, hstate]

/-! ## All modeling events -/

/-- The results of the traces that the ports allow. -/
theorem mem_runExternalModeling (hpc : pc.status = none) :
    pc' ∈ runExternalModeling name m pc ↔ ∃ port t, pc.world.Allows m port t ∧ pc' = pc.run name port t := by
  have hrun : ∀ port event, runToCompletion name m pc port event =
      (m.traces port event (pc.state port)).map (pc.run name port) := by
    intro port event
    rw [runToCompletion, hpc]
    rfl
  constructor
  · intro h
    obtain ⟨port, hport, h⟩ := List.mem_flatMap.1 h
    obtain ⟨event, hevent, h⟩ := List.mem_flatMap.1 (List.mem_filter.1 h).1
    rw [hrun] at h
    obtain ⟨t, ht, rfl⟩ := List.mem_map.1 h
    exact ⟨port, t, ⟨hport, event, hevent, ht⟩, rfl⟩
  · rintro ⟨port, t, ⟨hport, event, hevent, ht⟩, rfl⟩
    refine List.mem_flatMap.2 ⟨port, hport, List.mem_filter.2 ⟨List.mem_flatMap.2 ⟨event, hevent, ?_⟩, ?_⟩⟩
    · rw [hrun]
      exact List.mem_map_of_mem ht
    · obtain ⟨-, hs⟩ | ⟨-, hs, -⟩ := Pc.run_spec name port t hpc
      · rw [hs]
        decide
      · rw [hs]
        decide

/-- A program counter with a full queue keeps it. -/
theorem mem_runExternalModeling_full (hpc : pc.status = some .queueFull) :
    pc' ∈ runExternalModeling name m pc ↔ (∃ port ∈ m.ports, m.modelingNames port ≠ []) ∧ pc' = pc := by
  have hrun : ∀ port event, runToCompletion name m pc port event = [pc] := by
    intro port event
    rw [runToCompletion, hpc]
    rfl
  constructor
  · intro h
    obtain ⟨port, hport, h⟩ := List.mem_flatMap.1 h
    obtain ⟨event, hevent, h⟩ := List.mem_flatMap.1 (List.mem_filter.1 h).1
    rw [hrun] at h
    exact ⟨⟨port, hport, List.ne_nil_of_mem hevent⟩, List.mem_singleton.1 h⟩
  · rintro ⟨⟨port, hport, hne⟩, rfl⟩
    obtain ⟨event, hevent⟩ := List.exists_mem_of_ne_nil _ hne
    refine List.mem_flatMap.2 ⟨port, hport, List.mem_filter.2 ⟨List.mem_flatMap.2 ⟨event, hevent, ?_⟩, ?_⟩⟩
    · rw [hrun]
      exact List.mem_singleton.2 rfl
    · rw [hpc]
      decide

/-- Other errors are left out. -/
theorem not_mem_runExternalModeling (hpc : pc.status = some .other) :
    pc' ∉ runExternalModeling name m pc := by
  intro h
  obtain ⟨port, -, h⟩ := List.mem_flatMap.1 h
  obtain ⟨h, hstatus⟩ := List.mem_filter.1 h
  obtain ⟨event, -, h⟩ := List.mem_flatMap.1 h
  rw [runToCompletion, hpc] at h
  obtain rfl := List.mem_singleton.1 h
  rw [hpc] at hstatus
  exact absurd hstatus (by decide)

/-- A queue overflows at the next modeling event when one of its results has a status. -/
theorem Pc.overflowsAfter_zero (name : PortName Port) :
    pc.OverflowsAfter m 0 ↔ ∃ pc' ∈ runExternalModeling name m pc, pc'.status.isSome := by
  unfold Pc.OverflowsAfter
  cases hpc : pc.status with
  | none =>
    constructor
    · rintro ⟨port, t, hallows, hfits⟩
      refine ⟨pc.run name port t, (mem_runExternalModeling hpc).2 ⟨port, t, hallows, rfl⟩, ?_⟩
      obtain ⟨-, hs⟩ | ⟨hfits', -⟩ := Pc.run_spec name port t hpc
      · rw [hs]
        rfl
      · exact absurd hfits' hfits
    · rintro ⟨pc', hmem, hs⟩
      obtain ⟨port, t, hallows, rfl⟩ := (mem_runExternalModeling hpc).1 hmem
      refine ⟨port, t, hallows, ?_⟩
      obtain ⟨hfits, -⟩ | ⟨-, hnone, -⟩ := Pc.run_spec name port t hpc
      · exact hfits
      · rw [hnone] at hs
        cases hs
  | some status =>
    cases status with
    | queueFull =>
      constructor
      · rintro ⟨-, hm⟩
        refine ⟨pc, (mem_runExternalModeling_full hpc).2 ⟨hm, rfl⟩, ?_⟩
        rw [hpc]
        rfl
      · rintro ⟨pc', hmem, -⟩
        exact ⟨rfl, ((mem_runExternalModeling_full hpc).1 hmem).1⟩
    | other =>
      constructor
      · rintro ⟨⟩
      · rintro ⟨pc', hmem, -⟩
        exact not_mem_runExternalModeling hpc hmem

/-- Where no queue overflows at the next modeling event, it does so later from one of its results. -/
theorem Pc.overflowsAfter_succ (n : Nat) (h : ∀ pc' ∈ runExternalModeling name m pc, pc'.status = none) :
    pc.OverflowsAfter m (n + 1) ↔ ∃ pc' ∈ runExternalModeling name m pc, pc'.OverflowsAfter m n := by
  cases hpc : pc.status with
  | none =>
    have hafter : ∀ port t, pc.world.Allows m port t → pc.world.Fits size port t ∧
        ((pc.run name port t).OverflowsAfter m n ↔ (pc.world.after port t).OverflowsAfter m size n) := by
      intro port t hallows
      obtain ⟨-, hs⟩ | ⟨hfits, hnone, hworld⟩ := Pc.run_spec name port t hpc
      · have hnone := h _ ((mem_runExternalModeling hpc).2 ⟨port, t, hallows, rfl⟩)
        rw [hs] at hnone
        cases hnone
      · refine ⟨hfits, ?_⟩
        unfold Pc.OverflowsAfter
        rw [hnone, hworld]
    constructor
    · intro hover
      unfold Pc.OverflowsAfter at hover
      rw [hpc] at hover
      obtain ⟨port, t, hallows, -, hover⟩ := hover
      exact ⟨_, (mem_runExternalModeling hpc).2 ⟨port, t, hallows, rfl⟩, (hafter port t hallows).2.2 hover⟩
    · rintro ⟨pc', hmem, hover⟩
      obtain ⟨port, t, hallows, rfl⟩ := (mem_runExternalModeling hpc).1 hmem
      unfold Pc.OverflowsAfter
      rw [hpc]
      exact ⟨port, t, hallows, (hafter port t hallows).1, (hafter port t hallows).2.1 hover⟩
  | some status =>
    unfold Pc.OverflowsAfter
    rw [hpc]
    cases status with
    | queueFull =>
      constructor
      · rintro ⟨⟨⟩, -⟩
      · rintro ⟨pc', hmem, -⟩
        have hnone := h pc' hmem
        rw [((mem_runExternalModeling_full hpc).1 hmem).2, hpc] at hnone
        cases hnone
    | other =>
      constructor
      · rintro ⟨⟩
      · rintro ⟨pc', hmem, -⟩
        exact not_mem_runExternalModeling hpc hmem

/-! ## The loop -/

theorem overflowsAfter_zero (name : PortName Port) :
    OverflowsAfter m 0 pcs ↔ ∃ pc' ∈ runAll name m pcs, pc'.status.isSome := by
  constructor
  · rintro ⟨pc, hpc, hover⟩
    obtain ⟨pc', hmem, hs⟩ := (Pc.overflowsAfter_zero name).1 hover
    exact ⟨pc', List.mem_flatMap.2 ⟨pc, hpc, hmem⟩, hs⟩
  · rintro ⟨pc', hmem, hs⟩
    obtain ⟨pc, hpc, hmem⟩ := List.mem_flatMap.1 hmem
    exact ⟨pc, hpc, (Pc.overflowsAfter_zero name).2 ⟨pc', hmem, hs⟩⟩

theorem overflowsAfter_succ (name : PortName Port) (n : Nat) (h : ¬OverflowsAfter m 0 pcs) :
    OverflowsAfter m (n + 1) pcs ↔ OverflowsAfter m n (runAll name m pcs) := by
  have hnone : ∀ pc ∈ pcs, ∀ pc' ∈ runExternalModeling name m pc, pc'.status = none := by
    intro pc hpc pc' hmem
    by_contra hs
    have hall : pc' ∈ runAll name m pcs := List.mem_flatMap.2 ⟨pc, hpc, hmem⟩
    exact h ((overflowsAfter_zero name).2 ⟨pc', hall, Option.isSome_iff_ne_none.2 hs⟩)
  constructor
  · rintro ⟨pc, hpc, hover⟩
    obtain ⟨pc', hmem, hover⟩ := (Pc.overflowsAfter_succ n (hnone pc hpc)).1 hover
    exact ⟨pc', List.mem_flatMap.2 ⟨pc, hpc, hmem⟩, hover⟩
  · rintro ⟨pc', hmem, hover⟩
    obtain ⟨pc, hpc, hmem⟩ := List.mem_flatMap.1 hmem
    exact ⟨pc, hpc, (Pc.overflowsAfter_succ n (hnone pc hpc)).2 ⟨pc', hmem, hover⟩⟩

theorem queued_eq (name : PortName Port) (m : Ports Port State Trigger)
    (pcs : List (Pc Port State Trigger size)) : queued pcs = (pcs.map (waiting name m 0)).sum := by
  unfold queued
  rw [List.flatMap_assoc, List.length_flatMap]
  rfl

theorem sum_waiting_run (n : Nat) (pcs : List (Pc Port State Trigger size)) :
    ((runAll name m pcs).map (waiting name m n)).sum =
      (pcs.map (waiting name m (n + 1))).sum := by
  rw [runAll, List.map_flatMap, List.flatMap_def, List.sum_flatten, List.map_map]
  rfl

/-- A sequence of modeling events is the first one, and the others after it. -/
theorem waitingAfter_succ (q n : Nat) (pcs : List (Pc Port State Trigger size)) :
    waitingAfter name m q pcs (n + 1) =
      waitingAfter name m (queued (runAll name m pcs)) (runAll name m pcs) n := by
  cases n with
  | zero =>
    show (pcs.map (waiting name m 1)).sum = queued (runAll name m pcs)
    rw [queued_eq name m, sum_waiting_run]
  | succ n => exact (sum_waiting_run (n + 1) pcs).symm

theorem loop_overflow (fuel q : Nat) (h : OverflowsAfter m 0 pcs) :
    ∃ error, loop name m (fuel + 1) pcs q = some (some error) := by
  obtain ⟨pc', hmem, hs⟩ := (overflowsAfter_zero name).1 h
  cases hfind : (runAll name m pcs).find? fun pc => pc.status.isSome with
  | none => exact absurd hs (List.find?_eq_none.1 hfind pc' hmem)
  | some error =>
    refine ⟨error, ?_⟩
    rw [loop]
    simp only [hfind]

theorem loop_next (fuel q : Nat) (h : ¬OverflowsAfter m 0 pcs) : loop name m (fuel + 1) pcs q =
    if q < queued (runAll name m pcs) then
      loop name m fuel (runAll name m pcs) (queued (runAll name m pcs))
    else some none := by
  have hfind : ((runAll name m pcs).find? fun pc => pc.status.isSome) = none := by
    apply List.find?_eq_none.2
    intro pc' hmem hs
    exact h ((overflowsAfter_zero name).2 ⟨pc', hmem, hs⟩)
  rw [loop]
  simp only [hfind]

/-- The loop goes on for `n` modeling events: no queue overflows, and what waits grows. -/
def GoesOn (name : PortName Port) (m : Ports Port State Trigger) (q : Nat)
    (pcs : List (Pc Port State Trigger size)) (n : Nat) : Prop :=
  ∀ k < n, ¬OverflowsAfter m k pcs ∧ waitingAfter name m q pcs k < waitingAfter name m q pcs (k + 1)

theorem goesOn_succ (q n : Nat) : GoesOn name m q pcs (n + 1) ↔
    ¬OverflowsAfter m 0 pcs ∧ q < queued (runAll name m pcs) ∧
    GoesOn name m (queued (runAll name m pcs)) (runAll name m pcs) n := by
  constructor
  · intro h
    obtain ⟨hover, hgrows⟩ := h 0 (Nat.succ_pos n)
    refine ⟨hover, ?_, ?_⟩
    · rwa [waitingAfter_succ] at hgrows
    · intro k hk
      have hnext := h (k + 1) (Nat.succ_lt_succ hk)
      rwa [overflowsAfter_succ name k hover, waitingAfter_succ q (k + 1), waitingAfter_succ q k] at hnext
  · rintro ⟨hover, hgrows, h⟩ k hk
    cases k with
    | zero =>
      rw [waitingAfter_succ]
      exact ⟨hover, hgrows⟩
    | succ k =>
      rw [overflowsAfter_succ name k hover, waitingAfter_succ q (k + 1), waitingAfter_succ q k]
      exact h k (Nat.lt_of_succ_lt_succ hk)

/-- Where the loop returns, it went on until a queue overflows, or what waits does not grow. -/
theorem loop_sound {fuel q : Nat} {r : Option (Pc Port State Trigger size)}
    (h : loop name m fuel pcs q = some r) :
    ∃ n, GoesOn name m q pcs n ∧ ((r.isSome ∧ OverflowsAfter m n pcs) ∨
      (r = none ∧ ¬OverflowsAfter m n pcs ∧
        waitingAfter name m q pcs (n + 1) ≤ waitingAfter name m q pcs n)) := by
  induction fuel generalizing pcs q with
  | zero => cases h
  | succ fuel ih =>
    by_cases hover : OverflowsAfter m 0 pcs
    · obtain ⟨error, herror⟩ := loop_overflow fuel q hover
      rw [herror] at h
      obtain rfl := Option.some.inj h
      exact ⟨0, fun k hk => absurd hk (Nat.not_lt_zero k), .inl ⟨rfl, hover⟩⟩
    · rw [loop_next fuel q hover] at h
      split at h
      · next hgrows =>
        obtain ⟨n, hgoes, hend⟩ := ih h
        refine ⟨n + 1, (goesOn_succ q n).2 ⟨hover, hgrows, hgoes⟩, ?_⟩
        rwa [overflowsAfter_succ name n hover, waitingAfter_succ q (n + 1), waitingAfter_succ q n]
      · next hgrows =>
        obtain rfl := Option.some.inj h
        refine ⟨0, fun k hk => absurd hk (Nat.not_lt_zero k), .inr ⟨rfl, hover, ?_⟩⟩
        rw [waitingAfter_succ]
        exact Nat.not_lt.1 hgrows

/-- Where a queue overflows, or what waits does not grow, the loop returns. -/
theorem loop_returns {n q : Nat} (hgoes : GoesOn name m q pcs n)
    (hend : OverflowsAfter m n pcs ∨ waitingAfter name m q pcs (n + 1) ≤ waitingAfter name m q pcs n) :
    ∃ r, loop name m (n + 1) pcs q = some r := by
  induction n generalizing pcs q with
  | zero =>
    by_cases hover : OverflowsAfter m 0 pcs
    · obtain ⟨error, herror⟩ := loop_overflow 0 q hover
      exact ⟨some error, herror⟩
    · have hle := hend.resolve_left hover
      rw [waitingAfter_succ] at hle
      have hnot : ¬q < queued (runAll name m pcs) := Nat.not_lt.2 hle
      refine ⟨none, ?_⟩
      rw [loop_next 0 q hover, if_neg hnot]
  | succ n ih =>
    obtain ⟨hover, hgrows, hgoes⟩ := (goesOn_succ q n).1 hgoes
    rw [overflowsAfter_succ name n hover, waitingAfter_succ q (n + 1), waitingAfter_succ q n] at hend
    rw [loop_next (n + 1) q hover, if_pos hgrows]
    exact ih hgoes hend

/-- No more than one number of modeling events is the one up to the first overflow. -/
theorem FirstOverflow.unique {n n' : Nat} (h : FirstOverflow m n pcs) (h' : FirstOverflow m n' pcs) :
    n = n' := by
  rcases Nat.lt_trichotomy n n' with hlt | heq | hlt
  · exact absurd h.1 (h'.2 n hlt)
  · exact heq
  · exact absurd h'.1 (h.2 n' hlt)

theorem exists_firstOverflow (h : Overflows m pcs) : ∃ n, FirstOverflow m n pcs := by
  classical
  exact ⟨Nat.find h, Nat.find_spec h, fun _ hk => Nat.find_min h hk⟩

end

/-- The check returns, with an error exactly when a sequence of modeling events overflows a queue, if and only
if the number of events that wait grows with every modeling event up to the first overflow, and without one
does not grow for ever. -/
theorem full_check_iff {size : Nat} (name : PortName Port) (m : Ports Port State Trigger)
    (pcs : List (Pc Port State Trigger size)) :
    (∃ fuel r, checkExternalQueueFull name m fuel pcs = some r ∧ (r.isSome ↔ Overflows m pcs)) ↔
      (∀ n, FirstOverflow m n pcs →
        ∀ k < n, waitingAfter name m 0 pcs k < waitingAfter name m 0 pcs (k + 1)) ∧
      (¬Overflows m pcs → ∃ k, waitingAfter name m 0 pcs (k + 1) ≤ waitingAfter name m 0 pcs k) := by
  constructor
  · rintro ⟨fuel, r, hr, hiff⟩
    obtain ⟨n, hgoes, ⟨hsome, hover⟩ | ⟨rfl, -, hle⟩⟩ := loop_sound hr
    · have hfirst : FirstOverflow m n pcs := ⟨hover, fun k hk => (hgoes k hk).1⟩
      refine ⟨?_, fun hnot => absurd (hiff.1 hsome) hnot⟩
      intro n' hfirst' k hk
      rw [hfirst'.unique hfirst] at hk
      exact (hgoes k hk).2
    · have hnot : ¬Overflows m pcs := fun hover => absurd (hiff.2 hover) Bool.false_ne_true
      exact ⟨fun n' hfirst => absurd ⟨n', hfirst.1⟩ hnot, fun _ => ⟨n, hle⟩⟩
  · rintro ⟨hgrows, hstops⟩
    by_cases hover : Overflows m pcs
    · obtain ⟨n, hfirst⟩ := exists_firstOverflow hover
      obtain ⟨r, hr⟩ := loop_returns (fun k hk => ⟨hfirst.2 k hk, hgrows n hfirst k hk⟩) (.inl hfirst.1)
      refine ⟨n + 1, r, hr, fun _ => hover, fun _ => ?_⟩
      obtain ⟨n', hgoes, ⟨hsome, -⟩ | ⟨-, hnot, hle⟩⟩ := loop_sound hr
      · exact hsome
      -- the loop cannot end before the overflow, where what waits grows, nor go past it
      · rcases Nat.lt_trichotomy n' n with hlt | rfl | hlt
        · exact absurd (hgrows n hfirst n' hlt) (Nat.not_lt.2 hle)
        · exact absurd hfirst.1 hnot
        · exact absurd hfirst.1 (hgoes n hlt).1
    · classical
      have hnot : ∀ k, ¬OverflowsAfter m k pcs := fun k hk => hover ⟨k, hk⟩
      have hex := hstops hover
      obtain ⟨r, hr⟩ := loop_returns
        (fun k hk => ⟨hnot k, Nat.not_le.1 (Nat.find_min hex hk)⟩) (.inr (Nat.find_spec hex))
      refine ⟨_, r, hr, fun hsome => ?_, fun h => absurd h hover⟩
      obtain ⟨n', -, ⟨-, hover'⟩ | ⟨hnone, -⟩⟩ := loop_sound hr
      · exact absurd hover' (hnot n')
      · rw [hnone] at hsome
        cases hsome

/-- The port `p`: `[!s] on inevitable: s = true;` and `[s] on inevitable: a;` -/
def silentFirst : Ports String Bool String where
  ports := ["p"]
  modelingNames _ := [.inevitable]
  traces _ _ s := if s then [⟨[(true, "a")], true⟩] else [⟨[], true⟩]

/-- The port `p`: `on inevitable: {}` and `on optional: {}` -/
def alwaysSilent : Ports String Unit String where
  ports := ["p"]
  modelingNames _ := [.inevitable, .optional]
  traces _ _ _ := [⟨[], ()⟩]

/-- Nothing waits. -/
def silentFirstPc : Pc String Bool String 1 where
  state _ := false
  externalQ := []
  proper := ⟨List.nodup_nil, by simp, by simp⟩
  status := none

/-- One event waits. -/
def alwaysSilentPc : Pc String Unit String 1 where
  state _ := ()
  externalQ := [("p", ["a"])]
  proper := ⟨by simp, by simp, by simp⟩
  status := none

theorem waiting_alwaysSilent (n : Nat) :
    waiting (Function.Embedding.refl String) alwaysSilent n alwaysSilentPc = 2 ^ n := by
  have hrun : runExternalModeling (Function.Embedding.refl String) alwaysSilent alwaysSilentPc =
      [alwaysSilentPc, alwaysSilentPc] := rfl
  induction n with
  | zero => rfl
  | succ n ih =>
    rw [waiting, hrun]
    simp only [List.map_cons, List.map_nil, List.sum_cons, List.sum_nil, ih]
    omega

theorem alwaysSilent_fits (n : Nat) (w : World String Unit String) (hw : ∀ port, (w.queues port).length ≤ 1) :
    ¬w.OverflowsAfter alwaysSilent 1 n := by
  have hsilent : ∀ (w : World String Unit String) port t, w.Allows alwaysSilent port t → t = ⟨[], ()⟩ := by
    rintro w port t ⟨-, event, -, ht⟩
    exact List.mem_singleton.1 ht
  induction n generalizing w with
  | zero =>
    rintro ⟨port, t, hallows, hnot⟩
    obtain rfl := hsilent w port t hallows
    exact hnot (hw port)
  | succ n ih =>
    rintro ⟨port, t, hallows, -, hover⟩
    obtain rfl := hsilent w port t hallows
    refine ih _ ?_ hover
    intro port'
    have hqueues : (w.after port ⟨[], ()⟩).queues = w.queues := by
      show Function.update w.queues port (w.queues port ++ []) = w.queues
      rw [List.append_nil, Function.update_eq_self]
    rw [hqueues]
    exact hw port'

/-- The check stops after a silent modeling event, and does not return where the silent ones multiply. -/
theorem full_check_fails :
    (¬∃ fuel r,
      checkExternalQueueFull (Function.Embedding.refl String) silentFirst fuel [silentFirstPc] = some r ∧
      (r.isSome ↔ Overflows silentFirst [silentFirstPc])) ∧
    ∀ fuel,
      checkExternalQueueFull (Function.Embedding.refl String) alwaysSilent fuel [alwaysSilentPc] = none := by
  constructor
  · rintro ⟨fuel, r, hr, hiff⟩
    have hover : Overflows silentFirst [silentFirstPc] := by
      refine ⟨2, silentFirstPc, List.mem_singleton.2 rfl, ?_⟩
      refine ⟨"p", ⟨[], true⟩, ⟨by decide, .inevitable, by decide, .head _⟩, by decide, ?_⟩
      refine ⟨"p", ⟨[(true, "a")], true⟩, ⟨by decide, .inevitable, by decide, .head _⟩, by decide, ?_⟩
      exact ⟨"p", ⟨[(true, "a")], true⟩, ⟨by decide, .inevitable, by decide, .head _⟩, by decide⟩
    have hnone : r = none := by
      cases fuel with
      | zero => cases hr
      | succ fuel => exact (Option.some.inj hr).symm
    rw [hnone] at hiff
    exact absurd (hiff.2 hover) Bool.false_ne_true
  · intro fuel
    have hgrows : ∀ n, waitingAfter (Function.Embedding.refl String) alwaysSilent 0 [alwaysSilentPc] n <
        waitingAfter (Function.Embedding.refl String) alwaysSilent 0 [alwaysSilentPc] (n + 1) := by
      intro n
      cases n with
      | zero => decide
      | succ n =>
        have hpos := Nat.two_pow_pos (n + 1)
        simp only [waitingAfter, List.map_cons, List.map_nil, List.sum_cons, List.sum_nil,
          waiting_alwaysSilent]
        rw [Nat.pow_succ 2 (n + 1)]
        omega
    cases hr : checkExternalQueueFull (Function.Embedding.refl String) alwaysSilent fuel [alwaysSilentPc] with
    | none => rfl
    | some r =>
      obtain ⟨n, -, ⟨-, pc, hpc, hover⟩ | ⟨-, -, hle⟩⟩ := loop_sound hr
      · obtain rfl := List.mem_singleton.1 hpc
        exact absurd hover (alwaysSilent_fits n _ (length_contents_le alwaysSilentPc.proper))
      · exact absurd (hgrows n) (Nat.not_lt.2 hle)

end Dezyne.QueueFull
