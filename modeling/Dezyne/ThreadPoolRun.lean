import Dezyne.ThreadPool
/-!
# Runs of the thread pool

Who holds a mutex is known from where the threads are (`Locks`), which tasks are idle from the
calls that go to them (`Places`), and what became of the work of a call from what the tasks have
(`Jobs`). Most steps keep the last two because what these read of the calls and tasks stays the
same (`Places.congr`, `Jobs.congr`).
-/

namespace Dezyne.ThreadPool

open Interleave

/-! ## The steps as a relation -/

/-- The steps of a call. -/
inductive AsyncStep (s : Pool) (k : Nat) : Pool → Prop
  | enter : s.async k = .enter → s.mutex = none →
      AsyncStep s k ({ s with mutex := some (.caller k) }.setAsync k .locked)
  | create : s.async k = .locked → s.idleTasks = [] →
      AsyncStep s k (({ s with size := s.size + 1 }.setTask s.size Task.new).setAsync k (.assign s.size true))
  | front {t : Nat} {ts : List Nat} : s.async k = .locked → s.idleTasks = t :: ts →
      AsyncStep s k (s.setAsync k (.assign t false))
  | assign {t : Nat} {created : Bool} : s.async k = .assign t created → (s.tasks t).mutex = none →
      AsyncStep s k ((s.setTask t { s.tasks t with mutex := some (.caller k) }).setAsync k (.store t created))
  | assert {t : Nat} {created : Bool} : s.async k = .store t created → (s.tasks t).work ≠ none →
      AsyncStep s k { s with abort := some .work }
  | store {t : Nat} {created : Bool} : s.async k = .store t created → (s.tasks t).work = none →
      AsyncStep s k (({ s with future := s.abandon (s.tasks t).promise }.setTask t
        { s.tasks t with work := some k, promise := ⟨some k, false⟩ }).setAsync k (.notify t created))
  | notify {t : Nat} {created : Bool} : s.async k = .notify t created →
      AsyncStep s k ((s.setTask t { Pool.wake (s.tasks t) with mutex := none }).setAsync k (.pop t created))
  | pop {t : Nat} {created : Bool} : s.async k = .pop t created →
      AsyncStep s k ((s.popIdle created).setAsync k (.returned t))

/-- The steps of a worker. -/
inductive WorkerStep (s : Pool) (t : Nat) : Pool → Prop
  | lock : (s.tasks t).worker = .start ∨ (s.tasks t).worker = .woken → (s.tasks t).mutex = none →
      WorkerStep s t (s.setTask t { s.tasks t with mutex := some (.worker t), worker := .test })
  | take {k : Nat} : (s.tasks t).worker = .test → (s.tasks t).work = some k →
      WorkerStep s t ({ s with started := s.started ++ [k] }.setTask t
        { s.tasks t with work := none, mutex := none, worker := .run k })
  | wait : (s.tasks t).worker = .test → (s.tasks t).work = none → (s.tasks t).running = true →
      WorkerStep s t (s.setTask t { s.tasks t with mutex := none, worker := .wait })
  | leave : (s.tasks t).worker = .test ∧ (s.tasks t).work = none ∨ (s.tasks t).worker = .loop →
      (s.tasks t).running = false →
      WorkerStep s t (s.setTask t { s.tasks t with mutex := none, worker := .exit })
  | relock {k : Nat} : (s.tasks t).worker = .ran k → (s.tasks t).mutex = none →
      WorkerStep s t (s.setTask t { s.tasks t with mutex := some (.worker t), worker := .idle k })
  | idle {k : Nat} : (s.tasks t).worker = .idle k → s.mutex = none →
      WorkerStep s t ({ s with mutex := some (.worker t) }.setTask t { s.tasks t with worker := .push k })
  | push {k : Nat} : (s.tasks t).worker = .push k →
      WorkerStep s t ({ s with mutex := none, idleTasks := s.idleTasks ++ [t] }.setTask t
        { s.tasks t with worker := .setValue k })
  | setTwice {k : Nat} : (s.tasks t).worker = .setValue k → (s.tasks t).promise.satisfied = true →
      WorkerStep s t { s with abort := some .promise }
  | setValue {k j : Nat} : (s.tasks t).worker = .setValue k → (s.tasks t).promise = ⟨some j, false⟩ →
      WorkerStep s t ({ s with future := Function.update s.future j .ready }.setTask t
        { s.tasks t with promise := ⟨some j, true⟩, worker := .loop })
  | setNone {k : Nat} : (s.tasks t).worker = .setValue k → (s.tasks t).promise = ⟨none, false⟩ →
      WorkerStep s t (s.setTask t { s.tasks t with promise := ⟨none, true⟩, worker := .loop })
  | again : (s.tasks t).worker = .loop → (s.tasks t).running = true →
      WorkerStep s t (s.setTask t { s.tasks t with worker := .test })

/-- The steps of `~pool`. -/
inductive MainStep (s : Pool) : Pool → Prop
  | abort : s.destruct = .check → s.idleTasks.length ≠ s.size → MainStep s { s with abort := some .idle }
  | check : s.destruct = .check → s.idleTasks.length = s.size → MainStep s { s with destruct := .stop 0 }
  | done : s.destruct = .stop s.size → MainStep s { s with destruct := .done }
  | stop {t : Nat} : s.destruct = .stop t → t ≠ s.size → (s.tasks t).mutex = none →
      MainStep s ({ s with destruct := .stopping t }.setTask t { s.tasks t with mutex := some .main })
  | stopping {t : Nat} : s.destruct = .stopping t →
      MainStep s ({ s with destruct := .join t }.setTask t
        { Pool.wake (s.tasks t) with running := false, mutex := none })
  | join {t : Nat} : s.destruct = .join t → (s.tasks t).worker = .exit →
      MainStep s { s with future := s.abandon (s.tasks t).promise, destruct := .stop (t + 1) }

/-- What the pool is not asked to do. -/
inductive OtherStep (s : Pool) : Pool → Prop
  | call : s.destruct = .none → OtherStep s ({ s with calls := s.calls + 1 }.setAsync s.calls .enter)
  | spurious {t : Nat} : (s.tasks t).worker = .wait →
      OtherStep s (s.setTask t { s.tasks t with worker := .woken })
  | finish {t k : Nat} : (s.tasks t).worker = .run k →
      OtherStep s ({ s with ended := s.ended ++ [k] }.setTask t { s.tasks t with worker := .ran k })
  | destroy : s.destruct = .none → (∀ k < s.calls, (s.async k).isReturned = true) →
      OtherStep s { s with destruct := .check }

variable {s s' : Pool} {a : Action} {k t : Nat}

theorem AsyncStep.of_stepAsync (h : s.stepAsync k = some s') : AsyncStep s k s' := by
  unfold Pool.stepAsync at h
  cases ha : s.async k with simp only [ha, reduceCtorEq] at h
  | enter =>
    obtain ⟨hm, h⟩ := Option.ite_none_right_eq_some.mp h
    cases h
    exact .enter ha hm
  | locked =>
    split at h
    · cases h
      exact .create ha ‹_›
    · cases h
      exact .front ha ‹_›
  | assign t created =>
    obtain ⟨hm, h⟩ := Option.ite_none_right_eq_some.mp h
    cases h
    exact .assign ha hm
  | store t created =>
    cases hw : (s.tasks t).work with
    | none =>
      simp only [hw, Option.isSome_none, Bool.false_eq_true, if_false, Option.some.injEq] at h
      exact h ▸ .store ha hw
    | some j =>
      simp only [hw, Option.isSome_some, if_true, Option.some.injEq] at h
      exact h ▸ .assert ha (by simp [hw])
  | notify t created =>
    cases h
    exact .notify ha
  | pop t created =>
    cases h
    exact .pop ha

theorem WorkerStep.of_stepWorker (h : s.stepWorker t = some s') : WorkerStep s t s' := by
  simp only [Pool.stepWorker] at h
  cases hw : (s.tasks t).worker with simp only [hw, reduceCtorEq] at h
  | start =>
    obtain ⟨hm, h⟩ := Option.ite_none_right_eq_some.mp h
    cases h
    exact .lock (.inl hw) hm
  | woken =>
    obtain ⟨hm, h⟩ := Option.ite_none_right_eq_some.mp h
    cases h
    exact .lock (.inr hw) hm
  | test =>
    split at h
    · cases h
      exact .take hw ‹_›
    · split at h
      · cases h
        exact .wait hw ‹_› ‹_›
      · cases h
        exact .leave (.inl ⟨hw, ‹_›⟩) (Bool.not_eq_true _ ▸ ‹_›)
  | ran k =>
    obtain ⟨hm, h⟩ := Option.ite_none_right_eq_some.mp h
    cases h
    exact .relock hw hm
  | idle k =>
    obtain ⟨hm, h⟩ := Option.ite_none_right_eq_some.mp h
    cases h
    exact .idle hw hm
  | push k =>
    cases h
    exact .push hw
  | setValue k =>
    rcases hp : (s.tasks t).promise with ⟨_ | j, _ | _⟩ <;> simp only [hp] at h
    · cases h
      exact .setNone hw hp
    · cases h
      exact .setTwice hw (by rw [hp])
    · cases h
      exact .setValue hw hp
    · cases h
      exact .setTwice hw (by rw [hp])
  | loop =>
    split at h
    · cases h
      exact .again hw ‹_›
    · cases h
      exact .leave (.inr hw) (Bool.not_eq_true _ ▸ ‹_›)

theorem MainStep.of_stepMain (h : s.stepMain = some s') : MainStep s s' := by
  unfold Pool.stepMain at h
  split at h
  next hd =>
    split at h
    · cases h
      exact .abort hd ‹_›
    · cases h
      exact .check hd (not_not.mp ‹_›)
  next t hd =>
    split at h
    next ht =>
      cases h
      exact .done (ht ▸ hd)
    next ht =>
      obtain ⟨hm, h⟩ := Option.ite_none_right_eq_some.mp h
      cases h
      exact .stop hd ht hm
  next t hd =>
    cases h
    exact .stopping hd
  next t hd =>
    obtain ⟨hw, h⟩ := Option.ite_none_right_eq_some.mp h
    cases h
    exact .join hd hw
  next => cases h

theorem step_cases (h : step s a = some s') : s.abort = none ∧ ((∃ k, a = .async k ∧ AsyncStep s k s') ∨
    (∃ t, a = .worker t ∧ WorkerStep s t s') ∨ (a = .main ∧ MainStep s s') ∨ (¬ Own a ∧ OtherStep s s')) := by
  unfold step at h
  obtain ⟨ha, h⟩ := Option.ite_none_left_eq_some.mp h
  refine ⟨Option.not_isSome_iff_eq_none.mp ha, ?_⟩
  cases a with
  | async k => exact .inl ⟨k, rfl, .of_stepAsync h⟩
  | worker t => exact .inr (.inl ⟨t, rfl, .of_stepWorker h⟩)
  | main => exact .inr (.inr (.inl ⟨rfl, .of_stepMain h⟩))
  | call =>
    obtain ⟨hd, h⟩ := Option.ite_none_right_eq_some.mp h
    cases h
    exact .inr (.inr (.inr ⟨id, .call hd⟩))
  | spurious t =>
    obtain ⟨hw, h⟩ := Option.ite_none_right_eq_some.mp h
    cases h
    exact .inr (.inr (.inr ⟨id, .spurious hw⟩))
  | finish t =>
    refine .inr (.inr (.inr ⟨id, ?_⟩))
    simp only at h
    split at h
    · cases h
      exact .finish ‹_›
    · cases h
  | destroy =>
    obtain ⟨⟨hd, hr⟩, h⟩ := Option.ite_none_right_eq_some.mp h
    cases h
    exact .inr (.inr (.inr ⟨id, .destroy hd hr⟩))

/-! ## Who holds what -/

/-- The call holds the mutex of the pool. -/
@[grind] def Async.holdsPool : Async → Bool
  | .locked | .assign _ _ | .store _ _ | .notify _ _ | .pop _ _ => true
  | _ => false

/-- The call holds the mutex of this task. -/
@[grind] def Async.holds (a : Async) (t : Nat) : Bool :=
  match a with
  | .store u _ | .notify u _ => u = t
  | _ => false

/-- The task that the call goes to, before it has the work. -/
@[grind] def Async.target : Async → Option (Nat × Bool)
  | .assign t created | .store t created => some (t, created)
  | _ => Option.none

/-- The task that has got the call's work, while the call has not left the pool. -/
@[grind] def Async.leaves : Async → Option (Nat × Bool)
  | .notify t created | .pop t created => some (t, created)
  | _ => Option.none

/-- The task that the call is about to notify. -/
@[grind] def Async.notifies : Async → Option Nat
  | .notify t _ => some t
  | _ => Option.none

/-- The task that the call gave its work to. -/
@[grind] def Async.given : Async → Option Nat
  | .notify t _ | .pop t _ | .returned t => some t
  | _ => Option.none

@[grind] def Worker.holdsPool : Worker → Bool
  | .push _ => true
  | _ => false

@[grind] def Worker.holds : Worker → Bool
  | .test | .idle _ | .push _ | .setValue _ | .loop => true
  | _ => false

/-- The call whose work the worker has taken, until its promise is set. -/
@[grind] def Worker.job : Worker → Option Nat
  | .run k | .ran k | .idle k | .push k | .setValue k => some k
  | _ => Option.none

/-- The worker has taken nothing, or has pushed its task since. -/
@[grind] def Worker.rests : Worker → Bool
  | .start | .test | .wait | .woken | .setValue _ | .loop | .exit => true
  | _ => false

/-- The tasks that `~task` has told to stop. -/
@[grind] def Destruct.stopped (d : Destruct) (size t : Nat) : Bool :=
  match d with
  | .stop u | .stopping u => t < u
  | .join u => t ≤ u
  | .done => t < size
  | _ => false

/-- The tasks whose thread has been joined. -/
@[grind] def Destruct.joined (d : Destruct) (size t : Nat) : Bool :=
  match d with
  | .stop u | .stopping u | .join u => t < u
  | .done => t < size
  | _ => false

/-- The call whose promise the task has to set. -/
@[grind] def Task.job (task : Task) : Option Nat := task.work.or task.worker.job

attribute [grind] Pool.wake Task.new Async.isReturned

/-! ## The invariant -/

/-- A task that is not there yet. -/
@[grind] def Task.absent : Task := { Task.new with worker := .none }

/-- Who holds which mutex is known from where the threads are. -/
structure Locks (s : Pool) : Prop where
  absent : ∀ t, s.size ≤ t → s.tasks t = Task.absent
  present : ∀ t < s.size, (s.tasks t).worker ≠ .none
  bound : ∀ k t c, (s.async k).target = some (t, c) ∨ (s.async k).leaves = some (t, c) → t < s.size
  idle : ∀ t ∈ s.idleTasks, t < s.size
  stop : ∀ t, s.destruct = .stop t → t ≤ s.size
  stopping : ∀ t, s.destruct = .stopping t → t < s.size
  join : ∀ t, s.destruct = .join t → t < s.size
  calls : ∀ k, s.async k = .none ↔ s.calls ≤ k
  pool : ∀ k, s.mutex = some (.caller k) ↔ (s.async k).holdsPool
  poolWorker : ∀ t, s.mutex = some (.worker t) ↔ (s.tasks t).worker.holdsPool
  poolMain : s.mutex ≠ some .main
  task : ∀ t k, (s.tasks t).mutex = some (.caller k) ↔ (s.async k).holds t
  taskWorker : ∀ t u, (s.tasks t).mutex = some (.worker u) ↔ u = t ∧ (s.tasks t).worker.holds
  taskMain : ∀ t, (s.tasks t).mutex = some .main ↔ s.destruct = .stopping t

theorem init_locks : Locks Pool.init := by
  constructor <;>
    simp [Pool.init, Async.holdsPool, Async.holds, Async.target, Async.leaves, Worker.holdsPool, Worker.holds,
      Task.new, Task.absent]

theorem AsyncStep.locks (h : Locks s) (hs : AsyncStep s k s') : Locks s' := by
  obtain ⟨absent, present, bound, idle, stop, stopping, join, calls,
    pool, poolWorker, poolMain, task, taskWorker, taskMain⟩ := h
  cases hs with
  | enter ha hm => constructor <;> simp only [Pool.setAsync, Function.update_apply] <;> grind -ring -linarith -order
  | create ha hi =>
    constructor <;> simp only [Pool.setAsync, Pool.setTask, Function.update_apply] <;> grind -ring -linarith -order
  | front ha hi => constructor <;> simp only [Pool.setAsync, Function.update_apply] <;> grind -ring -linarith -order
  | assign ha hm =>
    have hlt := bound k _ _ (.inl (by rw [ha]; rfl))
    constructor <;> simp only [Pool.setAsync, Pool.setTask, Function.update_apply] <;> grind -ring -linarith -order
  | assert ha hw => constructor <;> assumption
  | store ha hw =>
    have hlt := bound k _ _ (.inl (by rw [ha]; rfl))
    constructor <;> simp only [Pool.setAsync, Pool.setTask, Function.update_apply] <;> grind -ring -linarith -order
  | notify ha =>
    have hlt := bound k _ _ (.inr (by rw [ha]; rfl))
    constructor <;> simp only [Pool.setAsync, Pool.setTask, Function.update_apply] <;> grind -ring -linarith -order
  | pop ha =>
    constructor <;> simp only [Pool.setAsync, Pool.popIdle, Function.update_apply] <;>
      grind -ring -linarith -order [List.mem_of_mem_tail]

/-- What is related before and after at the place that is updated is related everywhere. -/
theorem related_of_update {α : Type} {R : α → α → Prop} {f g : Nat → α} {i : Nat} {x : α} (hR : ∀ x, R x x)
    (hg : g = Function.update f i x) (h : R x (f i)) (j : Nat) : R (g j) (f j) := by
  rw [hg]
  exact (Function.forall_update_iff f fun j x => R x (f j)).mpr ⟨h, fun _ _ => hR _⟩ j

/-- What holds of the tasks before holds after one of them is set, if it holds of that one. -/
theorem forall_setTask {p : Nat → Task → Prop} {task : Task} (ht : p t task) (h : ∀ u, p u (s.tasks u)) (u : Nat) :
    p u ((s.setTask t task).tasks u) :=
  (Function.forall_update_iff s.tasks p).mpr ⟨ht, fun u _ => h u⟩ u

/-- A task is only there with its worker. -/
theorem Locks.lt_of_worker (h : Locks s) (hw : (s.tasks t).worker ≠ .none) : t < s.size := by
  by_contra hge
  exact hw (by rw [h.absent t (Nat.le_of_not_lt hge)]; rfl)

/-- A task may lock and unlock its mutex for its worker, if no one else has it. -/
theorem Locks.setTask (h : Locks s) {task : Task} (hold : (s.tasks t).worker ≠ .none) (hnew : task.worker ≠ .none)
    (hpool : task.worker.holdsPool = (s.tasks t).worker.holdsPool)
    (hcaller : ∀ k, task.mutex = some (.caller k) ↔ (s.tasks t).mutex = some (.caller k))
    (hworker : ∀ u, task.mutex = some (.worker u) ↔ t = u ∧ task.worker.holds)
    (hmain : task.mutex = some .main ↔ (s.tasks t).mutex = some .main) : Locks (s.setTask t task) where
  absent u hu := by
    have hne : u ≠ t := Nat.ne_of_gt (Nat.lt_of_lt_of_le (h.lt_of_worker hold) hu)
    simpa only [Pool.setTask, Function.update_of_ne hne] using h.absent u hu
  present := forall_setTask (p := fun u task => u < s.size → task.worker ≠ .none) (fun _ => hnew) h.present
  bound := h.bound
  idle := h.idle
  stop := h.stop
  stopping := h.stopping
  join := h.join
  calls := h.calls
  pool := h.pool
  poolWorker := forall_setTask (p := fun u task => s.mutex = some (.worker u) ↔ task.worker.holdsPool)
    (hpool ▸ h.poolWorker t) h.poolWorker
  poolMain := h.poolMain
  task := forall_setTask (p := fun u task => ∀ k, task.mutex = some (.caller k) ↔ (s.async k).holds u)
    (fun k => (hcaller k).trans (h.task t k)) h.task
  taskWorker := forall_setTask (p := fun u task => ∀ v, task.mutex = some (.worker v) ↔ v = u ∧ task.worker.holds)
    (fun u => by rw [hworker, eq_comm]) h.taskWorker
  taskMain := forall_setTask (p := fun u task => task.mutex = some .main ↔ s.destruct = .stopping u)
    (hmain.trans (h.taskMain t)) h.taskMain

/-- A worker has the mutex of its task when it is where it holds it. -/
theorem Locks.mutex_of_holds (h : Locks s) (hw : (s.tasks t).worker.holds = true) :
    (s.tasks t).mutex = some (.worker t) :=
  (h.taskWorker t t).mpr ⟨rfl, hw⟩

/-- The mutexes do not know what becomes of the work. -/
theorem Locks.frame (h : Locks s) (future : Nat → Future) (abort : Option Abort) (started ended : List Nat) :
    Locks { s with future := future, abort := abort, started := started, ended := ended } := by
  obtain ⟨absent, present, bound, idle, stop, stopping, join, calls,
    pool, poolWorker, poolMain, task, taskWorker, taskMain⟩ := h
  constructor <;> assumption

theorem WorkerStep.locks (h : Locks s) (hs : WorkerStep s t s') : Locks s' := by
  have hmutex := h.mutex_of_holds (t := t)
  cases hs with
  | lock hw hm => apply h.setTask <;> rcases hw with hw | hw <;> simp [hw, hm, Worker.holdsPool, Worker.holds]
  | take hw hk =>
    have hm := hmutex (by rw [hw]; rfl)
    apply (h.frame s.future s.abort _ s.ended).setTask <;> simp [hw, hm, Worker.holdsPool, Worker.holds]
  | wait hw hk hr =>
    have hm := hmutex (by rw [hw]; rfl)
    apply h.setTask <;> simp [hw, hm, Worker.holdsPool, Worker.holds]
  | leave hw hr =>
    rcases hw with ⟨hw, -⟩ | hw
    all_goals
      have hm := hmutex (by rw [hw]; rfl)
      apply h.setTask <;> simp [hw, hm, Worker.holdsPool, Worker.holds]
  | relock hw hm => apply h.setTask <;> simp [hw, hm, Worker.holdsPool, Worker.holds]
  | idle hw hm =>
    obtain ⟨absent, present, bound, idle, stop, stopping, join, calls,
      pool, poolWorker, poolMain, task, taskWorker, taskMain⟩ := h
    constructor <;> simp only [Pool.setTask, Function.update_apply] <;> grind -ring -linarith -order
  | push hw =>
    obtain ⟨absent, present, bound, idle, stop, stopping, join, calls,
      pool, poolWorker, poolMain, task, taskWorker, taskMain⟩ := h
    constructor <;> simp only [Pool.setTask, Function.update_apply] <;> grind -ring -linarith -order
  | setTwice hw hp => exact h.frame s.future _ s.started s.ended
  | setValue hw hp =>
    have hm := hmutex (by rw [hw]; rfl)
    apply (h.frame _ s.abort s.started s.ended).setTask <;> simp [hw, hm, Worker.holdsPool, Worker.holds]
  | setNone hw hp =>
    have hm := hmutex (by rw [hw]; rfl)
    apply h.setTask <;> simp [hw, hm, Worker.holdsPool, Worker.holds]
  | again hw hr =>
    have hm := hmutex (by rw [hw]; rfl)
    apply h.setTask <;> simp [hw, hm, Worker.holdsPool, Worker.holds]

/-- `~pool` goes on without a mutex. -/
theorem Locks.setDestruct (h : Locks s) {d : Destruct} (hstop : ∀ t, d = .stop t → t ≤ s.size)
    (hjoin : ∀ t, d = .join t → t < s.size) (hstopping : ∀ t, d = .stopping t ↔ s.destruct = .stopping t) :
    Locks { s with destruct := d } where
  absent := h.absent
  present := h.present
  bound := h.bound
  idle := h.idle
  stop := hstop
  stopping t ht := h.stopping t ((hstopping t).mp ht)
  join := hjoin
  calls := h.calls
  pool := h.pool
  poolWorker := h.poolWorker
  poolMain := h.poolMain
  task := h.task
  taskWorker := h.taskWorker
  taskMain t := (h.taskMain t).trans (hstopping t).symm

theorem MainStep.locks (h : Locks s) (hs : MainStep s s') : Locks s' := by
  cases hs with
  | abort hd hne => exact h.frame s.future _ s.started s.ended
  | check hd heq => apply h.setDestruct <;> simp [hd]
  | done hd => apply h.setDestruct <;> simp [hd]
  | @join t hd hw =>
    have hlt := h.join t hd
    apply (h.frame (s.abandon (s.tasks t).promise) s.abort s.started s.ended).setDestruct <;>
      simp [hd, Nat.succ_le_of_lt hlt]
  | stop hd ht hm | stopping hd =>
    obtain ⟨absent, present, bound, idle, stop, stopping, join, calls,
      pool, poolWorker, poolMain, task, taskWorker, taskMain⟩ := h
    constructor <;> simp only [Pool.setTask, Function.update_apply] <;> grind -ring -linarith -order

theorem OtherStep.locks (h : Locks s) (hs : OtherStep s s') : Locks s' := by
  cases hs with
  | call hd =>
    obtain ⟨absent, present, bound, idle, stop, stopping, join, calls,
      pool, poolWorker, poolMain, task, taskWorker, taskMain⟩ := h
    constructor <;> simp only [Pool.setAsync, Function.update_apply] <;> grind -ring -linarith -order
  | @spurious t hw =>
    have hworker := h.taskWorker t
    apply h.setTask <;> simp [hw, hworker, Worker.holdsPool, Worker.holds]
  | @finish t k hw =>
    have hworker := h.taskWorker t
    apply (h.frame s.future s.abort s.started _).setTask <;> simp [hw, hworker, Worker.holdsPool, Worker.holds]
  | destroy hd hr => apply h.setDestruct <;> simp [hd]

theorem locks_of_step (h : Locks s) (hs : step s a = some s') : Locks s' := by
  obtain ⟨-, ⟨k, -, hs⟩ | ⟨t, -, hs⟩ | ⟨-, hs⟩ | ⟨-, hs⟩⟩ := step_cases hs
  · exact hs.locks h
  · exact hs.locks h
  · exact hs.locks h
  · exact hs.locks h

theorem Async.outside {a : Async} (h : a.holdsPool = false) :
    a.target = Option.none ∧ a.leaves = Option.none := by
  cases a <;> simp_all [Async.holdsPool, Async.target, Async.leaves]

/-- No call is in the pool when its mutex is not a call's. -/
theorem Locks.outside (h : Locks s) (hm : ∀ k, s.mutex ≠ some (.caller k)) (k : Nat) :
    (s.async k).target = none ∧ (s.async k).leaves = none :=
  Async.outside (Bool.not_eq_true _ ▸ mt (h.pool k).mpr (hm k))

theorem Worker.unlocked {w : Worker} (hr : w.rests = true) (hh : w.holds = false) (he : w ≠ .exit) :
    w = .start ∨ w = .wait ∨ w = .woken := by
  cases w <;> simp_all [Worker.rests, Worker.holds]

/-- Only one call is between `lock` and the end of `async`. -/
theorem Locks.others (h : Locks s) (hk : (s.async k).holdsPool = true) :
    ∀ j, j ≠ k → (s.async j).target = none ∧ (s.async j).leaves = none := by
  intro j hj
  have hk := (h.pool k).mpr hk
  have hnot : ¬ (s.async j).holdsPool = true := by
    intro hp
    have hp := (h.pool j).mpr hp
    rw [hk] at hp
    cases hp
    exact hj rfl
  exact Async.outside (Bool.not_eq_true _ ▸ hnot)

/-- The worker of a task does not hold its mutex while a call does. -/
theorem Locks.worker_free (h : Locks s) (hk : (s.async k).holds t = true) : (s.tasks t).worker.holds = false := by
  have hk := (h.task t k).mpr hk
  have hw := (h.taskWorker t t).mpr.mt
  simpa [hk] using hw

/-- What `~pool` has done. -/
structure Stops (s : Pool) : Prop where
  returned : s.destruct ≠ .none → ∀ k, s.async k = .none ∨ (s.async k).isReturned
  running : ∀ t, (s.tasks t).running = false ↔ s.destruct.stopped s.size t
  exit : ∀ t, (s.tasks t).worker = .exit → (s.tasks t).running = false
  wait : ∀ t, (s.tasks t).worker = .wait → (s.tasks t).running = true
  joined : ∀ t, s.destruct.joined s.size t → (s.tasks t).worker = .exit

theorem init_stops : Stops Pool.init := by
  constructor <;> simp [Pool.init, Destruct.stopped, Destruct.joined, Task.new]

theorem AsyncStep.stops (hl : Locks s) (h : Stops s) (hs : AsyncStep s k s') : Stops s' := by
  obtain ⟨returned, running, exit, wait, joined⟩ := h
  have hnone : s.destruct = .none := by
    by_contra hne
    have hk := returned hne k
    cases hs <;> simp_all [Async.isReturned]
  have habsent := hl.absent
  cases hs <;> constructor
  all_goals simp only [Pool.setTask, Pool.setAsync, Pool.popIdle, Function.update_apply]
  all_goals grind -ring -linarith -order

theorem WorkerStep.stops (hl : Locks s) (h : Stops s) (hs : WorkerStep s t s') : Stops s' := by
  obtain ⟨returned, running, exit, wait, joined⟩ := h
  have habsent := hl.absent
  cases hs <;> constructor
  all_goals simp only [Pool.setTask, Function.update_apply]
  all_goals grind -ring -linarith -order

theorem MainStep.stops (hl : Locks s) (h : Stops s) (hs : MainStep s s') : Stops s' := by
  obtain ⟨returned, running, exit, wait, joined⟩ := h
  have habsent := hl.absent
  cases hs <;> constructor
  all_goals simp only [Pool.setTask, Function.update_apply]
  all_goals grind -ring -linarith -order

theorem OtherStep.stops (hl : Locks s) (h : Stops s) (hs : OtherStep s s') : Stops s' := by
  obtain ⟨returned, running, exit, wait, joined⟩ := h
  have hcalls := hl.calls
  cases hs <;> constructor
  all_goals simp only [Pool.setTask, Pool.setAsync, Function.update_apply]
  all_goals grind -ring -linarith -order

/-- While a call is in the pool, no task has been told to stop. -/
theorem Stops.running_of_inside (h : Stops s) (hk : (s.async k).holdsPool = true) : (s.tasks t).running = true := by
  by_contra hr
  have hd : s.destruct ≠ .none := by
    intro hd
    have := (h.running t).mp (Bool.not_eq_true _ ▸ hr)
    simp [hd, Destruct.stopped] at this
  have := h.returned hd k
  cases ha : s.async k <;> simp_all [Async.holdsPool, Async.isReturned]

/-- Where the tasks are: idle, about to get work, or with work. -/
structure Places (s : Pool) : Prop where
  nodup : s.idleTasks.Nodup
  target : ∀ k t c, (s.async k).target = some (t, c) →
    (s.tasks t).work = none ∧ (s.tasks t).worker.rests ∧ if c then t ∉ s.idleTasks else s.idleTasks.head? = some t
  leaves : ∀ k t c, (s.async k).leaves = some (t, c) →
    ((s.tasks t).work = none → (s.tasks t).worker.rests = false) ∧ if c then t ∉ s.idleTasks else s.idleTasks.head? = some t
  work : ∀ t k, (s.tasks t).work = some k → (s.tasks t).worker = .start ∨ (s.tasks t).worker = .test ∨
    (s.tasks t).worker = .woken ∨ (s.tasks t).worker = .wait ∧ (s.async k).notifies = some t
  idle : ∀ t ∈ s.idleTasks, (s.tasks t).work = none ∧ (s.tasks t).worker.rests ∨
    ∃ k, (s.async k).leaves = some (t, false)
  busy : ∀ t < s.size, t ∉ s.idleTasks → (s.tasks t).work = none → (s.tasks t).worker.rests →
    ∃ k, (s.async k).target = some (t, true)

/-- A worker that has taken work has no other. -/
theorem Places.work_eq_none (h : Places s) (hw : (s.tasks t).worker.job ≠ none) : (s.tasks t).work = none := by
  by_contra hne
  obtain ⟨k, hk⟩ := Option.ne_none_iff_exists'.mp hne
  rcases h.work t k hk with h | h | h | ⟨h, -⟩ <;> simp [h, Worker.job] at hw

/-- A worker that goes round its loop has let no work lie. -/
theorem Places.work_of_loop (h : Places s) (hw : (s.tasks t).worker = .loop) : (s.tasks t).work = none := by
  by_contra hne
  obtain ⟨k, hk⟩ := Option.ne_none_iff_exists'.mp hne
  rcases h.work t k hk with h | h | h | ⟨h, -⟩ <;> simp [hw] at h

theorem Places.job_of_exit (h : Places s) (hw : (s.tasks t).worker = .exit) : (s.tasks t).job = none := by
  rcases hk : (s.tasks t).work with _ | k
  · simp [Task.job, hk, hw, Worker.job]
  · rcases h.work t k hk with h | h | h | ⟨h, -⟩ <;> simp [hw] at h

theorem init_places : Places Pool.init := by
  constructor <;> simp [Pool.init, Async.target, Async.leaves, Task.new]

/-- A task stays where it is: a worker that is to get work gets to it as before. -/
structure Task.SamePlace (task other : Task) : Prop where
  work : task.work = other.work
  rests : task.worker.rests = other.worker.rests
  ready : other.work ≠ none →
    task.worker = other.worker ∨ task.worker = .start ∨ task.worker = .test ∨ task.worker = .woken

theorem Task.SamePlace.refl (task : Task) : task.SamePlace task := ⟨rfl, rfl, fun _ => .inl rfl⟩

theorem Task.SamePlace.of_no_work {task other : Task} (hwork : task.work = other.work)
    (hrests : task.worker.rests = other.worker.rests) (hnone : other.work = none) : task.SamePlace other :=
  ⟨hwork, hrests, fun hne => absurd hnone hne⟩

theorem wake_samePlace (task : Task) : (Pool.wake task).SamePlace task := by
  unfold Pool.wake
  split
  · rename_i hw
    exact ⟨rfl, by rw [hw]; rfl, fun _ => .inr (.inr (.inr rfl))⟩
  · exact .refl task

theorem samePlace_of_update {task : Task} (hs : s'.tasks = Function.update s.tasks t task)
    (h : task.SamePlace (s.tasks t)) : ∀ u, (s'.tasks u).SamePlace (s.tasks u) :=
  related_of_update Task.SamePlace.refl hs h

/-- A call is on its way to the same task, or on its way back from it. -/
structure Async.SamePlace (a b : Async) : Prop where
  target : a.target = b.target
  leaves : a.leaves = b.leaves
  notifies : a.notifies = b.notifies

theorem Async.SamePlace.refl (a : Async) : a.SamePlace a := ⟨rfl, rfl, rfl⟩

/-- Of the calls and tasks only this matters for where the tasks are. -/
theorem Places.congr (h : Places s) (hidle : s'.idleTasks = s.idleTasks) (hsize : s'.size = s.size)
    (hasync : ∀ k, (s'.async k).SamePlace (s.async k)) (htask : ∀ t, (s'.tasks t).SamePlace (s.tasks t)) :
    Places s' := by
  have htarget := fun k => (hasync k).target
  have hleaves := fun k => (hasync k).leaves
  have hnotifies := fun k => (hasync k).notifies
  have hwork := fun t => (htask t).work
  have hrests := fun t => (htask t).rests
  obtain ⟨nodup, target, leaves, work, idle, busy⟩ := h
  constructor <;> simp only [hidle, hsize, htarget, hleaves, hnotifies, hwork, hrests]
  case work =>
    intro t k hk
    rcases (htask t).ready (by simp [hk]) with hsame | hready | hready | hready
    · rw [hsame]
      exact work t k hk
    · exact .inl hready
    · exact .inr (.inl hready)
    · exact .inr (.inr (.inl hready))
  all_goals assumption

theorem AsyncStep.places (hl : Locks s) (hd : Stops s) (h : Places s) (hs : AsyncStep s k s') : Places s' := by
  cases hs with
  | enter ha hm =>
    exact h.congr rfl rfl (related_of_update Async.SamePlace.refl rfl (by rw [ha]; exact ⟨rfl, rfl, rfl⟩))
      fun _ => .refl _
  | create ha hi =>
    have hothers := hl.others (by rw [ha]; rfl)
    have habsent := hl.absent
    obtain ⟨nodup, target, leaves, work, idle, busy⟩ := h
    constructor <;> simp only [Pool.setAsync, Pool.setTask, Function.update_apply] <;> grind -ring -linarith -order
  | front ha hi =>
    have hothers := hl.others (by rw [ha]; rfl)
    obtain ⟨nodup, target, leaves, work, idle, busy⟩ := h
    constructor <;> simp only [Pool.setAsync, Function.update_apply] <;> grind -ring -linarith -order
  | assign ha hm =>
    exact h.congr rfl rfl (related_of_update Async.SamePlace.refl rfl (by rw [ha]; exact ⟨rfl, rfl, rfl⟩))
      (samePlace_of_update rfl ⟨rfl, rfl, fun _ => .inl rfl⟩)
  | assert ha hw => exact h.congr rfl rfl (fun _ => .refl _) fun _ => .refl _
  | @store t c ha hw =>
    have hothers := hl.others (by rw [ha]; rfl)
    have hk := h.target k _ _ (by rw [ha]; rfl)
    have hrun := hd.running_of_inside (k := k) (t := t) (by rw [ha]; rfl)
    have hfree := Worker.unlocked hk.2.1 (hl.worker_free (t := t) (k := k) (by simp [ha, Async.holds]))
      fun he => by simp [hd.exit t he] at hrun
    obtain ⟨nodup, target, leaves, work, idle, busy⟩ := h
    constructor <;> simp only [Pool.setAsync, Pool.setTask, Function.update_apply] <;> grind -ring -linarith -order
  | @notify t c ha =>
    have hothers := hl.others (by rw [ha]; rfl)
    have hk := h.leaves k _ _ (by rw [ha]; rfl)
    have hfree := hl.worker_free (t := t) (k := k) (by simp [ha, Async.holds])
    obtain ⟨nodup, target, leaves, work, idle, busy⟩ := h
    constructor <;> simp only [Pool.setAsync, Pool.setTask, Function.update_apply] <;> grind -ring -linarith -order
  | @pop t created ha =>
    have hothers := hl.others (by rw [ha]; rfl)
    have hk := h.leaves k _ _ (by rw [ha]; rfl)
    obtain ⟨nodup, target, leaves, work, idle, busy⟩ := h
    cases created with
    | true =>
      constructor <;> simp only [Pool.setAsync, Pool.popIdle, Function.update_apply] <;> grind -ring -linarith -order
    | false =>
      obtain ⟨ts, hts⟩ := List.head?_eq_some_iff.mp hk.2
      have hwork := work t
      rw [hts] at nodup idle busy
      constructor <;> simp only [Pool.setAsync, Pool.popIdle, Function.update_apply, hts] <;>
        grind -ring -linarith -order

theorem WorkerStep.places (hl : Locks s) (h : Places s) (hs : WorkerStep s t s') : Places s' := by
  have hbusy := h.work_eq_none (t := t)
  cases hs with
  | lock hw hm =>
    refine h.congr rfl rfl (fun _ => .refl _) (samePlace_of_update rfl ⟨rfl, ?_, fun _ => .inr (.inr (.inl rfl))⟩)
    rcases hw with hw | hw <;> rw [hw] <;> rfl
  | take hw hk =>
    obtain ⟨nodup, target, leaves, work, idle, busy⟩ := h
    constructor <;> simp only [Pool.setTask, Function.update_apply] <;> grind -ring -linarith -order
  | wait hw hk hr =>
    exact h.congr rfl rfl (fun _ => .refl _) (samePlace_of_update rfl (.of_no_work rfl (by rw [hw]; rfl) hk))
  | leave hw hr =>
    refine h.congr rfl rfl (fun _ => .refl _) (samePlace_of_update rfl ?_)
    rcases hw with ⟨hw, hk⟩ | hw
    · exact Task.SamePlace.of_no_work rfl (by rw [hw]; rfl) hk
    · exact Task.SamePlace.of_no_work rfl (by rw [hw]; rfl) (h.work_of_loop hw)
  | relock hw hm =>
    have hk := hbusy (by rw [hw]; simp [Worker.job])
    exact h.congr rfl rfl (fun _ => .refl _) (samePlace_of_update rfl (.of_no_work rfl (by rw [hw]; rfl) hk))
  | idle hw hm =>
    have hk := hbusy (by rw [hw]; simp [Worker.job])
    exact h.congr rfl rfl (fun _ => .refl _) (samePlace_of_update rfl (.of_no_work rfl (by rw [hw]; rfl) hk))
  | push hw =>
    have hout := hl.outside (by simp [(hl.poolWorker t).mpr (by rw [hw]; rfl)])
    have hnot : t ∉ s.idleTasks := by
      intro ht
      rcases h.idle t ht with ⟨-, hr⟩ | ⟨k, hk⟩
      · simp [hw, Worker.rests] at hr
      · simp [hout k] at hk
    have hwork := hbusy (by simp [hw, Worker.job])
    obtain ⟨nodup, target, leaves, work, idle, busy⟩ := h
    constructor <;> simp only [Pool.setTask, Function.update_apply] <;> grind -ring -linarith -order [List.nodup_append]
  | setTwice hw hp => exact h.congr rfl rfl (fun _ => .refl _) fun _ => .refl _
  | setValue hw hp =>
    have hk := hbusy (by rw [hw]; simp [Worker.job])
    exact h.congr rfl rfl (fun _ => .refl _) (samePlace_of_update rfl (.of_no_work rfl (by rw [hw]; rfl) hk))
  | setNone hw hp =>
    have hk := hbusy (by rw [hw]; simp [Worker.job])
    exact h.congr rfl rfl (fun _ => .refl _) (samePlace_of_update rfl (.of_no_work rfl (by rw [hw]; rfl) hk))
  | again hw hr =>
    exact h.congr rfl rfl (fun _ => .refl _)
      (samePlace_of_update rfl ⟨rfl, by rw [hw]; rfl, fun _ => .inr (.inr (.inl rfl))⟩)

theorem MainStep.places (h : Places s) (hs : MainStep s s') : Places s' := by
  cases hs with
  | abort hd hne => exact h.congr rfl rfl (fun _ => .refl _) fun _ => .refl _
  | check hd heq => exact h.congr rfl rfl (fun _ => .refl _) fun _ => .refl _
  | done hd => exact h.congr rfl rfl (fun _ => .refl _) fun _ => .refl _
  | stop hd ht hm =>
    exact h.congr rfl rfl (fun _ => .refl _) (samePlace_of_update rfl ⟨rfl, rfl, fun _ => .inl rfl⟩)
  | @stopping t hd =>
    have hwake := wake_samePlace (s.tasks t)
    exact h.congr rfl rfl (fun _ => .refl _) (samePlace_of_update rfl ⟨hwake.work, hwake.rests, hwake.ready⟩)
  | join hd hw => exact h.congr rfl rfl (fun _ => .refl _) fun _ => .refl _

theorem OtherStep.places (hl : Locks s) (h : Places s) (hs : OtherStep s s') : Places s' := by
  cases hs with
  | call hd =>
    have hnone : s.async s.calls = .none := (hl.calls s.calls).mpr (Nat.le_refl _)
    exact h.congr rfl rfl (related_of_update Async.SamePlace.refl rfl (by rw [hnone]; exact ⟨rfl, rfl, rfl⟩))
      fun _ => .refl _
  | spurious hw =>
    exact h.congr rfl rfl (fun _ => .refl _)
      (samePlace_of_update rfl ⟨rfl, by rw [hw]; rfl, fun _ => .inr (.inr (.inr rfl))⟩)
  | @finish t k hw =>
    have hk := h.work_eq_none (t := t) (by rw [hw]; simp [Worker.job])
    exact h.congr rfl rfl (fun _ => .refl _) (samePlace_of_update rfl (.of_no_work rfl (by rw [hw]; rfl) hk))
  | destroy hd hr => exact h.congr rfl rfl (fun _ => .refl _) fun _ => .refl _

/-- What becomes of the work of the calls. -/
structure Jobs (s : Pool) : Prop where
  given : ∀ t k, (s.tasks t).job = some k →
    (s.async k).given = some t ∧ s.future k = .pending ∧ (s.tasks t).promise = ⟨some k, false⟩
  spare : ∀ t, (s.tasks t).job = none → (s.tasks t).promise.satisfied = true ∨ (s.tasks t).promise.call = none
  pending : ∀ k, (s.async k).given = none → s.future k = .pending ∧ k ∉ s.started
  done : ∀ k t, (s.async k).given = some t → s.future k = .ready ∨ (s.tasks t).job = some k
  broken : ∀ k, s.future k ≠ .broken
  ready : ∀ k, s.future k = .ready → k ∈ s.ended
  work : ∀ t k, (s.tasks t).work = some k → k ∉ s.started
  taken : ∀ t k, (s.tasks t).worker.job = some k → k ∈ s.started
  run : ∀ t k, (s.tasks t).worker = .run k → k ∉ s.ended
  ran : ∀ t k, (s.tasks t).worker.job = some k → (s.tasks t).worker = .run k ∨ k ∈ s.ended
  started : s.started.Nodup
  ended : s.ended.Nodup
  order : ∀ k ∈ s.ended, k ∈ s.started
  abort : s.abort = none ∨ s.abort = some .idle

theorem Jobs.abandon_eq (h : Jobs s) (ht : (s.tasks t).job = none) : s.abandon (s.tasks t).promise = s.future := by
  rcases h.spare t ht with hp | hp <;> simp [Pool.abandon, hp]

theorem Places.job_of_worker (h : Places s) (hk : (s.tasks t).worker.job = some k) : (s.tasks t).job = some k := by
  rw [Task.job, h.work_eq_none (by simp [hk]), Option.none_or, hk]

/-- No two workers have the work of one call. -/
theorem Jobs.worker_unique {u : Nat} (hp : Places s) (h : Jobs s) (ht : (s.tasks t).worker.job = some k)
    (hu : (s.tasks u).worker.job = some k) : u = t := by
  have ht := (h.given t k (hp.job_of_worker ht)).1
  have hu := (h.given u k (hp.job_of_worker hu)).1
  simpa [ht] using hu.symm

theorem init_jobs : Jobs Pool.init := by
  constructor <;> simp [Pool.init, Task.job, Worker.job, Async.given, Task.new]

/-- The task that gets work has not got any. -/
theorem Places.target_job (h : Places s) {c : Bool} (hk : (s.async k).target = some (t, c)) :
    (s.tasks t).job = none ∨ ∃ j, (s.tasks t).worker = .setValue j := by
  obtain ⟨hw, hr, -⟩ := h.target k t c hk
  cases hworker : (s.tasks t).worker <;> simp_all [Task.job, Worker.job, Worker.rests]

/-- Two tasks have the same work, before and after the worker takes it. -/
structure Task.SameJob (task other : Task) : Prop where
  work : task.work = other.work
  promise : task.promise = other.promise
  job : task.worker.job = other.worker.job
  run : ∀ k, task.worker = .run k ↔ other.worker = .run k

theorem Task.SameJob.refl (task : Task) : task.SameJob task := ⟨rfl, rfl, rfl, fun _ => .rfl⟩

theorem wake_sameJob (task : Task) : (Pool.wake task).SameJob task := by
  unfold Pool.wake
  split
  · rename_i hw
    exact ⟨rfl, rfl, by rw [hw]; rfl, fun k => by simp [hw]⟩
  · exact .refl task

theorem sameJob_of_update {task : Task} (hs : s'.tasks = Function.update s.tasks t task)
    (h : task.SameJob (s.tasks t)) : ∀ u, (s'.tasks u).SameJob (s.tasks u) :=
  related_of_update Task.SameJob.refl hs h

theorem given_of_update {a : Async} (hs : s'.async = Function.update s.async k a) (h : a.given = (s.async k).given) :
    ∀ j, (s'.async j).given = (s.async j).given :=
  related_of_update (R := fun a b => a.given = b.given) (fun _ => rfl) hs h

/-- Of the calls and tasks only this matters for what becomes of the work. -/
theorem Jobs.congr (h : Jobs s) (hfuture : s'.future = s.future) (habort : s'.abort = s.abort)
    (hstarted : s'.started = s.started) (hended : s'.ended = s.ended)
    (hgiven : ∀ k, (s'.async k).given = (s.async k).given) (htask : ∀ t, (s'.tasks t).SameJob (s.tasks t)) :
    Jobs s' := by
  have hwork := fun t => (htask t).work
  have hpromise := fun t => (htask t).promise
  have hworker := fun t => (htask t).job
  have hrun := fun t => (htask t).run
  have hjob : ∀ t, (s'.tasks t).job = (s.tasks t).job := fun t => by rw [Task.job, Task.job, hwork, hworker]
  obtain ⟨given, spare, pending, done, broken, ready, work, taken, run, ran, started, ended, order, abort⟩ := h
  constructor <;> simp only [hfuture, habort, hstarted, hended, hgiven, hwork, hpromise, hworker, hrun, hjob]
    <;> assumption

theorem AsyncStep.jobs (hl : Locks s) (hp : Places s) (h : Jobs s) (hs : AsyncStep s k s') : Jobs s' := by
  cases hs with
  | enter ha hm => exact h.congr rfl rfl rfl rfl (given_of_update rfl (by rw [ha]; rfl)) fun _ => .refl _
  | create ha hi =>
    have habsent := hl.absent s.size (Nat.le_refl _)
    have hnew : Task.new.SameJob (s.tasks s.size) := by
      rw [habsent]
      exact ⟨rfl, rfl, rfl, fun k => by simp [Task.new, Task.absent]⟩
    exact h.congr rfl rfl rfl rfl (given_of_update rfl (by rw [ha]; rfl)) (sameJob_of_update rfl hnew)
  | front ha hi => exact h.congr rfl rfl rfl rfl (given_of_update rfl (by rw [ha]; rfl)) fun _ => .refl _
  | assign ha hm =>
    exact h.congr rfl rfl rfl rfl (given_of_update rfl (by rw [ha]; rfl))
      (sameJob_of_update rfl ⟨rfl, rfl, rfl, fun _ => .rfl⟩)
  | assert ha hw =>
    have hk := hp.target k _ _ (by rw [ha]; rfl)
    exact absurd hk.1 hw
  | @store t c ha hw =>
    have hk := hp.target_job (k := k) (t := t) (by rw [ha]; rfl)
    have hfree := hl.worker_free (t := t) (k := k) (by simp [ha, Async.holds])
    have hjob : (s.tasks t).job = none := by
      rcases hk with hk | ⟨j, hj⟩
      · exact hk
      · simp [hj, Worker.holds] at hfree
    have hfuture := h.abandon_eq hjob
    obtain ⟨given, spare, pending, done, broken, ready, work, taken, run, ran, started, ended, order, abort⟩ := h
    constructor <;> simp only [Pool.setAsync, Pool.setTask, Function.update_apply, hfuture] <;>
      grind -ring -linarith -order
  | @notify t c ha =>
    have hwake := wake_sameJob (s.tasks t)
    exact h.congr rfl rfl rfl rfl (given_of_update rfl (by rw [ha]; rfl))
      (sameJob_of_update rfl ⟨hwake.work, hwake.promise, hwake.job, hwake.run⟩)
  | pop ha => exact h.congr rfl rfl rfl rfl (given_of_update rfl (by rw [ha]; rfl)) fun _ => .refl _

theorem WorkerStep.jobs (hp : Places s) (h : Jobs s) (hs : WorkerStep s t s') : Jobs s' := by
  have hbusy := hp.work_eq_none (t := t)
  have hkeep : ∀ {task : Task}, task.SameJob (s.tasks t) → Jobs (s.setTask t task) := fun ht =>
    h.congr rfl rfl rfl rfl (fun _ => rfl) (sameJob_of_update rfl ht)
  cases hs with
  | lock hw hm =>
    apply hkeep
    rcases hw with hw | hw <;> exact ⟨rfl, rfl, by rw [hw]; rfl, fun k => by simp [hw]⟩
  | take hw hk =>
    obtain ⟨given, spare, pending, done, broken, ready, work, taken, run, ran, started, ended, order, abort⟩ := h
    constructor <;> simp only [Pool.setTask, Function.update_apply] <;> grind -ring -linarith -order [List.nodup_append]
  | wait hw hk hr => exact hkeep ⟨rfl, rfl, by rw [hw]; rfl, fun k => by simp [hw]⟩
  | leave hw hr =>
    apply hkeep
    rcases hw with ⟨hw, -⟩ | hw <;> exact ⟨rfl, rfl, by rw [hw]; rfl, fun k => by simp [hw]⟩
  | relock hw hm => exact hkeep ⟨rfl, rfl, by rw [hw]; rfl, fun k => by simp [hw]⟩
  | idle hw hm =>
    exact h.congr rfl rfl rfl rfl (fun _ => rfl)
      (sameJob_of_update rfl ⟨rfl, rfl, by rw [hw]; rfl, fun k => by simp [hw]⟩)
  | push hw =>
    exact h.congr rfl rfl rfl rfl (fun _ => rfl)
      (sameJob_of_update rfl ⟨rfl, rfl, by rw [hw]; rfl, fun k => by simp [hw]⟩)
  | @setTwice k hw hset =>
    have hpromise := (h.given t k (by simp [Task.job, hbusy, hw, Worker.job])).2.2
    simp [hpromise] at hset
  | setValue hw hset =>
    obtain ⟨given, spare, pending, done, broken, ready, work, taken, run, ran, started, ended, order, abort⟩ := h
    constructor <;> simp only [Pool.setTask, Function.update_apply] <;> grind -ring -linarith -order
  | @setNone k hw hset =>
    have hpromise := (h.given t k (by simp [Task.job, hbusy, hw, Worker.job])).2.2
    simp [hpromise] at hset
  | again hw hr => exact hkeep ⟨rfl, rfl, by rw [hw]; rfl, fun k => by simp [hw]⟩

theorem MainStep.jobs (hp : Places s) (h : Jobs s) (hs : MainStep s s') : Jobs s' := by
  cases hs with
  | abort hd hne =>
    obtain ⟨given, spare, pending, done, broken, ready, work, taken, run, ran, started, ended, order, -⟩ := h
    exact ⟨given, spare, pending, done, broken, ready, work, taken, run, ran, started, ended, order, .inr rfl⟩
  | check hd heq => exact h.congr rfl rfl rfl rfl (fun _ => rfl) fun _ => .refl _
  | done hd => exact h.congr rfl rfl rfl rfl (fun _ => rfl) fun _ => .refl _
  | stop hd ht hm =>
    exact h.congr rfl rfl rfl rfl (fun _ => rfl)
      (sameJob_of_update rfl ⟨rfl, rfl, rfl, fun _ => .rfl⟩)
  | @stopping t hd =>
    have hwake := wake_sameJob (s.tasks t)
    exact h.congr rfl rfl rfl rfl (fun _ => rfl)
      (sameJob_of_update rfl ⟨hwake.work, hwake.promise, hwake.job, hwake.run⟩)
  | join hd hw => exact h.congr (h.abandon_eq (hp.job_of_exit hw)) rfl rfl rfl (fun _ => rfl) fun _ => .refl _

theorem OtherStep.jobs (hl : Locks s) (hp : Places s) (h : Jobs s) (hs : OtherStep s s') : Jobs s' := by
  cases hs with
  | call hd =>
    have hnone : s.async s.calls = .none := (hl.calls s.calls).mpr (Nat.le_refl _)
    exact h.congr rfl rfl rfl rfl (given_of_update rfl (by rw [hnone]; rfl)) fun _ => .refl _
  | spurious hw =>
    exact h.congr rfl rfl rfl rfl (fun _ => rfl)
      (sameJob_of_update rfl ⟨rfl, rfl, by rw [hw]; rfl, fun k => by simp [hw]⟩)
  | @finish t k hw =>
    have hrun := fun u => h.worker_unique (u := u) hp (by rw [hw]; rfl : (s.tasks t).worker.job = some k)
    obtain ⟨given, spare, pending, done, broken, ready, work, taken, run, ran, started, ended, order, abort⟩ := h
    constructor <;> simp only [Pool.setTask, Function.update_apply] <;> grind -ring -linarith -order [List.nodup_append]
  | destroy hd hr => exact h.congr rfl rfl rfl rfl (fun _ => rfl) fun _ => .refl _

structure Inv (s : Pool) : Prop where
  locks : Locks s
  stops : Stops s
  places : Places s
  jobs : Jobs s

theorem init_inv : Inv Pool.init := ⟨init_locks, init_stops, init_places, init_jobs⟩

theorem step_inv (h : Inv s) (hs : step s a = some s') : Inv s' := by
  obtain ⟨hl, hd, hp, hj⟩ := h
  obtain ⟨-, ⟨k, -, hs⟩ | ⟨t, -, hs⟩ | ⟨-, hs⟩ | ⟨-, hs⟩⟩ := step_cases hs
  · exact ⟨hs.locks hl, hs.stops hl hd, hs.places hl hd hp, hs.jobs hl hp hj⟩
  · exact ⟨hs.locks hl, hs.stops hl hd, hs.places hl hp, hs.jobs hp hj⟩
  · exact ⟨hs.locks hl, hs.stops hl hd, hs.places hp, hs.jobs hp hj⟩
  · exact ⟨hs.locks hl, hs.stops hl hd, hs.places hl hp, hs.jobs hl hp hj⟩

theorem reach_inv (h : Reach step Pool.init s) : Inv s := h.invariant step_inv init_inv

end Dezyne.ThreadPool
