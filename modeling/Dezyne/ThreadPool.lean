import Mathlib.Algebra.BigOperators.Group.Finset.Basic
import Dezyne.Lib.Interleave
/-!
# The thread pool

`pool` and `task` of `thread-pool.cc`. A step is one thread on its way to the next `lock`, `unlock`, `wait` or
`notify_one`: the threads that call `async`, the `worker` of each task, and the one in `~pool`. What happens between two
of them under a mutex is not seen by another thread. The calls of `async` are numbered, and a call's work has its number.
-/

namespace Dezyne.ThreadPool

/-- A thread that holds a mutex: the one of a call, a worker, or the one in `~pool`. -/
inductive Thread where
  | caller (k : Nat)
  | worker (t : Nat)
  | main
deriving DecidableEq

/-- Where a call of `async` is. From `assign` to `notify` it is in `assign` of the task, which is new when `created`. -/
inductive Async where
  | none
  | enter
  | locked
  | assign (t : Nat) (created : Bool)
  | store (t : Nat) (created : Bool)
  | notify (t : Nat) (created : Bool)
  | pop (t : Nat) (created : Bool)
  | returned (t : Nat)
deriving DecidableEq

/-- The call has returned its future. -/
def Async.isReturned : Async → Bool
  | .returned _ => true
  | _ => false

/-- Where a thread is in `worker`, and whose work it has taken. -/
inductive Worker where
  | none
  | start
  | test
  | wait
  | woken
  | run (k : Nat)
  | ran (k : Nat)
  | idle (k : Nat)
  | push (k : Nat)
  | setValue (k : Nat)
  | loop
  | exit
deriving DecidableEq

/-- Where `~pool` is: at its check, or in `~task` of a task. -/
inductive Destruct where
  | none
  | check
  | stop (t : Nat)
  | stopping (t : Nat)
  | join (t : Nat)
  | done
deriving DecidableEq

inductive Future where
  | pending
  | ready
  | broken
deriving DecidableEq

/-- A promise, with the call that got its future. -/
structure Promise where
  call : Option Nat
  satisfied : Bool
deriving DecidableEq

/-- How the process can end: `assert (!work_)`, a promise that is set twice, the check of `~pool`. -/
inductive Abort where
  | work
  | promise
  | idle
deriving DecidableEq

structure Task where
  running : Bool
  work : Option Nat
  promise : Promise
  mutex : Option Thread
  worker : Worker
deriving DecidableEq

/-- `new task (*this)`. -/
def Task.new : Task := ⟨true, none, ⟨none, false⟩, none, .start⟩

/-- `tasks` has `size` elements; `started` and `ended` log the calls whose work began and returned. -/
structure Pool where
  mutex : Option Thread
  idleTasks : List Nat
  size : Nat
  tasks : Nat → Task
  calls : Nat
  async : Nat → Async
  future : Nat → Future
  destruct : Destruct
  abort : Option Abort
  started : List Nat
  ended : List Nat

def Pool.init : Pool :=
  ⟨none, [], 0, fun _ => { Task.new with worker := .none }, 0, fun _ => .none, fun _ => .pending, .none, none, [], []⟩

namespace Pool

def setAsync (s : Pool) (k : Nat) (a : Async) : Pool := { s with async := Function.update s.async k a }

def setTask (s : Pool) (t : Nat) (task : Task) : Pool := { s with tasks := Function.update s.tasks t task }

/-- A promise that nobody has set is destroyed or assigned: its future gets `broken_promise`. -/
def abandon (s : Pool) (p : Promise) : Nat → Future :=
  match p.call, p.satisfied with
  | some k, false => Function.update s.future k .broken
  | _, _ => s.future

/-- `notify_one`: the worker is the only one that waits. -/
def wake (task : Task) : Task := if task.worker = .wait then { task with worker := .woken } else task

/-- `idle_tasks_.pop ()`, unless the task is new, and the end of `lock`. -/
def popIdle (s : Pool) (created : Bool) : Pool :=
  { s with mutex := none, idleTasks := if created then s.idleTasks else s.idleTasks.tail }

/-! ## The steps -/

/-- `pool::async` and `task::assign`. -/
def stepAsync (s : Pool) (k : Nat) : Option Pool :=
  match s.async k with
  | .enter => if s.mutex = none then some ({ s with mutex := some (.caller k) }.setAsync k .locked) else none
  | .locked =>
    match s.idleTasks with
    | [] => some (({ s with size := s.size + 1 }.setTask s.size Task.new).setAsync k (.assign s.size true))
    | t :: _ => some (s.setAsync k (.assign t false))
  | .assign t created =>
    if (s.tasks t).mutex = none then
      some ((s.setTask t { s.tasks t with mutex := some (.caller k) }).setAsync k (.store t created))
    else none
  | .store t created =>
    if (s.tasks t).work.isSome then some { s with abort := some .work }
    else some (({ s with future := s.abandon (s.tasks t).promise }.setTask t
      { s.tasks t with work := some k, promise := ⟨some k, false⟩ }).setAsync k (.notify t created))
  | .notify t created => some ((s.setTask t { wake (s.tasks t) with mutex := none }).setAsync k (.pop t created))
  | .pop t created => some ((s.popIdle created).setAsync k (.returned t))
  | _ => none

/-- `task::worker` and `pool::idle`. -/
def stepWorker (s : Pool) (t : Nat) : Option Pool :=
  let task := s.tasks t
  match task.worker with
  | .start | .woken =>
    if task.mutex = none then some (s.setTask t { task with mutex := some (.worker t), worker := .test }) else none
  | .test =>
    match task.work with
    | some k => some ({ s with started := s.started ++ [k] }.setTask t
        { task with work := none, mutex := none, worker := .run k })
    | none =>
      if task.running then some (s.setTask t { task with mutex := none, worker := .wait })
      else some (s.setTask t { task with mutex := none, worker := .exit })
  | .ran k =>
    if task.mutex = none then some (s.setTask t { task with mutex := some (.worker t), worker := .idle k }) else none
  | .idle k =>
    if s.mutex = none then some ({ s with mutex := some (.worker t) }.setTask t { task with worker := .push k }) else none
  | .push k => some ({ s with mutex := none, idleTasks := s.idleTasks ++ [t] }.setTask t { task with worker := .setValue k })
  | .setValue _ =>
    if task.promise.satisfied then some { s with abort := some .promise }
    else some ((match task.promise.call with
      | some j => { s with future := Function.update s.future j .ready }
      | none => s).setTask t { task with promise := { task.promise with satisfied := true }, worker := .loop })
  | .loop =>
    if task.running then some (s.setTask t { task with worker := .test })
    else some (s.setTask t { task with mutex := none, worker := .exit })
  | _ => none

/-- `~pool`, and `~task` for one task after the other. -/
def stepMain (s : Pool) : Option Pool :=
  match s.destruct with
  | .check =>
    if s.idleTasks.length ≠ s.size then some { s with abort := some .idle } else some { s with destruct := .stop 0 }
  | .stop t =>
    if t = s.size then some { s with destruct := .done }
    else if (s.tasks t).mutex = none then
      some ({ s with destruct := .stopping t }.setTask t { s.tasks t with mutex := some .main })
    else none
  | .stopping t =>
    some ({ s with destruct := .join t }.setTask t { wake (s.tasks t) with running := false, mutex := none })
  | .join t =>
    if (s.tasks t).worker = .exit then
      some { s with future := s.abandon (s.tasks t).promise, destruct := .stop (t + 1) }
    else none
  | _ => none

end Pool

/-- What happens next: `async` is called, a call goes on, a worker goes on, a worker wakes up without being notified, the
work of a worker returns, `~pool` is called, `~pool` goes on. -/
inductive Action where
  | call
  | async (k : Nat)
  | worker (t : Nat)
  | spurious (t : Nat)
  | finish (t : Nat)
  | destroy
  | main
deriving DecidableEq

/-- The steps of the pool. It is destroyed when all calls have returned, and not called from then on. -/
def step (s : Pool) (a : Action) : Option Pool :=
  if s.abort.isSome then none
  else match a with
  | .call =>
    if s.destruct = .none then some ({ s with calls := s.calls + 1 }.setAsync s.calls .enter) else none
  | .async k => s.stepAsync k
  | .worker t => s.stepWorker t
  | .spurious t =>
    if (s.tasks t).worker = .wait then some (s.setTask t { s.tasks t with worker := .woken }) else none
  | .finish t =>
    match (s.tasks t).worker with
    | .run k => some ({ s with ended := s.ended ++ [k] }.setTask t { s.tasks t with worker := .ran k })
    | _ => none
  | .destroy =>
    if s.destruct = .none ∧ ∀ k < s.calls, (s.async k).isReturned then some { s with destruct := .check } else none
  | .main => s.stepMain

/-- The steps that the pool takes by itself: no calls, and what the work does is not up to the pool. -/
def Own : Action → Prop
  | .async _ | .worker _ | .main => True
  | _ => False

end Dezyne.ThreadPool
