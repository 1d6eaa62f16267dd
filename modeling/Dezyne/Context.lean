import Mathlib.Algebra.BigOperators.Group.Finset.Basic
import Dezyne.Lib.Interleave
/-!
# Contexts

`context` of `context.hh`: coroutines on threads, a mutex and a condition for each. Context 0 is `zero` of the pump, which
has no thread of its own: its thread is the one of the pump. Every other context has the thread that runs its work. A
step is one thread on its way to the next `lock`, `unlock` or `wait`; who is notified needs the mutex that is still held.
-/

namespace Dezyne.Context

inductive State where
  | initial
  | released
  | blocked
  | final
deriving DecidableEq

/-- The loops around `condition.wait`: the one of `do_block` in the thread of a context or in `yield`, and the one of
`call`. -/
inductive Loop where
  | work
  | yield
  | call
deriving DecidableEq

/-- Where a thread is. -/
inductive Place where
  | none
  /-- The work, or the pump. -/
  | user
  /-- The thread of a context: before its first `lock`, at `while (state != FINAL)`, after the work, at its end. -/
  | start
  | loop
  | returned
  | done
  /-- `do_block`, and the loop that waits. -/
  | block (l : Loop)
  | wait (l : Loop)
  | woken (l : Loop)
  | test (l : Loop)
  /-- `yield`: before `lock`, before and in `release` of the other context. -/
  | yield (c : Nat)
  | release (c : Nat)
  | releasing (c : Nat)
  /-- `release` of `zero`. -/
  | exit
  | exiting
  /-- The constructor: before `lock`, and the loop that waits. -/
  | create (c : Nat)
  | creating (c : Nat)
  | createWait (c : Nat)
  | createWoken (c : Nat)
  /-- `call`: before `lock`, in `do_release`, before and after `c_lock`, before `wait`. -/
  | call (c : Nat)
  | calling (c : Nat)
  | callZero (c : Nat)
  | callBlock (c : Nat)
  | callSleep
  /-- `do_finish`: before `lock`, before `unlock`, before `notify_all`, at `future.wait`. -/
  | finish (c : Nat)
  | finishing (c : Nat)
  | notifyAll (c : Nat)
  | join (c : Nat)
deriving DecidableEq

/-- Where `forced_unwind` ends: it is caught in the thread of the context, or by the work. `call` does not throw it. -/
def Loop.unwind : Loop → Place
  | .work => .done
  | .yield => .returned
  | .call => .user

/-- The contexts with their mutexes, and the places of their threads. `control` is the context that was released last,
and `error` the one that `do_release` threw an error about. -/
structure Contexts where
  size : Nat
  state : Nat → State
  mutex : Nat → Option Nat
  place : Nat → Place
  control : Nat
  error : Option Nat

/-- The pump with `zero`. -/
def Contexts.init : Contexts :=
  ⟨1, fun _ => .initial, fun _ => none, Function.update (fun _ => .none) 0 .user, 0, none⟩

/-- The thread `t` waits for the condition of `c`. -/
def Place.waits (p : Place) (t c : Nat) : Bool :=
  match p with
  | .wait _ => t = c
  | .createWait k => k = c
  | _ => false

def Place.wake : Place → Place
  | .wait l => .woken l
  | .createWait k => .createWoken k
  | p => p

namespace Contexts

def goto (s : Contexts) (t : Nat) (p : Place) : Contexts := { s with place := Function.update s.place t p }

def setState (s : Contexts) (c : Nat) (state : State) : Contexts := { s with state := Function.update s.state c state }

def setMutex (s : Contexts) (c : Nat) (holder : Option Nat) : Contexts :=
  { s with mutex := Function.update s.mutex c holder }

/-- `lock` of `c` by `t`, which goes on to `p`. -/
def lock (s : Contexts) (c t : Nat) (p : Place) : Option Contexts :=
  if s.mutex c = none then some ((s.setMutex c (some t)).goto t p) else none

/-- `unlock` of `c` by `t`, which goes on to `p`. -/
def unlock (s : Contexts) (c t : Nat) (p : Place) : Contexts := (s.setMutex c none).goto t p

/-- `notify_one` of `c` wakes up `w`, or nobody when nobody waits. -/
def notifyOne (s : Contexts) (c : Nat) (w : Option Nat) : Option Contexts :=
  match w with
  | some t => if (s.place t).waits t c then some (s.goto t (s.place t).wake) else none
  | none => if ∀ t < s.size, !(s.place t).waits t c then some s else none

/-- `notify_all` of `c`. -/
def notifyAll (s : Contexts) (c : Nat) : Contexts :=
  { s with place := fun t => if (s.place t).waits t c then (s.place t).wake else s.place t }

/-- `do_release` of `c`, which wakes up `w`. -/
def doRelease (s : Contexts) (c : Nat) (w : Option Nat) : Option Contexts :=
  if s.state c ≠ .blocked then some { s with error := some c }
  else ({ s with control := c }.setState c .released).notifyOne c w

/-- The step of a thread. -/
def stepThread (s : Contexts) (t : Nat) (w : Option Nat) : Option Contexts :=
  match s.place t with
  | .start => s.lock t t .loop
  | .loop => if s.state t = .final then some (s.unlock t t .done) else some (s.goto t (.block .work))
  | .returned => s.lock t t .loop
  | .block l => ((s.setState t .blocked).notifyOne t w).map fun s => s.unlock t t (.wait l)
  | .woken l => s.lock t t (.test l)
  | .test l =>
    if s.state t = .blocked then some (s.unlock t t (.wait l))
    else if s.state t = .final then some (s.unlock t t l.unwind)
    else some (s.unlock t t .user)
  | .yield c => s.lock t t (.release c)
  | .release c => s.lock c t (.releasing c)
  | .releasing c => (s.doRelease c w).map fun s => if s.error.isSome then s else s.unlock c t (.block .yield)
  | .exit => s.lock 0 t .exiting
  | .exiting => (s.doRelease 0 w).map fun s => if s.error.isSome then s else s.unlock 0 t .returned
  | .create c => s.lock c t (.creating c)
  | .creating c => if s.state c = .blocked then some (s.unlock c t .user) else some (s.unlock c t (.createWait c))
  | .createWoken c => s.lock c t (.creating c)
  | .call c => s.lock c t (.calling c)
  | .calling c => (s.doRelease c w).map fun s => if s.error.isSome then s else s.goto t (.callZero c)
  | .callZero c => s.lock 0 t (.callBlock c)
  | .callBlock c => some ((s.setState 0 .blocked).unlock c t .callSleep)
  | .callSleep => some (s.unlock 0 t (.wait .call))
  | .finish c => s.lock c t (.finishing c)
  | .finishing c => some ((s.setState c .final).unlock c t (.notifyAll c))
  | .notifyAll c => some ((s.notifyAll c).goto t (.join c))
  | .join c => if s.place c = .done then some (s.goto t .user) else none
  | .none | .user | .done | .wait _ | .createWait _ => none

end Contexts

/-- What the work of a coroutine and the pump ask of the contexts. -/
inductive Request where
  | yield (c : Nat)
  | create
  | exit
  | call (c : Nat)
  | finish (c : Nat)
deriving DecidableEq

/-- A context that is there, and not `zero`. -/
def Contexts.coroutine (s : Contexts) (c : Nat) : Prop := 0 < c ∧ c < s.size ∧ s.state c ≠ .final

instance (s : Contexts) (c : Nat) : Decidable (s.coroutine c) := inferInstanceAs (Decidable (_ ∧ _ ∧ _))

/-- A request of the work of `t`, or of the pump, which is 0. -/
def Contexts.request (s : Contexts) (t : Nat) (r : Request) : Option Contexts :=
  match r with
  | .yield c => if t ≠ 0 ∧ s.coroutine c then some (if c = t then s else s.goto t (.yield c)) else none
  | .create => some (({ s with size := s.size + 1 }.goto s.size .start).goto t (.create s.size))
  | .exit => if t ≠ 0 then some (s.goto t .exit) else none
  | .call c => if t = 0 ∧ s.coroutine c then some (s.goto t (.call c)) else none
  | .finish c => if t = 0 ∧ s.coroutine c then some (s.goto t (.finish c)) else none

inductive Action where
  | thread (t : Nat) (w : Option Nat)
  | request (t : Nat) (r : Request)
  | spurious (t : Nat)
deriving DecidableEq

/-- The steps of the contexts. -/
def step (s : Contexts) (a : Action) : Option Contexts :=
  if s.error.isSome then none
  else match a with
  | .thread t w => s.stepThread t w
  | .request t r => if s.place t = .user then s.request t r else none
  | .spurious t =>
    match s.place t with
    | .wait l => some (s.goto t (.woken l))
    | .createWait c => some (s.goto t (.createWoken c))
    | _ => none

/-- The steps that are not up to the work or to chance. -/
def Own : Action → Prop
  | .thread _ _ => True
  | _ => False

end Dezyne.Context
