import Dezyne.ThreadPoolRun
/-!
# What the thread pool comes to

Every step of the pool lowers a measure, so its steps end. The mutexes are not taken in a circle:
where no step is left, every call has returned, and its work is done or a worker is doing it.
-/

namespace Dezyne.ThreadPool

open Interleave

variable {s s' : Pool} {a : Action} {k t : Nat}

/-! ## The steps that are left -/

/-- How many steps a call may still take, with those it gives to the worker. -/
def Async.weight : Async → Nat
  | .none | .returned _ => 0
  | .pop _ _ => 1
  | .notify _ _ => 4
  | .store _ _ => 13
  | .assign _ _ => 14
  | .locked => 17
  | .enter => 18

/-- How many steps a worker may still take before it waits. -/
def Worker.weight : Worker → Nat
  | .none | .wait | .exit => 0
  | .test => 1
  | .loop | .start | .woken => 2
  | .setValue _ => 3
  | .push _ => 4
  | .idle _ => 5
  | .ran _ => 6
  | .run _ => 7

def Task.weight (task : Task) : Nat := task.worker.weight + if task.work.isSome then 8 else 0

/-- How many steps `~pool` may still take, with those of the workers that it wakes up. -/
def Destruct.weight (d : Destruct) (size : Nat) : Nat :=
  match d with
  | .none | .done => 0
  | .check => 5 * size + 2
  | .stop t => 5 * (size - t) + 1
  | .stopping t => 5 * (size - t)
  | .join t => 5 * (size - t) - 3

def Pool.measure (s : Pool) : Nat :=
  ∑ k ∈ Finset.range s.calls, (s.async k).weight + ∑ t ∈ Finset.range s.size, (s.tasks t).weight +
    s.destruct.weight s.size + s.abort.elim 1 fun _ => 0

theorem sum_update {β : Type} (f : β → Nat) (g : Nat → β) {n i : Nat} (hi : i < n) (x : β) :
    ∑ j ∈ Finset.range n, f (Function.update g i x j) + f (g i) = ∑ j ∈ Finset.range n, f (g j) + f x := by
  have hmem : i ∈ Finset.range n := Finset.mem_range.mpr hi
  rw [← Finset.add_sum_erase _ _ hmem, ← Finset.add_sum_erase _ (fun j => f (g j)) hmem, Function.update_self,
    Finset.sum_congr rfl fun j hj => by rw [Function.update_of_ne (Finset.ne_of_mem_erase hj)]]
  omega

theorem measure_setAsync (hk : k < s.calls) (a : Async) :
    (s.setAsync k a).measure + (s.async k).weight = s.measure + a.weight := by
  have := sum_update Async.weight s.async hk a
  simp only [Pool.measure, Pool.setAsync]
  omega

theorem measure_setTask (ht : t < s.size) (task : Task) :
    (s.setTask t task).measure + (s.tasks t).weight = s.measure + task.weight := by
  have := sum_update Task.weight s.tasks ht task
  simp only [Pool.measure, Pool.setTask]
  omega

theorem setAsync_lt (hk : k < s.calls) {a : Async} (hw : a.weight < (s.async k).weight) :
    (s.setAsync k a).measure < s.measure := by
  have := measure_setAsync hk a
  omega

theorem setTask_lt (ht : t < s.size) {task : Task} (hw : task.weight < (s.tasks t).weight) :
    (s.setTask t task).measure < s.measure := by
  have := measure_setTask ht task
  omega

theorem setBoth_lt (ht : t < s.size) (hk : k < s.calls) {task : Task} {a : Async}
    (hw : task.weight + a.weight < (s.tasks t).weight + (s.async k).weight) :
    ((s.setTask t task).setAsync k a).measure < s.measure := by
  have h1 := measure_setTask ht task
  have h2 := measure_setAsync (s := s.setTask t task) hk a
  have h3 : (s.setTask t task).async k = s.async k := rfl
  rw [h3] at h2
  omega

theorem measure_create (hd : s.destruct = .none) (task : Task) :
    ({ s with size := s.size + 1 }.setTask s.size task).measure = s.measure + task.weight := by
  have hsum : ∑ j ∈ Finset.range (s.size + 1), (Function.update s.tasks s.size task j).weight =
      ∑ j ∈ Finset.range s.size, (s.tasks j).weight + task.weight := by
    rw [Finset.sum_range_succ, Function.update_self,
      Finset.sum_congr rfl fun j hj => by rw [Function.update_of_ne (Nat.ne_of_lt (Finset.mem_range.mp hj))]]
  simp only [Pool.measure, Pool.setTask, hsum, hd, Destruct.weight]
  omega

theorem measure_abort (ha : s.abort = none) (a : Abort) : { s with abort := some a }.measure < s.measure := by
  simp only [Pool.measure, ha, Option.elim_none, Option.elim_some]
  omega

theorem wake_weight (task : Task) : (Pool.wake task).weight ≤ task.weight + 2 := by
  unfold Pool.wake
  split
  · simp only [Task.weight, Worker.weight, *]
    omega
  · omega

theorem AsyncStep.measure_lt (h : Inv s) (ha : s.abort = none) (hs : AsyncStep s k s') : s'.measure < s.measure := by
  have hlt : k < s.calls := by
    by_contra hge
    have hk := (h.locks.calls k).mpr (Nat.le_of_not_lt hge)
    cases hs <;> simp_all
  have hbound := h.locks.bound k
  cases hs with
  | enter hk hm => exact setAsync_lt (s := { s with mutex := _ }) hlt (by simp [hk, Async.weight])
  | create hk hi =>
    have hd : s.destruct = .none := by
      by_contra hne
      have := h.stops.returned hne k
      simp [hk, Async.isReturned] at this
    have hc := measure_create hd Task.new
    have hm := measure_setAsync (s := { s with size := s.size + 1 }.setTask s.size Task.new) hlt (.assign s.size true)
    have hk' : ({ s with size := s.size + 1 }.setTask s.size Task.new).async k = .locked := hk
    rw [hc, hk', Async.weight, Async.weight] at hm
    have hnew : Task.new.weight = 2 := rfl
    omega
  | front hk hi => exact setAsync_lt hlt (by simp [hk, Async.weight])
  | @assign t c hk hm =>
    refine setBoth_lt (hbound t c (.inl (by rw [hk]; rfl))) hlt ?_
    simp [hk, Async.weight, Task.weight]
  | assert hk hw => exact measure_abort ha _
  | @store t c hk hw =>
    refine setBoth_lt (s := { s with future := _ }) (hbound t c (.inl (by rw [hk]; rfl))) hlt ?_
    simp only [hk, hw, Async.weight, Task.weight, Option.isSome_none, Option.isSome_some, if_true]
    omega
  | @notify t c hk =>
    refine setBoth_lt (hbound t c (.inr (by rw [hk]; rfl))) hlt ?_
    have hw := wake_weight (s.tasks t)
    simp only [hk, Async.weight, Task.weight] at hw ⊢
    omega
  | pop hk => exact setAsync_lt (s := s.popIdle _) hlt (by simp [Pool.popIdle, hk, Async.weight])

/-- The worker of a task that is not there takes no step. -/
theorem WorkerStep.lt_size (h : Locks s) (hs : WorkerStep s t s') : t < s.size := by
  by_contra hge
  have ht := h.absent t (Nat.le_of_not_lt hge)
  cases hs <;> simp_all [Task.absent]

theorem WorkerStep.measure_lt (h : Inv s) (ha : s.abort = none) (hs : WorkerStep s t s') : s'.measure < s.measure := by
  have hlt := hs.lt_size h.locks
  cases hs with
  | lock hw hm => exact setTask_lt hlt (by rcases hw with hw | hw <;> simp [Task.weight, hw, Worker.weight])
  | take hw hk =>
    refine setTask_lt (s := { s with started := _ }) hlt ?_
    simp [Task.weight, hw, hk, Worker.weight]
  | wait hw hk hr => exact setTask_lt hlt (by simp [Task.weight, hw, Worker.weight])
  | leave hw hr => exact setTask_lt hlt (by rcases hw with ⟨hw, -⟩ | hw <;> simp [Task.weight, hw, Worker.weight])
  | relock hw hm => exact setTask_lt hlt (by simp [Task.weight, hw, Worker.weight])
  | idle hw hm => exact setTask_lt (s := { s with mutex := _ }) hlt (by simp [Task.weight, hw, Worker.weight])
  | push hw =>
    refine setTask_lt (s := { s with mutex := _, idleTasks := _ }) hlt ?_
    simp [Task.weight, hw, Worker.weight]
  | setTwice hw hp => exact measure_abort ha _
  | setValue hw hp => exact setTask_lt (s := { s with future := _ }) hlt (by simp [Task.weight, hw, Worker.weight])
  | setNone hw hp => exact setTask_lt hlt (by simp [Task.weight, hw, Worker.weight])
  | again hw hr => exact setTask_lt hlt (by simp [Task.weight, hw, Worker.weight])

theorem measure_destruct (d : Destruct) :
    { s with destruct := d }.measure + s.destruct.weight s.size = s.measure + d.weight s.size := by
  simp only [Pool.measure]
  omega

theorem MainStep.measure_lt (h : Inv s) (ha : s.abort = none) (hs : MainStep s s') : s'.measure < s.measure := by
  cases hs with
  | abort hd hne => exact measure_abort ha _
  | check hd heq =>
    have hm := measure_destruct (s := s) (.stop 0)
    simp only [hd, Destruct.weight] at hm
    omega
  | done hd =>
    have hm := measure_destruct (s := s) .done
    simp only [hd, Destruct.weight] at hm
    omega
  | @stop t hd hne hmutex =>
    have hlt := Nat.lt_of_le_of_ne (h.locks.stop t hd) hne
    have ht := measure_setTask (s := { s with destruct := .stopping t }) hlt { s.tasks t with mutex := some .main }
    have hm := measure_destruct (s := s) (.stopping t)
    simp only [hd, Destruct.weight] at hm
    simp only [Task.weight] at ht ⊢
    omega
  | @stopping t hd =>
    have hlt := h.locks.stopping t hd
    have ht := measure_setTask (s := { s with destruct := .join t }) hlt
      { Pool.wake (s.tasks t) with running := false, mutex := none }
    have hm := measure_destruct (s := s) (.join t)
    have hw := wake_weight (s.tasks t)
    simp only [hd, Destruct.weight] at hm
    simp only [Task.weight] at ht hw ⊢
    omega
  | @join t hd hw =>
    have hlt := h.locks.join t hd
    have hm := measure_destruct (s := s) (.stop (t + 1))
    change Pool.measure { s with destruct := .stop (t + 1) } < s.measure
    simp only [hd, Destruct.weight] at hm
    omega

theorem own_measure_lt (h : Inv s) (ha : Own a) (hs : step s a = some s') : s'.measure < s.measure := by
  obtain ⟨habort, ⟨k, -, hs⟩ | ⟨t, -, hs⟩ | ⟨-, hs⟩ | ⟨hne, -⟩⟩ := step_cases hs
  · exact hs.measure_lt h habort
  · exact hs.measure_lt h habort
  · exact hs.measure_lt h habort
  · exact absurd ha hne

/-! ## When a thread takes no step -/

theorem stepAsync_eq_none (h : s.stepAsync k = none) : s.async k = .none ∨ (s.async k).isReturned = true ∨
    (s.async k = .enter ∧ s.mutex ≠ none) ∨ (∃ t c, s.async k = .assign t c ∧ (s.tasks t).mutex ≠ none) := by
  unfold Pool.stepAsync at h
  split at h <;> try split at h
  all_goals simp only [reduceCtorEq] at h
  · exact .inr (.inr (.inl ⟨‹_›, ‹_›⟩))
  · exact .inr (.inr (.inr ⟨_, _, ‹_›, ‹_›⟩))
  · cases ha : s.async k <;> simp_all [Async.isReturned]

theorem stepWorker_eq_none (h : s.stepWorker t = none) :
    ((s.tasks t).worker = .none ∨ (s.tasks t).worker = .wait ∨ (s.tasks t).worker = .exit ∨
      ∃ k, (s.tasks t).worker = .run k) ∨
    (((s.tasks t).worker = .start ∨ (s.tasks t).worker = .woken ∨ ∃ k, (s.tasks t).worker = .ran k) ∧
      (s.tasks t).mutex ≠ none) ∨
    ∃ k, (s.tasks t).worker = .idle k ∧ s.mutex ≠ none := by
  simp only [Pool.stepWorker] at h
  cases hw : (s.tasks t).worker with simp only [hw] at h
  | none => simp
  | wait => simp
  | exit => simp
  | run k => simp
  | start => exact .inr (.inl ⟨.inl rfl, fun hm => by simp [hm] at h⟩)
  | woken => exact .inr (.inl ⟨.inr (.inl rfl), fun hm => by simp [hm] at h⟩)
  | ran k => exact .inr (.inl ⟨.inr (.inr ⟨k, rfl⟩), fun hm => by simp [hm] at h⟩)
  | idle k => exact .inr (.inr ⟨k, rfl, fun hm => by simp [hm] at h⟩)
  | test =>
    split at h
    · cases h
    · split at h <;> cases h
  | push k => cases h
  | setValue k => split at h <;> cases h
  | loop => split at h <;> cases h

theorem stepMain_eq_none (h : s.stepMain = none) : s.destruct = .none ∨ s.destruct = .done ∨
    (∃ t, s.destruct = .stop t ∧ t ≠ s.size ∧ (s.tasks t).mutex ≠ none) ∨
    ∃ t, s.destruct = .join t ∧ (s.tasks t).worker ≠ .exit := by
  unfold Pool.stepMain at h
  cases hd : s.destruct with simp only [hd] at h
  | none => simp
  | done => simp
  | check => split at h <;> cases h
  | stop t =>
    refine .inr (.inr (.inl ⟨t, rfl, ?_⟩))
    split at h
    · cases h
    · exact ⟨‹_›, fun hm => by simp [hm] at h⟩
  | stopping t => cases h
  | join t =>
    refine .inr (.inr (.inr ⟨t, rfl, fun hw => by simp [hw] at h⟩))

/-! ## States in which no thread takes a step -/

/-- Every thread is done, waits, or is stuck at a mutex. -/
structure Stuck (s : Pool) : Prop where
  async : ∀ k, s.stepAsync k = none
  worker : ∀ t, s.stepWorker t = none
  main : s.stepMain = none

theorem stuck_of_quiet (ha : s.abort = none) (hq : Quiet step Own s) : Stuck s := by
  refine ⟨fun k => ?_, fun t => ?_, ?_⟩
  · simpa [step, ha] using hq (.async k) trivial
  · simpa [step, ha] using hq (.worker t) trivial
  · simpa [step, ha] using hq .main trivial

/-- Who holds a task's mutex waits for the mutex of the pool. -/
theorem Stuck.mutex_task (h : Inv s) (hq : Stuck s) (hm : (s.tasks t).mutex ≠ none) :
    ∃ k, (s.tasks t).worker = .idle k ∧ s.mutex ≠ none := by
  obtain ⟨k | u | -, hm⟩ := Option.ne_none_iff_exists'.mp hm
  · have hk := (h.locks.task t k).mp hm
    rcases stepAsync_eq_none (hq.async k) with ha | ha | ⟨ha, -⟩ | ⟨u, c, ha, -⟩
    · simp [ha, Async.holds] at hk
    · cases hasync : s.async k <;> simp_all [Async.holds, Async.isReturned]
    · simp [ha, Async.holds] at hk
    · simp [ha, Async.holds] at hk
  · obtain ⟨rfl, hw⟩ := (h.locks.taskWorker t u).mp hm
    rcases stepWorker_eq_none (hq.worker u) with (hu | hu | hu | ⟨k, hu⟩) | ⟨hu | hu | ⟨k, hu⟩, -⟩ | hu
    all_goals try simp [hu, Worker.holds] at hw
    exact hu
  · have hd := (h.locks.taskMain t).mp hm
    rcases stepMain_eq_none hq.main with hn | hn | ⟨u, hn, -⟩ | ⟨u, hn, -⟩ <;> simp [hd] at hn

/-- The mutexes are not taken in a circle: a call in the pool goes to a task whose worker does not want the pool. -/
theorem Stuck.mutex_pool (h : Inv s) (hq : Stuck s) : s.mutex = none := by
  by_contra hne
  obtain ⟨k | t | -, hm⟩ := Option.ne_none_iff_exists'.mp hne
  · have hk := (h.locks.pool k).mp hm
    rcases stepAsync_eq_none (hq.async k) with ha | ha | ⟨ha, -⟩ | ⟨t, c, ha, htm⟩
    · simp [ha, Async.holdsPool] at hk
    · cases hasync : s.async k <;> simp_all [Async.holdsPool, Async.isReturned]
    · simp [ha, Async.holdsPool] at hk
    · obtain ⟨j, hj, -⟩ := hq.mutex_task h htm
      have hrest := (h.places.target k t c (by rw [ha]; rfl)).2.1
      simp [hj, Worker.rests] at hrest
  · have hw := (h.locks.poolWorker t).mp hm
    rcases stepWorker_eq_none (hq.worker t) with (hu | hu | hu | ⟨k, hu⟩) | ⟨hu | hu | ⟨k, hu⟩, -⟩ | ⟨k, hu, -⟩ <;>
      simp [hu, Worker.holdsPool] at hw
  · exact h.locks.poolMain hm

theorem Stuck.mutex_free (h : Inv s) (hq : Stuck s) : (s.tasks t).mutex = none := by
  by_contra hne
  obtain ⟨-, -, hm⟩ := hq.mutex_task h hne
  exact hm (hq.mutex_pool h)

theorem Stuck.worker_cases (h : Inv s) (hq : Stuck s) (t : Nat) : (s.tasks t).worker = .none ∨
    (s.tasks t).worker = .wait ∨ (s.tasks t).worker = .exit ∨ ∃ k, (s.tasks t).worker = .run k := by
  rcases stepWorker_eq_none (hq.worker t) with hw | ⟨-, hm⟩ | ⟨-, -, hm⟩
  · exact hw
  · exact absurd (hq.mutex_free h) hm
  · exact absurd (hq.mutex_pool h) hm

theorem Stuck.returned (h : Inv s) (hq : Stuck s) (hk : k < s.calls) : (s.async k).isReturned = true := by
  rcases stepAsync_eq_none (hq.async k) with ha | ha | ⟨-, hm⟩ | ⟨t, -, -, hm⟩
  · exact absurd ((h.locks.calls k).mp ha) (Nat.not_le_of_lt hk)
  · exact ha
  · exact absurd (hq.mutex_pool h) hm
  · exact absurd (hq.mutex_free h) hm

/-- No work is left behind: it is done, or a worker is doing it. -/
theorem Stuck.future (h : Inv s) (hq : Stuck s) (hk : k < s.calls) :
    s.future k = .ready ∨ ∃ t < s.size, (s.tasks t).worker = .run k := by
  have hr := hq.returned h hk
  obtain ⟨t, ht⟩ : ∃ t, (s.async k).given = some t := by
    cases ha : s.async k <;> simp_all [Async.isReturned, Async.given]
  rcases h.jobs.done k t ht with hdone | hjob
  · exact .inl hdone
  have hwork : (s.tasks t).work = none := by
    by_contra hne
    obtain ⟨j, hj⟩ := Option.ne_none_iff_exists'.mp hne
    have hjk : j = k := by simpa [Task.job, hj] using hjob
    subst hjk
    rcases h.places.work t j hj with hw | hw | hw | ⟨-, hn⟩
    · rcases hq.worker_cases h t with hc | hc | hc | ⟨i, hc⟩ <;> simp [hw] at hc
    · rcases hq.worker_cases h t with hc | hc | hc | ⟨i, hc⟩ <;> simp [hw] at hc
    · rcases hq.worker_cases h t with hc | hc | hc | ⟨i, hc⟩ <;> simp [hw] at hc
    · cases ha : s.async j <;> simp_all [Async.notifies, Async.isReturned]
  rw [Task.job, hwork, Option.none_or] at hjob
  refine .inr ⟨t, ?_, ?_⟩
  · by_contra hge
    have habsent := h.locks.absent t (Nat.le_of_not_lt hge)
    simp [habsent, Task.absent, Worker.job] at hjob
  · rcases hq.worker_cases h t with hc | hc | hc | ⟨i, hc⟩ <;> simp_all [Worker.job]

/-! ## Safety and progress -/

/-- Whatever the threads do in turn, `assert (!work_)` holds and no promise is set twice or dropped. The work of a call is
done at most once, and its future is ready only after it. -/
theorem async_safe (h : Reach step Pool.init s) : s.abort ≠ some .work ∧ s.abort ≠ some .promise ∧
    (∀ k, s.future k ≠ .broken) ∧ s.started.Nodup ∧ ∀ k, s.future k = .ready → k ∈ s.ended ∧ k ∈ s.started := by
  obtain ⟨-, -, -, hj⟩ := reach_inv h
  refine ⟨?_, ?_, hj.broken, hj.started, fun k hk => ⟨hj.ready k hk, hj.order k (hj.ready k hk)⟩⟩
  · rcases hj.abort with ha | ha <;> simp [ha]
  · rcases hj.abort with ha | ha <;> simp [ha]

/-- One call, its work and its future. -/
def firstCall : List Action :=
  .call :: List.replicate 6 (.async 0) ++ List.replicate 2 (.worker 0) ++ .finish 0 :: List.replicate 6 (.worker 0)

theorem async_safe_firstCall :
    ∃ s, firstCall.foldlM step Pool.init = some s ∧ s.future 0 = .ready ∧ 0 ∈ s.ended ∧ s.ended = [0] :=
  ⟨_, rfl, rfl, ((async_safe (.of_foldlM (l := firstCall) rfl)).2.2.2.2 0 rfl).1, rfl⟩

/-- The steps of the pool end, whatever their order. Where they end, every call has returned, and its work is done or
a worker of its own is doing it: nobody waits for a mutex or for a notification, and no work for other work. -/
theorem async_returns (h : Reach step Pool.init s) : (∃ n, ∀ m s', Run step Own s m s' → m ≤ n) ∧
    ∀ m s', Run step Own s m s' → Quiet step Own s' → s'.abort = none → ∀ k < s'.calls,
      (s'.async k).isReturned = true ∧ (s'.future k = .ready ∨ ∃ t < s'.size, (s'.tasks t).worker = .run k) := by
  have hi := reach_inv h
  refine ⟨⟨s.measure, fun m s' hrun => ?_⟩, fun m s' hrun hquiet habort k hk => ?_⟩
  · have := hrun.le_measure step_inv own_measure_lt hi
    omega
  · have hi := hrun.reach.invariant step_inv hi
    have hstuck := stuck_of_quiet habort hquiet
    exact ⟨hstuck.returned hi hk, hstuck.future hi hk⟩

/-- The steps of the pool after its first call. -/
def firstSteps : List Action := List.replicate 6 (.async 0) ++ List.replicate 2 (.worker 0)

theorem async_returns_firstCall : ∃ s s', [Action.call].foldlM step Pool.init = some s ∧
    firstSteps.foldlM step s = some s' ∧ (s'.async 0).isReturned = true := by
  refine ⟨_, _, rfl, rfl, ?_⟩
  refine ((async_returns (.of_foldlM (l := [Action.call]) rfl)).2 8 _
    (.of_foldlM (l := firstSteps) rfl (by simp [firstSteps, Own])) ?_ rfl 0 (by decide)).1
  intro a ha
  cases a with
  | async k => cases k <;> rfl
  | worker t => cases t <;> rfl
  | main => rfl
  | _ => exact ha.elim

/-! ## The end of the pool -/

/-- The pool is being destroyed, and all its tasks are idle. -/
structure Closing (s : Pool) : Prop where
  inv : Inv s
  destruct : s.destruct ≠ .none
  idle : ∀ t < s.size, t ∈ s.idleTasks
  abort : s.abort = none

theorem Closing.length (h : Closing s) : s.idleTasks.length = s.size := by
  have hperm : s.idleTasks.Perm (List.range s.size) :=
    (List.perm_ext_iff_of_nodup h.inv.places.nodup List.nodup_range).mpr fun t =>
      ⟨fun ht => List.mem_range.mpr (h.inv.locks.idle t ht), fun ht => h.idle t (List.mem_range.mp ht)⟩
  rw [hperm.length_eq, List.length_range]

theorem step_closing (h : Closing s) (hs : step s a = some s') : Closing s' := by
  have hi := step_inv h.inv hs
  have hreturned := h.inv.stops.returned h.destruct
  obtain ⟨-, ⟨k, -, hs⟩ | ⟨t, -, hs⟩ | ⟨-, hs⟩ | ⟨-, hs⟩⟩ := step_cases hs
  · have hk := hreturned k
    cases hs <;> simp_all [Async.isReturned]
  · obtain ⟨-, hd, hidle, habort⟩ := h
    have hj := hi.jobs.abort
    refine ⟨hi, ?_, ?_, ?_⟩ <;> cases hs <;> simp_all [Pool.setTask]
  · have hlen := h.length
    obtain ⟨-, hd, hidle, habort⟩ := h
    refine ⟨hi, ?_, ?_, ?_⟩ <;> cases hs <;> simp_all [Pool.setTask]
  · obtain ⟨-, hd, hidle, habort⟩ := h
    refine ⟨hi, ?_, ?_, ?_⟩ <;> cases hs <;> simp_all [Pool.setTask]

/-- Where all futures are ready, all tasks are idle. -/
theorem closing_of_ready (h : Inv s) (hready : ∀ k < s.calls, s.future k = .ready)
    (hs : step s .destroy = some s') : Closing s' := by
  have hi := step_inv h hs
  obtain ⟨habort, ⟨k, hk, -⟩ | ⟨t, ht, -⟩ | ⟨hm, -⟩ | ⟨-, -⟩⟩ := step_cases hs
  · cases hk
  · cases ht
  · cases hm
  simp only [step, habort, Option.isSome_none, Bool.false_eq_true, if_false] at hs
  obtain ⟨⟨hd, hreturned⟩, hs⟩ := Option.ite_none_right_eq_some.mp hs
  cases hs
  refine ⟨hi, by simp, fun t ht => ?_, rfl⟩
  by_contra hnot
  have hjob : (s.tasks t).job = none := by
    by_contra hne
    obtain ⟨k, hk⟩ := Option.ne_none_iff_exists'.mp hne
    obtain ⟨hg, hp, -⟩ := h.jobs.given t k hk
    have hlt : k < s.calls := by
      by_contra hge
      simp [(h.locks.calls k).mpr (Nat.le_of_not_lt hge), Async.given] at hg
    simp [hready k hlt] at hp
  simp only [Task.job, Option.or_eq_none_iff] at hjob
  have hrests : (s.tasks t).worker.rests = true := by
    have := h.locks.present t ht
    cases hw : (s.tasks t).worker <;> simp_all [Worker.job, Worker.rests]
  obtain ⟨k, hk⟩ := h.places.busy t ht hnot hjob.1 hrests
  rcases Nat.lt_or_ge k s.calls with hlt | hge
  · have := hreturned k hlt
    cases ha : s.async k <;> simp_all [Async.target, Async.isReturned]
  · simp [(h.locks.calls k).mpr hge, Async.target] at hk

theorem Closing.done (h : Closing s) (hq : Stuck s) : s.destruct = .done := by
  rcases stepMain_eq_none hq.main with hd | hd | ⟨t, -, -, hm⟩ | ⟨t, hd, hw⟩
  · exact absurd hd h.destruct
  · exact hd
  · exact absurd (hq.mutex_free h.inv) hm
  · have hlt := h.inv.locks.join t hd
    have hstopped : (s.tasks t).running = false := (h.inv.stops.running t).mpr (by simp [hd, Destruct.stopped])
    rcases hq.worker_cases h.inv t with hc | hc | hc | ⟨k, hc⟩
    · exact absurd hc (h.inv.locks.present t hlt)
    · simp [h.inv.stops.wait t hc] at hstopped
    · exact absurd hc hw
    · rcases h.inv.places.idle t (h.idle t hlt) with ⟨-, hr⟩ | ⟨j, hj⟩
      · simp [hc, Worker.rests] at hr
      · rcases h.inv.stops.returned h.destruct j with ha | ha
        · simp [ha, Async.leaves] at hj
        · cases hasync : s.async j <;> simp_all [Async.leaves, Async.isReturned]

/-- A pool that is destroyed when the futures of all calls are ready does not abort, and the steps of `~pool` and of the
workers end with every thread joined. -/
theorem destroy_ok (h : Reach step Pool.init s) (hready : ∀ k < s.calls, s.future k = .ready)
    (hs : step s .destroy = some s') {u : Pool} (hu : Reach step s' u) : u.abort = none ∧
      (Quiet step Own u → u.destruct = .done ∧ ∀ t < u.size, (u.tasks t).worker = .exit) := by
  have hc := hu.invariant step_closing (closing_of_ready (reach_inv h) hready hs)
  refine ⟨hc.abort, fun hquiet => ?_⟩
  have hd := hc.done (stuck_of_quiet hc.abort hquiet)
  exact ⟨hd, fun t ht => hc.inv.stops.joined t (by simp [hd, Destruct.joined, ht])⟩

theorem destroy_ok_firstCall : ∃ s s' u, firstCall.foldlM step Pool.init = some s ∧ step s .destroy = some s' ∧
    [Action.main, .main, .main, .worker 0, .worker 0, .main, .main].foldlM step s' = some u ∧ u.abort = none ∧
    u.destruct = .done := by
  refine ⟨_, _, _, rfl, rfl, rfl, ?_, rfl⟩
  refine (destroy_ok (.of_foldlM (l := firstCall) rfl) ?_ rfl (.of_foldlM
    (l := [Action.main, .main, .main, .worker 0, .worker 0, .main, .main]) rfl)).1
  intro k hk
  have hk : k = 0 := Nat.lt_one_iff.mp hk
  rw [hk]
  rfl

end Dezyne.ThreadPool
