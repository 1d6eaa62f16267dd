import Dezyne.Handover
/-!
# Runs of contexts

A thread has a role in handing over the control (`Roles`) whatever mutexes it holds. A step is
put together from taking or freeing a mutex, waking up who waits, and going on to a place, and
there is a lemma for each of these.
-/

namespace Dezyne.Context

open Interleave

/-! ## The steps as a relation -/

/-- The mutex that a thread is about to take, and where it goes on then. -/
def Place.locks (t : Nat) : Place → Option (Nat × Place)
  | .start | .returned => some (t, .loop)
  | .woken l => some (t, .test l)
  | .yield c => some (t, .release c)
  | .release c => some (c, .releasing c)
  | .exit => some (0, .exiting)
  | .create c | .createWoken c => some (c, .creating c)
  | .call c => some (c, .calling c)
  | .callZero c => some (0, .callBlock c)
  | .finish c => some (c, .finishing c)
  | _ => Option.none

/-- `notify_one` and what holds of the places after it. -/
structure Notified (s : Contexts) (c : Nat) (after : Nat → Place) : Prop where
  place : ∀ t, after t = s.place t ∨ (s.place t).waits t c = true ∧ after t = (s.place t).wake
  one : ∀ t, (s.place t).waits t c = true → ∃ u, (s.place u).waits u c = true ∧ after u = (s.place u).wake

inductive ThreadStep (s : Contexts) (t : Nat) : Contexts → Prop
  | lock {c : Nat} {p : Place} : (s.place t).locks t = some (c, p) → s.mutex c = none →
      ThreadStep s t ((s.setMutex c (some t)).goto t p)
  | loopDone : s.place t = .loop → s.state t = .final → ThreadStep s t (s.unlock t t .done)
  | loop : s.place t = .loop → s.state t ≠ .final → ThreadStep s t (s.goto t (.block .work))
  | block {l : Loop} {place : Nat → Place} : s.place t = .block l → Notified s t place →
      ThreadStep s t (({ s with place := place }.setState t .blocked).unlock t t (.wait l))
  | testBlocked {l : Loop} : s.place t = .test l → s.state t = .blocked → ThreadStep s t (s.unlock t t (.wait l))
  | testFinal {l : Loop} : s.place t = .test l → s.state t = .final → ThreadStep s t (s.unlock t t l.unwind)
  | test {l : Loop} : s.place t = .test l → s.state t ≠ .blocked → s.state t ≠ .final →
      ThreadStep s t (s.unlock t t .user)
  | error {c : Nat} : (s.place t = .releasing c ∨ s.place t = .exiting ∧ c = 0 ∨ s.place t = .calling c) →
      s.state c ≠ .blocked → ThreadStep s t { s with error := some c }
  | release {c : Nat} {place : Nat → Place} : s.place t = .releasing c → s.state c = .blocked → Notified s c place →
      ThreadStep s t (({ s with control := c, place := place }.setState c .released).unlock c t (.block .yield))
  | exit {place : Nat → Place} : s.place t = .exiting → s.state 0 = .blocked → Notified s 0 place →
      ThreadStep s t (({ s with control := 0, place := place }.setState 0 .released).unlock 0 t .returned)
  | call {c : Nat} {place : Nat → Place} : s.place t = .calling c → s.state c = .blocked → Notified s c place →
      ThreadStep s t (({ s with control := c, place := place }.setState c .released).goto t (.callZero c))
  | created {c : Nat} : s.place t = .creating c → s.state c = .blocked → ThreadStep s t (s.unlock c t .user)
  | creating {c : Nat} : s.place t = .creating c → s.state c ≠ .blocked →
      ThreadStep s t (s.unlock c t (.createWait c))
  | callBlock {c : Nat} : s.place t = .callBlock c →
      ThreadStep s t ((s.setState 0 .blocked).unlock c t .callSleep)
  | callSleep : s.place t = .callSleep → ThreadStep s t (s.unlock 0 t (.wait .call))
  | finishing {c : Nat} : s.place t = .finishing c →
      ThreadStep s t ((s.setState c .final).unlock c t (.notifyAll c))
  | notifyAll {c : Nat} : s.place t = .notifyAll c →
      ThreadStep s t ((s.notifyAll c).goto t (.join c))
  | join {c : Nat} : s.place t = .join c → s.place c = .done → ThreadStep s t (s.goto t .user)

inductive OtherStep (s : Contexts) : Contexts → Prop
  | yieldSelf : OtherStep s s
  | yield {t c : Nat} : s.place t = .user → t ≠ 0 → s.coroutine c → c ≠ t → OtherStep s (s.goto t (.yield c))
  | create {t : Nat} : s.place t = .user →
      OtherStep s (({ s with size := s.size + 1 }.goto s.size .start).goto t (.create s.size))
  | exit {t : Nat} : s.place t = .user → t ≠ 0 → OtherStep s (s.goto t .exit)
  | call {t c : Nat} : s.place t = .user → t = 0 → s.coroutine c → OtherStep s (s.goto t (.call c))
  | finish {t c : Nat} : s.place t = .user → t = 0 → s.coroutine c → OtherStep s (s.goto t (.finish c))
  | spurious {t : Nat} {l : Loop} : s.place t = .wait l → OtherStep s (s.goto t (.woken l))
  | spuriousCreate {t c : Nat} : s.place t = .createWait c → OtherStep s (s.goto t (.createWoken c))

variable {s s' : Contexts} {a : Action} {t c : Nat} {w : Option Nat}

theorem lock_eq_some {p : Place} (h : s.lock c t p = some s') :
    s.mutex c = none ∧ s' = (s.setMutex c (some t)).goto t p := by
  obtain ⟨hm, h⟩ := Option.ite_none_right_eq_some.mp h
  exact ⟨hm, (Option.some.inj h).symm⟩

theorem notifyOne_eq_some (hout : ∀ t, s.size ≤ t → s.place t = .none) (h : s.notifyOne c w = some s') :
    ∃ place, Notified s c place ∧ s' = { s with place := place } := by
  cases w with
  | some t =>
    obtain ⟨ht, h⟩ := Option.ite_none_right_eq_some.mp h
    cases h
    refine ⟨_, ⟨fun u => ?_, fun u _ => ⟨t, ht, Function.update_self ..⟩⟩, rfl⟩
    rcases eq_or_ne u t with rfl | hu
    · exact .inr ⟨ht, Function.update_self ..⟩
    · exact .inl (Function.update_of_ne hu ..)
  | none =>
    obtain ⟨hnone, h⟩ := Option.ite_none_right_eq_some.mp h
    cases h
    refine ⟨s.place, ⟨fun u => .inl rfl, fun u hu => ?_⟩, rfl⟩
    rcases Nat.lt_or_ge u s.size with hlt | hge
    · have := hnone u hlt
      simp [hu] at this
    · simp [hout u hge, Place.waits] at hu

theorem doRelease_eq_some (hout : ∀ t, s.size ≤ t → s.place t = .none) (h : s.doRelease c w = some s') :
    (s.state c ≠ .blocked ∧ s' = { s with error := some c }) ∨
    (s.state c = .blocked ∧ ∃ place, Notified s c place ∧
      s' = { s with control := c, place := place }.setState c .released) := by
  unfold Contexts.doRelease at h
  split at h
  · cases h
    exact .inl ⟨‹_›, rfl⟩
  · obtain ⟨place, ⟨hp, hone⟩, rfl⟩ := notifyOne_eq_some (s := { s with control := c }.setState c .released) hout h
    exact .inr ⟨not_not.mp ‹_›, place, ⟨hp, hone⟩, rfl⟩

theorem ThreadStep.of_stepThread (hout : ∀ t, s.size ≤ t → s.place t = .none) (herror : s.error = none)
    (h : s.stepThread t w = some s') : ThreadStep s t s' := by
  unfold Contexts.stepThread at h
  cases hp : s.place t with simp only [hp, reduceCtorEq] at h
  | start | returned | woken l | yield c | release c | exit | create c | createWoken c | call c | callZero c | finish c =>
    obtain ⟨hm, rfl⟩ := lock_eq_some h
    exact .lock (by rw [hp]; rfl) hm
  | loop =>
    split at h
    · cases h
      exact .loopDone hp ‹_›
    · cases h
      exact .loop hp ‹_›
  | block l =>
    obtain ⟨u, hu, rfl⟩ := Option.map_eq_some_iff.mp h
    obtain ⟨place, ⟨hplace, hone⟩, rfl⟩ := notifyOne_eq_some (s := s.setState t .blocked) hout hu
    exact .block hp ⟨hplace, hone⟩
  | test l =>
    split at h
    · cases h
      exact .testBlocked hp ‹_›
    · split at h
      · cases h
        exact .testFinal hp ‹_›
      · cases h
        exact .test hp ‹_› ‹_›
  | releasing c =>
    obtain ⟨u, hu, rfl⟩ := Option.map_eq_some_iff.mp h
    rcases doRelease_eq_some hout hu with ⟨hs, rfl⟩ | ⟨hs, place, hn, rfl⟩
    · exact .error (.inl hp) hs
    · rw [if_neg (by simp [Contexts.setState, herror])]
      exact .release hp hs hn
  | exiting =>
    obtain ⟨u, hu, rfl⟩ := Option.map_eq_some_iff.mp h
    rcases doRelease_eq_some hout hu with ⟨hs, rfl⟩ | ⟨hs, place, hn, rfl⟩
    · exact .error (.inr (.inl ⟨hp, rfl⟩)) hs
    · rw [if_neg (by simp [Contexts.setState, herror])]
      exact .exit hp hs hn
  | calling c =>
    obtain ⟨u, hu, rfl⟩ := Option.map_eq_some_iff.mp h
    rcases doRelease_eq_some hout hu with ⟨hs, rfl⟩ | ⟨hs, place, hn, rfl⟩
    · exact .error (.inr (.inr hp)) hs
    · rw [if_neg (by simp [Contexts.setState, herror])]
      exact .call hp hs hn
  | creating c =>
    split at h
    · cases h
      exact .created hp ‹_›
    · cases h
      exact .creating hp ‹_›
  | callBlock c =>
    cases h
    exact .callBlock hp
  | callSleep =>
    cases h
    exact .callSleep hp
  | finishing c =>
    cases h
    exact .finishing hp
  | notifyAll c =>
    cases h
    exact .notifyAll hp
  | join c =>
    obtain ⟨hd, h⟩ := Option.ite_none_right_eq_some.mp h
    cases h
    exact .join hp hd

theorem step_cases (hout : ∀ t, s.size ≤ t → s.place t = .none) (h : step s a = some s') : s.error = none ∧
    ((∃ t, Own a ∧ ThreadStep s t s') ∨ (¬ Own a ∧ OtherStep s s')) := by
  unfold step at h
  obtain ⟨he, h⟩ := Option.ite_none_left_eq_some.mp h
  have herror := Option.not_isSome_iff_eq_none.mp he
  refine ⟨herror, ?_⟩
  cases a with
  | thread t w => exact .inl ⟨t, trivial, .of_stepThread hout herror h⟩
  | request t r =>
    refine .inr ⟨id, ?_⟩
    obtain ⟨hp, h⟩ := Option.ite_none_right_eq_some.mp h
    cases r with
    | yield c =>
      obtain ⟨⟨ht, hc⟩, h⟩ := Option.ite_none_right_eq_some.mp h
      cases h
      split
      · exact .yieldSelf
      · exact .yield hp ht hc ‹_›
    | create =>
      cases h
      exact .create hp
    | exit =>
      obtain ⟨ht, h⟩ := Option.ite_none_right_eq_some.mp h
      cases h
      exact .exit hp ht
    | call c =>
      obtain ⟨⟨ht, hc⟩, h⟩ := Option.ite_none_right_eq_some.mp h
      cases h
      exact .call hp ht hc
    | finish c =>
      obtain ⟨⟨ht, hc⟩, h⟩ := Option.ite_none_right_eq_some.mp h
      cases h
      exact .finish hp ht hc
  | spurious t =>
    refine .inr ⟨id, ?_⟩
    simp only at h
    split at h
    · cases h
      exact .spurious ‹_›
    · cases h
      exact .spuriousCreate ‹_›
    · cases h

/-! ## The invariant -/

/-- The thread `t` holds the mutex of `c`. -/
@[grind] def Place.holds (p : Place) (t c : Nat) : Bool :=
  match p with
  | .loop | .block _ | .test _ | .release _ => c = t
  | .releasing d => c = t || c = d
  | .exiting | .callSleep => c = 0
  | .creating d | .calling d | .callZero d | .finishing d => c = d
  | .callBlock d => c = d || c = 0
  | _ => false

/-- Only the pump is there, or only a coroutine. -/
@[grind] def Place.pump : Place → Option Bool
  | .call _ | .calling _ | .callZero _ | .callBlock _ | .callSleep | .finish _ | .finishing _ | .notifyAll _ | .join _ =>
    some true
  | .start | .loop | .returned | .done | .block _ | .yield _ | .release _ | .releasing _ | .exit | .exiting => some false
  | _ => Option.none

@[grind] def Place.isWoken : Place → Bool
  | .woken _ => true
  | _ => false

/-- The thread has released this context in `call`, and still holds its mutex. -/
@[grind] def Place.called : Place → Option Nat
  | .callZero c | .callBlock c => some c
  | _ => Option.none

attribute [grind] Place.waits Place.wake

/-- A context that is about to be blocked is not final, and what its creator waits for has not happened. -/
structure Places (s : Contexts) : Prop where
  kind : ∀ t b, (s.place t).pump = some b → (t = 0 ↔ b = true)
  block : ∀ t l, s.place t = .block l → l ≠ .call ∧ s.state t ≠ .final
  start : ∀ t, s.place t = .start → s.state t = .initial
  createWait : ∀ t c, s.place t = .createWait c → s.state c = .initial
  called : ∀ t c, (s.place t).called = some c → (s.place c).isWoken
  error : ∀ c, s.error = some c → s.place c = .returned

/-- What holds between the steps. -/
structure Inv (s : Contexts) : Prop where
  roles : Roles s.size s.control s.state fun t => (s.place t).role
  mutex : ∀ c t, s.mutex c = some t ↔ (s.place t).holds t c
  places : Places s

theorem init_inv : Inv Contexts.init := by
  have hroles : (fun t => (Contexts.init.place t).role) = Function.update (fun _ => Role.out) 0 .active := by
    funext t
    simp only [Contexts.init, Function.update_apply]
    split <;> rfl
  refine ⟨hroles ▸ init_roles, ?_, ?_, ?_, ?_, ?_, ?_, ?_⟩
  all_goals simp only [Contexts.init, Function.update_apply]
  all_goals grind -ring -linarith -order

/-! ### The mutexes -/

section
variable (h : ∀ c t, s.mutex c = some t ↔ (s.place t).holds t c)
include h

theorem mutex_goto {p : Place} (hp : ∀ d, p.holds t d = (s.place t).holds t d) (d u : Nat) :
    (s.goto t p).mutex d = some u ↔ ((s.goto t p).place u).holds u d := by
  simp only [Contexts.goto, Function.update_apply]
  rcases eq_or_ne u t with rfl | hu
  · rw [if_pos rfl, hp, h]
  · rw [if_neg hu, h]

theorem mutex_lock {p : Place} (hm : s.mutex c = none) (hp : ∀ d, p.holds t d = ((s.place t).holds t d || d = c))
    (d u : Nat) : ((s.setMutex c (some t)).goto t p).mutex d = some u ↔
      (((s.setMutex c (some t)).goto t p).place u).holds u d := by
  have hfree : ∀ u, (s.place u).holds u c = false := fun u => by
    have := h c u
    simpa [hm] using this
  simp only [Contexts.goto, Contexts.setMutex, Function.update_apply]
  rcases eq_or_ne d c with rfl | hd
  · rcases eq_or_ne u t with rfl | hu
    · simp [hp]
    · simp [hu, hu.symm, hfree]
  · rcases eq_or_ne u t with rfl | hu
    · simp [hp, hd, h]
    · simp [hu, hd, h]

theorem mutex_unlock {p : Place} (hc : (s.place t).holds t c = true)
    (hp : ∀ d, p.holds t d = ((s.place t).holds t d && d ≠ c)) (d u : Nat) :
    (s.unlock c t p).mutex d = some u ↔ ((s.unlock c t p).place u).holds u d := by
  have hheld := (h c t).mpr hc
  simp only [Contexts.unlock, Contexts.goto, Contexts.setMutex, Function.update_apply]
  rcases eq_or_ne d c with rfl | hd
  · rcases eq_or_ne u t with rfl | hu
    · simp [hp]
    · have := h d u
      simp only [hheld, Option.some.injEq] at this
      simp [hu, ← this, hu.symm]
  · rcases eq_or_ne u t with rfl | hu
    · simp [hp, hd, h]
    · simp [hu, hd, h]

end

/-! ### Who waits -/

theorem Inv.out (h : Inv s) (ht : s.size ≤ t) : s.place t = .none := by
  have := (h.roles.out t).mpr ht
  cases hp : s.place t with simp only [hp, Place.role, reduceCtorEq] at this ⊢
  | block l => cases l <;> simp at this

theorem Inv.asleep_state (h : Inv s) {k b : Bool} (ht : (s.place t).role = .asleep k b) : s.state t ≠ .initial := by
  intro hs
  simpa [hs] using (h.roles.asleep t k b ht).2

/-- At most one thread waits for a condition. -/
theorem Inv.waits_unique (h : Inv s) {u : Nat} (ht : (s.place t).waits t c = true) (hu : (s.place u).waits u c = true) :
    t = u := by
  have hactive := h.roles.active
  cases hp : s.place t <;> simp only [hp, Place.waits, Bool.false_eq_true, decide_eq_true_eq] at ht
  all_goals cases hq : s.place u <;> simp only [hq, Place.waits, Bool.false_eq_true, decide_eq_true_eq] at hu
  · exact ht.trans hu.symm
  · exact absurd (h.places.createWait u _ hq) (hu ▸ ht ▸ h.asleep_state (by rw [hp]; rfl))
  · exact absurd (h.places.createWait t _ hp) (ht ▸ hu ▸ h.asleep_state (by rw [hq]; rfl))
  · have h1 := (hactive t (by simp only [hp]; rfl)).1
    have h2 := (hactive u (by simp only [hq]; rfl)).1
    exact h1.trans h2.symm

/-- `notify_one` wakes up all that wait. -/
theorem Inv.notified (h : Inv s) {after : Nat → Place} (hn : Notified s c after) : after = (s.notifyAll c).place := by
  funext t
  simp only [Contexts.notifyAll]
  split
  next ht =>
    obtain ⟨u, hu, hafter⟩ := hn.one t ht
    have htu := h.waits_unique ht hu
    rw [htu, hafter]
  next ht =>
    rcases hn.place t with hafter | ⟨hw, -⟩
    · exact hafter
    · exact absurd hw ht

theorem notifyAll_place (s : Contexts) (c t : Nat) :
    (s.notifyAll c).place t = if (s.place t).waits t c then (s.place t).wake else s.place t := rfl

/-- Nobody waits after `notify_all`. -/
theorem notifyAll_waits (s : Contexts) (c t : Nat) : ((s.notifyAll c).place t).waits t c = false := by
  rw [notifyAll_place]
  split
  next ht => cases hp : s.place t <;> simp_all [Place.waits, Place.wake]
  next ht => exact Bool.not_eq_true _ ▸ ht

theorem notifyAll_of_not_waiting (h : ∀ d, ¬ (s.place t).waits t d = true) : (s.notifyAll c).place t = s.place t := by
  rw [notifyAll_place, if_neg (h c)]

theorem Place.wake_pump (p : Place) : p.wake.pump = p.pump := by cases p <;> rfl

theorem Place.wake_called (p : Place) : p.wake.called = p.called := by cases p <;> rfl

theorem Place.wake_holds (p : Place) (t d : Nat) : p.wake.holds t d = p.holds t d := by cases p <;> rfl

theorem Place.wake_isWoken {p : Place} (h : p.isWoken = true) : p.wake.isWoken = true := by cases p <;> simp_all [isWoken, wake]

theorem Place.wake_block {p : Place} {l : Loop} (h : p.wake = .block l) : p = .block l := by cases p <;> simp_all [wake]

theorem Place.wake_start {p : Place} (h : p.wake = .start) : p = .start := by cases p <;> simp_all [wake]

theorem Place.wake_createWait {p : Place} {d : Nat} (h : p.wake = .createWait d) : p = .createWait d := by
  cases p <;> simp_all [wake]

theorem Place.wake_role {p : Place} {k w : Bool} (h : p.role = .asleep k w) : p.wake.role = .asleep k false := by
  cases p with
  | block l => cases l <;> simp_all [role]
  | _ => simp_all [role, wake]

theorem Place.wake_role_of_awake {p : Place} (h : p.role.sleeps = false) : p.wake.role = p.role := by
  cases p <;> first | rfl | simp [role, Role.sleeps] at h

/-- Only the thread of a context sleeps on its condition. -/
theorem Place.awake_of_waits {p : Place} (h : p.waits t c = true) (hne : t ≠ c) : p.role.sleeps = false := by
  cases p <;> simp_all [waits, role, Role.sleeps]

theorem Place.not_waits_of_returned : ¬ Place.returned.waits t c = true := by simp [waits]

theorem notifyAll_role (h : ∀ k w, (s.place c).role = .asleep k w → (s.place c).waits c c = false) :
    (fun t => ((s.notifyAll c).place t).role) = fun t => (s.place t).role := by
  funext t
  rw [notifyAll_place]
  split
  next ht =>
    by_cases htc : t = c
    · subst htc
      refine Place.wake_role_of_awake ?_
      cases hr : (s.place t).role with
      | asleep k w => exact absurd ht (by simp [h k w hr])
      | _ => rfl
    · exact Place.wake_role_of_awake (Place.awake_of_waits ht htc)
  next => rfl

theorem notifyAll_role_waits {k w : Bool} (hr : (s.place c).role = .asleep k w) (hw : (s.place c).waits c c = true) :
    (fun t => ((s.notifyAll c).place t).role) = Function.update (fun t => (s.place t).role) c (.asleep k false) := by
  funext t
  rw [notifyAll_place, Function.update_apply]
  by_cases htc : t = c
  · subst htc
    rw [if_pos hw, if_pos rfl, Place.wake_role hr]
  · rw [if_neg htc]
    split
    next ht => exact Place.wake_role_of_awake (Place.awake_of_waits ht htc)
    next => rfl

/-- What holds of places that are left by waking up only holds of the places that were there. -/
theorem notifyAll_of {P : Place → Prop} (t : Nat) (hP : ∀ p : Place, P p.wake → P p)
    (h : P ((s.notifyAll c).place t)) : P (s.place t) := by
  rw [notifyAll_place] at h
  split at h
  · exact hP _ h
  · exact h

theorem Inv.notifyAll (h : Inv s) (c : Nat) : Inv (s.notifyAll c) := by
  obtain ⟨roles, mutex, kind, block, start, createWait, called, error⟩ := h
  refine ⟨?_, fun d t => ?_, fun t b hb => ?_, fun t l hl => ?_, fun t ht => ?_, fun t d hd => ?_, fun t d hd => ?_,
    fun d hd => ?_⟩
  · by_cases hc : ∃ k w, (s.place c).role = .asleep k w ∧ (s.place c).waits c c = true
    · obtain ⟨k, w, hr, hw⟩ := hc
      rw [notifyAll_role_waits hr hw]
      exact roles.wake hr
    · rw [notifyAll_role fun k w hr => Bool.eq_false_iff.mpr fun hw => hc ⟨k, w, hr, hw⟩]
      exact roles
  · refine (mutex d t).trans ?_
    rw [notifyAll_place]
    split
    · rw [Place.wake_holds]
    · rfl
  · exact kind t b (notifyAll_of (P := (·.pump = some b)) t (fun p hp => p.wake_pump ▸ hp) hb)
  · exact block t l (notifyAll_of (P := (· = .block l)) t (fun _ hp => Place.wake_block hp) hl)
  · exact start t (notifyAll_of (P := (· = .start)) t (fun _ hp => Place.wake_start hp) ht)
  · exact createWait t d (notifyAll_of (P := (· = .createWait d)) t (fun _ hp => Place.wake_createWait hp) hd)
  · have hwoken := called t d (notifyAll_of (P := (·.called = some d)) t (fun p hp => p.wake_called ▸ hp) hd)
    rw [notifyAll_place]
    split
    · exact Place.wake_isWoken hwoken
    · exact hwoken
  · rw [notifyAll_place, error d hd, if_neg Place.not_waits_of_returned]

/-! ### Each step -/

theorem role_goto (s : Contexts) (t : Nat) (p : Place) :
    (fun u => ((s.goto t p).place u).role) = Function.update (fun u => (s.place u).role) t p.role := by
  funext u
  simp only [Contexts.goto, Function.update_apply]
  split <;> rfl

theorem role_unlock (s : Contexts) (c t : Nat) (p : Place) :
    (fun u => ((s.unlock c t p).place u).role) = Function.update (fun u => (s.place u).role) t p.role :=
  role_goto (s.setMutex c none) t p

theorem roles_same {p : Place} (h : Roles s.size s.control s.state fun t => (s.place t).role)
    (hp : p.role = (s.place t).role) : Roles s.size s.control s.state fun u => ((s.goto t p).place u).role := by
  rw [role_goto, hp, Function.update_eq_self]
  exact h

theorem Places.goto {p : Place} (h : Places s) (herror : s.error = none) (hkind : ∀ b, p.pump = some b → (t = 0 ↔ b = true))
    (hblock : ∀ l, p = .block l → l ≠ .call ∧ s.state t ≠ .final) (hstart : p = .start → s.state t = .initial)
    (hcreate : ∀ c, p = .createWait c → s.state c = .initial)
    (hcalled : ∀ c, p.called = some c → c ≠ t ∧ (s.place c).isWoken)
    (hwoken : ∀ u, (s.place u).called = some t → u = t ∨ p.isWoken) : Places (s.goto t p) := by
  obtain ⟨kind, block, start, createWait, called, error⟩ := h
  constructor <;> simp only [Contexts.goto, Function.update_apply] <;> grind -ring -linarith -order

theorem Places.setState {x : State} (h : Places s) (hblock : ∀ l, s.place c = .block l → x ≠ .final)
    (hstart : s.place c ≠ .start) (hcreate : ∀ t, s.place t ≠ .createWait c) : Places (s.setState c x) := by
  obtain ⟨kind, block, start, createWait, called, error⟩ := h
  constructor <;> simp only [Contexts.setState, Function.update_apply] <;> grind -ring -linarith -order

theorem Places.setMutex (h : Places s) (c : Nat) (holder : Option Nat) : Places (s.setMutex c holder) :=
  ⟨h.kind, h.block, h.start, h.createWait, h.called, h.error⟩

theorem Places.setControl (h : Places s) (c : Nat) : Places { s with control := c } :=
  ⟨h.kind, h.block, h.start, h.createWait, h.called, h.error⟩

/-- A place that only its own thread knows of. -/
def Place.plain : Place → Bool
  | .start | .block _ | .createWait _ | .callZero _ | .callBlock _ => false
  | _ => true

theorem Places.plain {p : Place} (h : Places s) (herror : s.error = none) (hp : p.plain = true)
    (hkind : ∀ b, p.pump = some b → (t = 0 ↔ b = true))
    (hwoken : ∀ u, (s.place u).called = some t → u = t ∨ p.isWoken = true) : Places (s.goto t p) := by
  refine h.goto herror hkind ?_ ?_ ?_ ?_ hwoken <;> cases p <;> simp_all [Place.plain, Place.called]

/-- Taking a mutex does not change what a thread is up to. -/
theorem locks_spec {p q : Place} (h : p.locks t = some (c, q)) : q.role = p.role ∧ (∀ b, q.pump = some b → p.pump = some b) ∧
    (∀ d, q.holds t d = (p.holds t d || d = c)) ∧ (∀ l, q ≠ .block l) ∧ q ≠ .start ∧ (∀ d, q ≠ .createWait d) ∧
    (∀ d, q.called = some d → p.called = some d) ∧ (p.isWoken = true → c = t) := by
  cases p <;> simp_all [Place.locks]
  all_goals obtain ⟨rfl, rfl⟩ := h
  all_goals simp_all [Place.role, Place.pump, Place.holds, Place.called, Place.isWoken]

/-- A context that was released in `call` does not go on before its mutex is free. -/
theorem Inv.called_mutex (h : Inv s) {u : Nat} (hu : (s.place u).called = some c) : s.mutex c = some u ∧ u ≠ c := by
  have hwoken := h.places.called u c hu
  refine ⟨(h.mutex c u).mpr ?_, ?_⟩
  · cases hp : s.place u <;> grind -ring -linarith -order
  · rintro rfl
    cases hp : s.place u <;> grind -ring -linarith -order

theorem Inv.not_called (h : Inv s) (ht : (s.place t).isWoken = false) (u : Nat) : (s.place u).called ≠ some t := by
  intro hu
  have := h.places.called u t hu
  simp [ht] at this

/-- A step that takes one mutex. -/
theorem Inv.lock (h : Inv s) (herror : s.error = none) {p : Place} (hl : (s.place t).locks t = some (c, p))
    (hm : s.mutex c = none) : Inv ((s.setMutex c (some t)).goto t p) := by
  obtain ⟨hrole, hpump, hholds, hblock, hstart, hcreate, hcall, hown⟩ := locks_spec hl
  refine ⟨roles_same (s := s.setMutex c (some t)) h.roles hrole, mutex_lock h.mutex hm hholds, ?_⟩
  refine (h.places.setMutex c (some t)).goto herror (fun b hb => h.places.kind t b (hpump b hb))
    (fun l hp => absurd hp (hblock l)) (fun hp => absurd hp hstart) (fun d hd => absurd hd (hcreate d))
    (fun d hd => ⟨(h.called_mutex (hcall d hd)).2.symm, h.places.called t d (hcall d hd)⟩) fun u hu => ?_
  have hc := hown (h.places.called u t hu)
  rw [hc, (h.called_mutex hu).1] at hm
  cases hm

/-- A step to a place that only the thread knows of. -/
theorem Inv.goto (h : Inv s) (herror : s.error = none) {p : Place} (hholds : ∀ d, p.holds t d = (s.place t).holds t d)
    (hp : p.plain = true) (hkind : ∀ b, p.pump = some b → (t = 0 ↔ b = true))
    (hwoken : (s.place t).isWoken = false ∨ p.isWoken = true)
    (hroles : Roles s.size s.control s.state (Function.update (fun u => (s.place u).role) t p.role)) :
    Inv (s.goto t p) := by
  refine ⟨?_, mutex_goto h.mutex hholds, h.places.plain herror hp hkind fun u hu => ?_⟩
  · rw [role_goto]
    exact hroles
  · rcases hwoken with hw | hw
    · exact absurd hu (h.not_called hw u)
    · exact .inr hw

/-- A step that frees one mutex, and goes to a place that only the thread knows of. -/
theorem Inv.unlock (h : Inv s) (herror : s.error = none) {p : Place} (hc : (s.place t).holds t c = true)
    (hholds : ∀ d, p.holds t d = ((s.place t).holds t d && d ≠ c)) (hp : p.plain = true)
    (hkind : ∀ b, p.pump = some b → (t = 0 ↔ b = true)) (hwoken : (s.place t).isWoken = false)
    (hroles : Roles s.size s.control s.state (Function.update (fun u => (s.place u).role) t p.role)) :
    Inv (s.unlock c t p) := by
  refine ⟨?_, mutex_unlock h.mutex hc hholds, ?_⟩
  · rw [role_unlock]
    exact hroles
  · exact (h.places.setMutex c none).plain herror hp hkind fun u hu => absurd hu (h.not_called hwoken u)

/-- Who holds the mutex of `c` keeps the thread of `c` out of what it does with it. -/
theorem Inv.not_holds (h : Inv s) (ht : (s.place t).holds t c = true) (hne : c ≠ t) : (s.place c).holds c c = false := by
  have ht := (h.mutex c t).mpr ht
  have := (h.mutex c c).mpr.mt
  simpa [ht, hne.symm] using this

/-- A context that is there and not blocked, while another one that is about to release it holds its mutex, has returned
from its work. -/
theorem Inv.returned (h : Inv s) (ht : (s.place t).role = .names c) (hm : (s.place t).holds t c = true)
    (hb : s.state c ≠ .blocked) : s.place c = .returned := by
  obtain ⟨h0, hlt, hne, hf⟩ := h.roles.names t c ht
  obtain ⟨hcontrol, -⟩ := h.roles.active t (by simp only [ht]; rfl)
  have hfree := h.not_holds hm hne
  have hstart : s.place c ≠ .start := by
    intro hp
    have hs := h.places.start c hp
    rcases (h.roles.idle c (by simp only [hp]; rfl)).2.2 with ⟨-, hl⟩ | hl | ⟨hl, -⟩
    · rw [← hcontrol] at hl
      simp [ht] at hl
    · simp [hs] at hl
    · simp [hs] at hl
  rcases h.roles.idle_of_not_blocked hlt (Nat.ne_of_gt h0) (hcontrol ▸ hne) hb hf with hr | hr
  all_goals clear ht hm
  all_goals cases hp : s.place c <;> simp_all [Place.role, Place.holds]

theorem notifyAll_no_createWait (s : Contexts) (c t : Nat) : (s.notifyAll c).place t ≠ .createWait c := by
  intro hp
  have := notifyAll_waits s c t
  simp [hp, Place.waits] at this

theorem notifyAll_no_wait (s : Contexts) (c : Nat) (l : Loop) : (s.notifyAll c).place c ≠ .wait l := by
  intro hp
  have := notifyAll_waits s c c
  simp [hp, Place.waits] at this

/-- Where a thread does not wait, it stays. -/
theorem notifyAll_stays (hp : ∀ d, (s.place t).waits t d = false) : (s.notifyAll c).place t = s.place t := by
  rw [notifyAll_place, hp, if_neg Bool.false_ne_true]

theorem Roles.role_calling {u : Nat} (h : (s.place u).role = .calling c) : (s.place u).called = some c := by
  cases hp : s.place u <;> simp_all [Place.role, Place.called]
  rename_i l
  cases l <;> simp_all

/-- The context that is released, when all that wait have been woken up. -/
theorem Inv.released (h : Inv s) (h0 : 0 < c) (hlt : c < s.size) (hb : s.state c = .blocked)
    (hw : ∀ l, s.place c ≠ .wait l) : ∃ k, (s.place c).role = .asleep k false := by
  rcases h.roles.asleep_of_blocked hlt hb with ⟨k, w, hr⟩ | hr
  · refine ⟨k, ?_⟩
    cases hp : s.place c with simp only [hp, Place.role] at hr ⊢
    | wait l => exact absurd hp (hw l)
    | block l => cases l <;> simp at hr
    | woken | test => simpa using (Role.asleep.inj hr).1
    | _ => cases hr
  · exact absurd (h.roles.slept c hr).1 (Nat.ne_of_gt h0)

/-- `do_block`, after `notify_one`. -/
theorem Inv.blocked (h : Inv s) (herror : s.error = none) {l : Loop} (hp : s.place t = .block l) (hl : l ≠ .call)
    (hf : s.state t ≠ .final) (hcreate : ∀ u, s.place u ≠ .createWait t)
    (hr : (s.place t).role = .idle ∨ (s.place t).role = .parking) : Inv ((s.setState t .blocked).unlock t t (.wait l)) := by
  have hrole : (Place.wait l).role = .asleep false true := by simp [Place.role, hl]
  refine ⟨?_, mutex_unlock (s := s.setState t .blocked) h.mutex ?_ fun d => ?_, ?_⟩
  · rw [role_unlock, hrole]
    exact h.roles.block hr hf
  · simp [Contexts.setState, hp, Place.holds]
  · simp [Contexts.setState, hp, Place.holds]
  · refine ((h.places.setState (c := t) ?_ ?_ hcreate).setMutex t none).plain herror rfl nofun fun u hu => ?_
    · exact fun l _ => nofun
    · rw [hp]
      nofun
    · exact absurd hu (h.not_called (by rw [hp]; rfl) u)

/-- The pump is blocked while a coroutine exits. -/
theorem Inv.zero_blocked (h : Inv s) (hp : s.place t = .exiting) : s.state 0 = .blocked := by
  have h0 : t ≠ 0 := fun h0 => by simpa using (h.places.kind t false (by rw [hp]; rfl)).mp h0
  obtain ⟨hcontrol, -⟩ := h.roles.active t (by simp only [hp]; rfl)
  have hlt : 0 < s.size := by
    by_contra hge
    have := h.out (t := t) (by omega)
    simp [this] at hp
  have hr : (s.place s.control).role = .active := by rw [← hcontrol, hp]; rfl
  cases hr0 : (s.place 0).role with
  | out => exact absurd ((h.roles.out 0).mp hr0) (Nat.not_le_of_lt hlt)
  | active | creates | names | ends =>
    have := (h.roles.active 0 (by simp only [hr0]; rfl)).1
    exact absurd (hcontrol.trans this.symm) h0
  | asleep k w =>
    rcases (h.roles.asleep 0 k w hr0).2 with hs | ⟨-, hs, -⟩ | ⟨-, hs, -⟩
    · exact hs
    · exact absurd (hcontrol.trans hs.symm) h0
    · simp [hr, Role.finishes] at hs
  | idle => exact absurd rfl (h.roles.idle 0 hr0).1
  | parking => exact absurd rfl (h.roles.parking 0 hr0).1
  | calling c =>
    obtain ⟨-, hc, -⟩ := h.roles.calling 0 c hr0
    have := h.places.called 0 c (Roles.role_calling hr0)
    rw [hc, ← hcontrol, hp] at this
    cases this
  | slept => exact (h.roles.slept 0 hr0).2.2
  | done => exact absurd rfl (h.roles.done 0 hr0).1

section
variable (h : Inv s) (herror : s.error = none) (hb : s.state c = .blocked)
  (hcreate : ∀ u, s.place u ≠ .createWait c) (hwait : ∀ l, s.place c ≠ .wait l)
include h hb hcreate

/-- `do_release`, with nobody who waits. -/
theorem Inv.released_places (hs : ∀ l, s.place c ≠ .block l) : Places ({ s with control := c }.setState c .released) :=
  (h.places.setControl c).setState (fun l hl => absurd hl (hs l)) (fun hst => by simp [h.places.start c hst] at hb) hcreate

include herror hwait

theorem Inv.release (hp : s.place t = .releasing c) :
    Inv (({ s with control := c }.setState c .released).unlock c t (.block .yield)) := by
  have h0 : t ≠ 0 := fun h0 => by simpa using (h.places.kind t false (by rw [hp]; rfl)).mp h0
  obtain ⟨hc0, hlt, hne, -⟩ := h.roles.names t c (by simp only [hp]; rfl)
  obtain ⟨k, hk⟩ := h.released hc0 hlt hb hwait
  have hfree := h.not_holds (c := c) (t := t) (by simp [hp, Place.holds]) hne
  refine ⟨?_, mutex_unlock (s := { s with control := c }.setState c .released) h.mutex ?_ fun d => ?_, ?_⟩
  · rw [role_unlock]
    have := h.roles.release (by simp only [hp]; rfl) h0 hk
    rwa [← hk, Function.update_eq_self] at this
  · simp [Contexts.setState, hp, Place.holds]
  · simp only [Contexts.setState, hp, Place.holds]
    grind -ring -linarith -order
  · refine ((h.released_places hb hcreate ?_).setMutex c none).goto herror ?_ ?_ nofun nofun nofun fun u hu => ?_
    · intro l hl
      simp [hl, Place.holds] at hfree
    · simpa [hp, Place.pump] using h.places.kind t
    · rintro l ⟨⟩
      refine ⟨nofun, ?_⟩
      rcases (h.roles.active t (by simp only [hp]; rfl)).2 with hs | ⟨hs, -⟩
      · simp [Contexts.setMutex, Contexts.setState, hne.symm, hs]
      · exact absurd hs h0
    · exact absurd hu (h.not_called (by rw [hp]; rfl) u)

theorem Inv.call (hp : s.place t = .calling c) :
    Inv (({ s with control := c }.setState c .released).goto t (.callZero c)) := by
  obtain rfl : t = 0 := (h.places.kind t true (by rw [hp]; rfl)).mpr rfl
  obtain ⟨hc0, hlt, hne, -⟩ := h.roles.names 0 c (by simp only [hp]; rfl)
  obtain ⟨k, hk⟩ := h.released hc0 hlt hb hwait
  have hfree := h.not_holds (c := c) (t := 0) (by simp [hp, Place.holds]) hne
  refine ⟨?_, mutex_goto (s := { s with control := c }.setState c .released) h.mutex fun d => ?_, ?_⟩
  · rw [role_goto]
    have := h.roles.call (by simp only [hp]; rfl) hk
    rwa [← hk, Function.update_eq_self] at this
  · simp [Contexts.setState, hp, Place.holds]
  · refine (h.released_places hb hcreate ?_).goto herror ?_ nofun nofun nofun ?_ fun u hu => ?_
    · intro l hl
      simp [hl, Place.holds] at hfree
    · simp [Place.pump]
    · rintro d ⟨⟩
      refine ⟨hne, ?_⟩
      change (s.place c).isWoken = true
      cases hpc : s.place c <;> simp_all [Place.role, Place.holds, Place.isWoken]
    · exact absurd hu (h.not_called (by rw [hp]; rfl) u)

end

/-- `release` of `zero`, with nobody who waits. -/
theorem Inv.exit (h : Inv s) (herror : s.error = none) (hp : s.place t = .exiting) (hb : s.state 0 = .blocked)
    (hcreate : ∀ u, s.place u ≠ .createWait 0) (hwait : ∀ l, s.place 0 ≠ .wait l) :
    Inv (({ s with control := 0 }.setState 0 .released).unlock 0 t .returned) := by
  have h0 : t ≠ 0 := fun h0 => by simpa using (h.places.kind t false (by rw [hp]; rfl)).mp h0
  have hfree := h.not_holds (c := 0) (t := t) (by simp [hp, Place.holds]) h0.symm
  have hlt : 0 < s.size := by
    by_contra hge
    have := h.out (t := t) (by omega)
    simp [this] at hp
  obtain ⟨k, hk⟩ : ∃ k, (s.place 0).role = .asleep k false := by
    rcases h.roles.asleep_of_blocked hlt hb with ⟨k, w, hr⟩ | hr
    · refine ⟨k, ?_⟩
      cases hp0 : s.place 0 <;> simp_all [Place.role]
      rename_i l
      cases l <;> simp_all
    · cases hp0 : s.place 0 <;> simp_all [Place.role, Place.holds]
  refine ⟨?_, mutex_unlock (s := { s with control := 0 }.setState 0 .released) h.mutex ?_ fun d => ?_, ?_⟩
  · rw [role_unlock]
    have := h.roles.exit (by simp only [hp]; rfl) h0 hk
    rwa [← hk, Function.update_eq_self] at this
  · simp [Contexts.setState, hp, Place.holds]
  · simp [Contexts.setState, hp, Place.holds]
  · refine ((h.released_places hb hcreate ?_).setMutex 0 none).plain herror rfl ?_ fun u hu => ?_
    · intro l hl
      simp [hl, Place.holds] at hfree
    · simpa [hp, Place.pump] using h.places.kind t
    · exact absurd hu (h.not_called (by rw [hp]; rfl) u)

theorem ThreadStep.inv (h : Inv s) (herror : s.error = none) (hs : ThreadStep s t s') : Inv s' := by
  have hkind := h.places.kind t
  have hroles := h.roles
  cases hs with
  | lock hl hm => exact h.lock herror hl hm
  | loopDone hp hf =>
    refine h.unlock herror (by simp [hp, Place.holds]) (fun d => by simp [hp, Place.holds]) rfl ?_ (by rw [hp]; rfl) ?_
    · simpa [hp, Place.pump] using hkind
    · exact hroles.leave (by rw [hp]; rfl) hf
  | loop hp hf =>
    refine ⟨roles_same hroles (by rw [hp]; rfl), mutex_goto h.mutex fun d => by rw [hp]; rfl, ?_⟩
    refine h.places.goto herror (by simpa [hp, Place.pump] using hkind) ?_ (fun hs => by cases hs) (fun _ hc => by cases hc)
      (fun _ hc => by cases hc) fun u hu => ?_
    · exact fun l hl => ⟨by cases hl; decide, hf⟩
    · exact absurd hu (h.not_called (by rw [hp]; rfl) u)
  | @block l after hp hn =>
    rw [h.notified hn]
    have hpN : (s.notifyAll t).place t = .block l := by rw [notifyAll_stays (by simp [hp, Place.waits]), hp]
    obtain ⟨hl, hf⟩ := h.places.block t l hp
    have hr : ((s.notifyAll t).place t).role = .idle ∨ ((s.notifyAll t).place t).role = .parking := by
      cases l <;> simp [hpN, Place.role]
    exact (h.notifyAll t).blocked herror hpN hl hf (notifyAll_no_createWait s t) hr
  | @testBlocked l hp hb =>
    refine h.unlock herror (by simp [hp, Place.holds]) (fun d => by simp [hp, Place.holds]) rfl (fun _ hb => by cases hb) (by rw [hp]; rfl) ?_
    exact hroles.wait (by simp only [hp]; rfl) hb
  | @testFinal l hp hf =>
    have hl : l ≠ .call := by
      rintro rfl
      have h0 := ((hroles.asleep t true false (by rw [hp]; rfl)).1).mp rfl
      exact hroles.zero (h0 ▸ hf)
    have hne : t ≠ 0 := by
      intro h0
      have := ((hroles.asleep t (l = .call) false (by rw [hp]; rfl)).1).mpr h0
      exact hl (of_decide_eq_true this)
    have hr : (s.place t).role = .asleep false false := by simp [hp, Place.role, hl]
    refine h.unlock herror (by simp [hp, Place.holds]) (fun d => ?_) ?_ (fun b hb => ?_) (by rw [hp]; rfl)
      (hroles.unwind hr hf ?_)
    all_goals cases l <;> simp_all [Loop.unwind, Place.holds, Place.plain, Place.pump, Place.role]
  | @test l hp hb hf =>
    refine h.unlock herror (by simp [hp, Place.holds]) (fun d => by simp [hp, Place.holds]) rfl (fun _ hb => by cases hb) (by rw [hp]; rfl) ?_
    refine hroles.run (by simp only [hp]; rfl) hb hf fun hz => ?_
    exact h.not_called (by rw [hp]; rfl) 0 (Roles.role_calling hz)
  | @error c hp hb =>
    refine ⟨hroles, h.mutex, h.places.kind, h.places.block, h.places.start, h.places.createWait, h.places.called, ?_⟩
    rintro d ⟨⟩
    rcases hp with hp | ⟨hp, rfl⟩ | hp
    · exact h.returned (t := t) (by rw [hp]; rfl) (by simp [hp, Place.holds]) hb
    · exact absurd (h.zero_blocked hp) hb
    · exact h.returned (t := t) (by rw [hp]; rfl) (by simp [hp, Place.holds]) hb
  | @release c after hp hb hn =>
    have hpN : (s.notifyAll c).place t = .releasing c := by rw [notifyAll_stays (by simp [hp, Place.waits]), hp]
    rw [h.notified hn]
    exact (h.notifyAll c).release herror hb (notifyAll_no_createWait s c) (notifyAll_no_wait s c) hpN
  | @exit after hp hb hn =>
    have hpN : (s.notifyAll 0).place t = .exiting := by rw [notifyAll_stays (by simp [hp, Place.waits]), hp]
    rw [h.notified hn]
    exact (h.notifyAll 0).exit herror hpN hb (notifyAll_no_createWait s 0) (notifyAll_no_wait s 0)
  | @call c after hp hb hn =>
    have hpN : (s.notifyAll c).place t = .calling c := by rw [notifyAll_stays (by simp [hp, Place.waits]), hp]
    rw [h.notified hn]
    exact (h.notifyAll c).call herror hb (notifyAll_no_createWait s c) (notifyAll_no_wait s c) hpN
  | @created c hp hb =>
    refine h.unlock herror (by simp [hp, Place.holds]) (fun d => by simp [hp, Place.holds]) rfl (fun _ hb => by cases hb) (by rw [hp]; rfl) ?_
    exact hroles.created (by simp only [hp]; rfl) hb
  | @creating c hp hb =>
    have hc := hroles.creates t c (by simp only [hp]; rfl)
    refine ⟨?_, mutex_unlock h.mutex (by simp [hp, Place.holds]) fun d => by simp [hp, Place.holds], ?_⟩
    · exact roles_same (s := s.setMutex c none) hroles (by simp only [Contexts.setMutex, hp]; rfl)
    · refine (h.places.setMutex c none).goto herror (fun _ hb => by cases hb) (fun _ hl => by cases hl)
        (fun hs => by cases hs) ?_ (fun _ hc => by cases hc) fun u hu => ?_
      · rintro d ⟨⟩
        exact hc.2.2.2.resolve_right hb
      · exact absurd hu (h.not_called (by rw [hp]; rfl) u)
  | @callBlock c hp =>
    obtain rfl : t = 0 := (hkind true (by rw [hp]; rfl)).mpr rfl
    refine ⟨?_, mutex_unlock (s := s.setState 0 .blocked) h.mutex ?_ fun d => ?_, ?_⟩
    · rw [role_unlock]
      exact hroles.callBlock (by simp only [hp]; rfl)
    · simp [Contexts.setState, hp, Place.holds]
    · have hc := (hroles.calling 0 c (by simp only [hp]; rfl)).2.2.1
      simp only [Contexts.setState, hp, Place.holds]
      grind -ring -linarith -order
    · refine ((h.places.setState (c := 0) ?_ ?_ fun u hu => ?_).setMutex c none).plain herror rfl ?_ fun u hu => ?_
      · exact fun l _ => by decide
      · rw [hp]
        simp
      · exact absurd rfl (Nat.ne_of_gt (hroles.creates u 0 (by simp only [hu]; rfl)).1)
      · simp [Place.pump]
      · exact absurd hu (h.not_called (by rw [hp]; rfl) u)
  | callSleep hp =>
    obtain rfl : t = 0 := (hkind true (by rw [hp]; rfl)).mpr rfl
    refine h.unlock herror (by simp [hp, Place.holds]) (fun d => by simp [hp, Place.holds]) rfl (fun _ hb => by cases hb) (by rw [hp]; rfl) ?_
    exact hroles.callSleep (by simp only [hp]; rfl)
  | @finishing c hp =>
    have hnames := hroles.names t c (by simp only [hp]; rfl)
    have hcontrol := (hroles.active t (by simp only [hp]; rfl)).1
    have hfree := h.not_holds (c := c) (t := t) (by simp [hp, Place.holds]) hnames.2.2.1
    refine ⟨?_, mutex_unlock (s := s.setState c .final) h.mutex ?_ fun d => ?_, ?_⟩
    · rw [role_unlock]
      refine hroles.finishing (by simp only [hp]; rfl) fun hr => ?_
      cases hpc : s.place c <;> simp_all [Place.role, Place.holds]
    · simp [Contexts.setState, hp, Place.holds]
    · simp [Contexts.setState, hp, Place.holds]
    · refine ((h.places.setState (c := c) ?_ ?_ fun u hu => ?_).setMutex c none).plain herror rfl ?_ fun u hu => ?_
      · intro l hl
        simp [hl, Place.holds] at hfree
      · intro hstart
        have hs := h.places.start c hstart
        have hi := (hroles.idle c (by simp only [hstart]; rfl)).2.2
        rw [← hcontrol] at hi
        simp [hs, hp, Place.role] at hi
      · have hu' := (hroles.active u (by simp only [hu]; rfl)).1
        rw [hu', ← hcontrol, hp] at hu
        cases hu
      · simpa [hp, Place.pump] using hkind
      · exact absurd hu (h.not_called (by rw [hp]; rfl) u)
  | @notifyAll c hp =>
    have hpN : (s.notifyAll c).place t = .notifyAll c := by rw [notifyAll_stays (by simp [hp, Place.waits]), hp]
    refine (h.notifyAll c).goto herror (fun d => by rw [hpN]; rfl) rfl ?_ (.inl (by rw [hpN]; rfl)) ?_
    · simpa [hp, Place.pump] using hkind
    · refine (h.notifyAll c).roles.notified (by simp only [hpN]; rfl) fun k hk => ?_
      have hw := notifyAll_no_wait s c
      cases hpc : (s.notifyAll c).place c <;> simp_all [Place.role]
      rename_i l
      cases l <;> simp_all
  | @join c hp hd =>
    refine h.goto herror (fun d => by simp [hp, Place.holds]) rfl (fun _ hb => by cases hb) (.inl (by rw [hp]; rfl)) ?_
    exact hroles.join (by simp only [hp]; rfl) (by simp only [hd]; rfl)

theorem OtherStep.inv (h : Inv s) (herror : s.error = none) (hs : OtherStep s s') : Inv s' := by
  cases hs with
  | yieldSelf => exact h
  | @yield t c hp ht hc hne =>
    refine h.goto herror (fun d => by rw [hp]; rfl) rfl ?_ (.inl (by rw [hp]; rfl)) ?_
    · simp [Place.pump, ht]
    · exact h.roles.name (by simp only [hp]; rfl) hc.1 hc.2.1 hne hc.2.2
  | @create t hp =>
    have hplace : s.place s.size = .none := h.out (Nat.le_refl _)
    have hfresh := h.roles.fresh s.size (Nat.le_refl _)
    have hne : t ≠ s.size := fun ht => by simp [ht, hplace] at hp
    have hne0 : s.size ≠ 0 := fun h0 => by
      have := h.out (t := t) (h0 ▸ Nat.zero_le t)
      simp [this] at hp
    have hmutex := mutex_goto (t := s.size) (p := .start) h.mutex fun d => by rw [hplace]; rfl
    have hp' : (s.goto s.size .start).place t = .user := by simp [Contexts.goto, hne, hp]
    refine ⟨?_, mutex_goto (s := { s with size := s.size + 1 }.goto s.size .start) hmutex fun d => ?_, ?_⟩
    · rw [role_goto, role_goto (s := { s with size := s.size + 1 })]
      exact h.roles.create (by simp only [hp]; rfl)
    · change Place.holds _ t d = ((s.goto s.size .start).place t).holds t d
      rw [hp']
      rfl
    · have hplaces : Places (s.goto s.size .start) :=
        h.places.goto herror (by simp [Place.pump, hne0]) nofun (fun _ => hfresh) nofun nofun fun u hu =>
          absurd hu (h.not_called (by rw [hplace]; rfl) u)
      have hcalled : ∀ u, ((s.goto s.size .start).place u).called = some t → u = t := by
        intro u hu
        have := hplaces.called u t hu
        simp [hp', Place.isWoken] at this
      have hlast := hplaces.plain herror (p := .create s.size) (t := t) rfl nofun fun u hu => .inl (hcalled u hu)
      exact ⟨hlast.kind, hlast.block, hlast.start, hlast.createWait, hlast.called, hlast.error⟩
  | @exit t hp ht =>
    refine h.goto herror (fun d => by rw [hp]; rfl) rfl ?_ (.inl (by rw [hp]; rfl)) ?_
    · simp [Place.pump, ht]
    · have hr : Place.exit.role = (s.place t).role := by rw [hp]; rfl
      rw [hr, Function.update_eq_self]
      exact h.roles
  | @call t c hp ht hc =>
    refine h.goto herror (fun d => by rw [hp]; rfl) rfl ?_ (.inl (by rw [hp]; rfl)) ?_
    · simp [Place.pump, ht]
    · exact h.roles.name (by simp only [hp]; rfl) hc.1 hc.2.1 (ht ▸ Nat.ne_of_gt hc.1) hc.2.2
  | @finish t c hp ht hc =>
    refine h.goto herror (fun d => by rw [hp]; rfl) rfl ?_ (.inl (by rw [hp]; rfl)) ?_
    · simp [Place.pump, ht]
    · exact h.roles.name (by simp only [hp]; rfl) hc.1 hc.2.1 (ht ▸ Nat.ne_of_gt hc.1) hc.2.2
  | @spurious t l hp =>
    refine h.goto herror (fun d => by rw [hp]; rfl) rfl nofun (.inr rfl) ?_
    exact h.roles.wake (by simp only [hp]; rfl)
  | @spuriousCreate t c hp =>
    refine h.goto herror (fun d => by rw [hp]; rfl) rfl nofun (.inl (by rw [hp]; rfl)) ?_
    have hr : (Place.createWoken c).role = (s.place t).role := by rw [hp]; rfl
    rw [hr, Function.update_eq_self]
    exact h.roles

theorem step_inv (h : Inv s) (hs : step s a = some s') : Inv s' := by
  obtain ⟨herror, ⟨t, -, hs⟩ | ⟨-, hs⟩⟩ := step_cases (fun t => h.out) hs
  · exact hs.inv h herror
  · exact hs.inv h herror

theorem reach_inv (h : Reach step Contexts.init s) : Inv s := h.invariant step_inv init_inv

end Dezyne.Context
