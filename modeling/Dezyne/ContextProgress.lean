import Dezyne.ContextRun
/-!
# What contexts come to

Every step towards a hand-over lowers a measure and keeps the context that was asked for. Where
no step is left, that context has the control and runs its work.
-/

namespace Dezyne.Context

open Interleave

variable {s s' : Contexts} {a : Action} {t c : Nat} {w : Option Nat}

/-! ## The steps that are left -/

def State.isFinal : State → Bool
  | .final => true
  | _ => false

theorem State.isFinal_eq_false {x : State} (h : x ≠ .final) : x.isFinal = false := by
  cases x <;> simp_all [State.isFinal]

/-- How many steps a thread may still take before it waits or runs the work, with those of the threads that it wakes up. -/
def Place.weight (p : Place) (final : Bool) : Nat :=
  match p with
  | .none | .user | .done | .wait _ | .createWait _ => 0
  | .test _ => if final then 3 else 1
  | .woken _ => if final then 4 else 2
  | .loop => if final then 1 else 4
  | .returned => if final then 2 else 5
  | .start => 5
  | .block _ => 3
  | .creating _ => 1
  | .create _ | .createWoken _ => 2
  | .releasing _ => 6
  | .release _ => 7
  | .yield _ => 8
  | .exiting => 8
  | .exit => 9
  | .callSleep => 1
  | .callBlock _ => 2
  | .callZero _ => 3
  | .calling _ => 6
  | .call _ => 7
  | .join _ => 1
  | .notifyAll _ => 6
  | .finishing _ => 9
  | .finish _ => 10

def Contexts.weight (s : Contexts) (t : Nat) : Nat := (s.place t).weight (s.state t).isFinal

def Contexts.measure (s : Contexts) : Nat :=
  ∑ t ∈ Finset.range s.size, s.weight t + s.error.elim 1 fun _ => 0

theorem sum_change {f g : Nat → Nat} {n i : Nat} (hi : i < n) (h : ∀ j, j ≠ i → f j = g j) :
    ∑ j ∈ Finset.range n, f j + g i = ∑ j ∈ Finset.range n, g j + f i := by
  have hmem : i ∈ Finset.range n := Finset.mem_range.mpr hi
  rw [← Finset.add_sum_erase _ _ hmem, ← Finset.add_sum_erase _ g hmem,
    Finset.sum_congr rfl fun j hj => h j (Finset.ne_of_mem_erase hj)]
  simp only [Nat.add_comm, Nat.add_left_comm]

theorem measure_goto (ht : t < s.size) (p : Place) :
    (s.goto t p).measure + s.weight t = s.measure + p.weight (s.state t).isFinal := by
  have hsum := sum_change (f := (s.goto t p).weight) (g := s.weight) ht fun u hu => by
    simp [Contexts.weight, Contexts.goto, hu]
  have hnew : (s.goto t p).weight t = p.weight (s.state t).isFinal := by simp [Contexts.weight, Contexts.goto]
  have hrest : (s.goto t p).size = s.size ∧ (s.goto t p).error = s.error := ⟨rfl, rfl⟩
  simp only [Contexts.measure, hrest]
  omega

theorem measure_setState (hc : c < s.size) (x : State) :
    (s.setState c x).measure + s.weight c = s.measure + (s.place c).weight x.isFinal := by
  have hsum := sum_change (f := (s.setState c x).weight) (g := s.weight) hc fun u hu => by
    simp [Contexts.weight, Contexts.setState, hu]
  have hnew : (s.setState c x).weight c = (s.place c).weight x.isFinal := by
    simp [Contexts.weight, Contexts.setState]
  have hrest : (s.setState c x).size = s.size ∧ (s.setState c x).error = s.error := ⟨rfl, rfl⟩
  simp only [Contexts.measure, hrest]
  omega

/-- One thread at most is woken up. -/
theorem Inv.notifyAll_cases (h : Inv s) (c : Nat) :
    s.notifyAll c = s ∨ ∃ u, (s.place u).waits u c = true ∧ s.notifyAll c = s.goto u (s.place u).wake := by
  by_cases hw : ∃ u, (s.place u).waits u c = true
  · obtain ⟨u, hu⟩ := hw
    refine .inr ⟨u, hu, ?_⟩
    have hplace : (s.notifyAll c).place = (s.goto u (s.place u).wake).place := by
      funext t
      simp only [notifyAll_place, Contexts.goto, Function.update_apply]
      rcases eq_or_ne t u with rfl | ht
      · rw [if_pos hu, if_pos rfl]
      · rw [if_neg fun hw => ht (h.waits_unique hw hu), if_neg ht]
    exact congrArg (fun place => { s with place := place }) hplace
  · left
    have hplace : (s.notifyAll c).place = s.place := by
      funext t
      rw [notifyAll_place, if_neg fun hw' => hw ⟨t, hw'⟩]
    exact congrArg (fun place => { s with place := place }) hplace

theorem wake_weight {p : Place} (hp : p.waits t c = true) (final : Bool) :
    p.wake.weight final ≤ p.weight final + if final then 4 else 2 := by
  cases p <;> cases final <;> simp_all [Place.waits, Place.wake, Place.weight]

theorem Inv.lt_of_waits (h : Inv s) (ht : (s.place t).waits t c = true) : t < s.size := by
  by_contra hge
  simp [h.out (Nat.le_of_not_lt hge), Place.waits] at ht

/-- What `notify_one` and `notify_all` add to the steps that are left. -/
theorem Inv.notifyAll_measure (h : Inv s) (c : Nat) :
    (s.notifyAll c).measure ≤ s.measure + if (s.state c).isFinal then 4 else 2 := by
  rcases h.notifyAll_cases c with heq | ⟨u, hu, heq⟩
  · rw [heq]
    exact Nat.le_add_right ..
  · have hm := measure_goto (h.lt_of_waits hu) (s.place u).wake
    have hw := wake_weight hu (s.state u).isFinal
    rw [heq]
    simp only [Contexts.weight] at hm
    have hf : (s.state u).isFinal = true → (s.state c).isFinal = true := by
      intro hf
      cases hp : s.place u with simp only [hp, Place.waits, Bool.false_eq_true, decide_eq_true_eq] at hu
      | wait l => exact hu ▸ hf
      | createWait d =>
        rcases (h.roles.active u (by simp only [hp]; rfl)).2 with hs | ⟨-, hs⟩ <;> simp [hs, State.isFinal] at hf
    cases hfc : (s.state c).isFinal <;> cases hfu : (s.state u).isFinal <;> simp_all <;> omega

theorem goto_lt (ht : t < s.size) {p : Place} (hw : p.weight (s.state t).isFinal < s.weight t) :
    (s.goto t p).measure < s.measure := by
  have := measure_goto ht p
  omega

theorem unlock_lt (ht : t < s.size) {p : Place} (hw : p.weight (s.state t).isFinal < s.weight t) :
    (s.unlock c t p).measure < s.measure :=
  goto_lt (s := s.setMutex c none) ht hw

/-- A step that gives a state to a context whose thread is not in a hurry. -/
theorem setState_measure (hc : c < s.size) {x : State} (hx : x ≠ .final) (hf : s.state c ≠ .final) :
    (s.setState c x).measure = s.measure := by
  have := measure_setState hc x
  rw [Contexts.weight, State.isFinal_eq_false hx, State.isFinal_eq_false hf] at this
  omega

theorem locks_weight {p q : Place} (h : p.locks t = some (c, q)) (final : Bool) : q.weight final < p.weight final := by
  cases p <;> simp_all [Place.locks]
  all_goals obtain ⟨rfl, rfl⟩ := h
  all_goals cases final <;> simp [Place.weight]

theorem Inv.lt_size (h : Inv s) (ht : s.place t ≠ .none) : t < s.size := by
  by_contra hge
  exact ht (h.out (Nat.le_of_not_lt hge))

theorem ThreadStep.lt_size (h : Inv s) (hs : ThreadStep s t s') : t < s.size := by
  refine h.lt_size fun hnone => ?_
  cases hs <;> simp_all [Place.locks]

/-- The steps that notify: after it, a state changes and the thread goes on. -/
theorem Inv.release_measure (h : Inv s) (ht : t < s.size) (hc : c < s.size) (hne : t ≠ c) (hb : s.state c = .blocked)
    (hw : ∀ d, (s.place t).waits t d = false) {p : Place} (hp : p.weight (s.state t).isFinal + 2 < s.weight t) :
    ((({ s.notifyAll c with control := c }).setState c .released).goto t p).measure < s.measure := by
  have hN := h.notifyAll_measure c
  have hs : (({ s.notifyAll c with control := c }).setState c .released).measure = (s.notifyAll c).measure :=
    setState_measure (s := { s.notifyAll c with control := c }) hc nofun (by simp [Contexts.notifyAll, hb])
  have hg := measure_goto (s := ({ s.notifyAll c with control := c }).setState c .released) ht p
  have hplace : (({ s.notifyAll c with control := c }).setState c .released).weight t = s.weight t := by
    have : (s.notifyAll c).place t = s.place t := notifyAll_stays hw
    simp [Contexts.weight, Contexts.setState, this, hne]
    rfl
  have hstate : (({ s.notifyAll c with control := c }).setState c .released).state t = s.state t := by
    simp [Contexts.setState, hne]
    rfl
  rw [hstate] at hg
  simp only [hb, State.isFinal, Bool.false_eq_true, if_false] at hN
  omega

theorem ThreadStep.measure_lt (h : Inv s) (herror : s.error = none) (hs : ThreadStep s t s') :
    s'.measure < s.measure := by
  have hlt := hs.lt_size h
  have hroles := h.roles
  cases hs with
  | @lock c p hl hm => exact goto_lt (s := s.setMutex c (some t)) hlt (locks_weight hl _)
  | loopDone hp hf => exact unlock_lt hlt (by simp [Contexts.weight, hp, hf, Place.weight, State.isFinal])
  | loop hp hf =>
    exact goto_lt hlt (by simp [Contexts.weight, hp, State.isFinal_eq_false hf, Place.weight])
  | @block l after hp hn =>
    have hf := (h.places.block t l hp).2
    have hN := h.notifyAll_measure t
    have hstay : (s.notifyAll t).place t = s.place t := notifyAll_stays (by simp [hp, Place.waits])
    rw [h.notified hn]
    have hs := setState_measure (s := s.notifyAll t) (x := .blocked) hlt nofun hf
    have hg := measure_goto (s := ((s.notifyAll t).setState t .blocked).setMutex t none) hlt (.wait l)
    have hw : (((s.notifyAll t).setState t .blocked).setMutex t none).weight t = 3 := by
      simp only [Contexts.weight, Contexts.setMutex, Contexts.setState, hstay, hp]
      rfl
    change (((s.notifyAll t).setState t .blocked).setMutex t none).measure = _ at hs
    change ((((s.notifyAll t).setState t .blocked).setMutex t none).goto t (.wait l)).measure < _
    have hzero : ∀ f, (Place.wait l).weight f = 0 := fun f => rfl
    rw [hzero] at hg
    simp only [State.isFinal_eq_false hf, Bool.false_eq_true, if_false] at hN
    omega
  | testBlocked hp hb => exact unlock_lt hlt (by simp [Contexts.weight, hp, hb, Place.weight, State.isFinal])
  | @testFinal l hp hf =>
    exact unlock_lt hlt (by cases l <;> simp [Contexts.weight, hp, hf, Place.weight, State.isFinal, Loop.unwind])
  | test hp hb hf =>
    exact unlock_lt hlt (by simp [Contexts.weight, hp, State.isFinal_eq_false hf, Place.weight])
  | error hp hb =>
    simp only [Contexts.measure, herror, Option.elim_none, Option.elim_some]
    exact Nat.lt_succ_self _
  | @release c after hp hb hn =>
    have hnames := hroles.names t c (by simp only [hp]; rfl)
    rw [h.notified hn]
    exact h.release_measure hlt hnames.2.1 hnames.2.2.1.symm hb (by simp [hp, Place.waits])
      (by simp [Contexts.weight, hp, Place.weight])
  | @exit after hp hb hn =>
    have h0 : t ≠ 0 := fun h0 => by simpa using (h.places.kind t false (by rw [hp]; rfl)).mp h0
    have hf : s.state t ≠ .final := by
      rcases (hroles.active t (by simp only [hp]; rfl)).2 with hs | ⟨-, hs⟩ <;> simp [hs]
    rw [h.notified hn]
    exact h.release_measure hlt (Nat.zero_lt_of_lt hlt) h0 hb (by simp [hp, Place.waits])
      (by simp [Contexts.weight, hp, State.isFinal_eq_false hf, Place.weight])
  | @call c after hp hb hn =>
    have hnames := hroles.names t c (by simp only [hp]; rfl)
    rw [h.notified hn]
    exact h.release_measure hlt hnames.2.1 hnames.2.2.1.symm hb (by simp [hp, Place.waits])
      (by simp [Contexts.weight, hp, Place.weight])
  | created hp hb => exact unlock_lt hlt (by simp [Contexts.weight, hp, Place.weight])
  | creating hp hb => exact unlock_lt hlt (by simp [Contexts.weight, hp, Place.weight])
  | @callBlock c hp =>
    obtain rfl : t = 0 := (h.places.kind t true (by rw [hp]; rfl)).mpr rfl
    have hs := setState_measure (s := s) (c := 0) (x := .blocked) hlt nofun hroles.zero
    have hg := unlock_lt (s := s.setState 0 .blocked) (c := c) (t := 0) (p := .callSleep) hlt
      (by simp [Contexts.weight, Contexts.setState, hp, Place.weight])
    omega
  | callSleep hp => exact unlock_lt hlt (by simp [Contexts.weight, hp, Place.weight])
  | @finishing c hp =>
    obtain ⟨h0, hc, hne, hf⟩ := hroles.names t c (by simp only [hp]; rfl)
    have hfree := h.not_holds (c := c) (t := t) (by simp [hp, Place.holds]) hne
    have hs := measure_setState hc .final
    have hg := measure_goto (s := (s.setState c .final).setMutex c none) hlt (.notifyAll c)
    have hsize : (s.place c).weight true ≤ s.weight c + 2 := by
      have hactive := hroles.active c
      cases hpc : s.place c <;> simp_all [Contexts.weight, Place.weight, Place.holds, State.isFinal_eq_false, Place.role,
        Role.isActive]
    have hw : ((s.setState c .final).setMutex c none).weight t = 9 := by
      simp only [Contexts.weight, Contexts.setMutex, Contexts.setState, hp]
      rfl
    change ((s.setState c .final).setMutex c none).measure + _ = _ at hs
    change (((s.setState c .final).setMutex c none).goto t (.notifyAll c)).measure < _
    rw [hw, show Place.weight (.notifyAll c) _ = 6 from rfl] at hg
    rw [show State.final.isFinal = true from rfl] at hs
    omega
  | @notifyAll c hp =>
    have hN := h.notifyAll_measure c
    have hstay : (s.notifyAll c).place t = s.place t := notifyAll_stays (by simp [hp, Place.waits])
    have hg := measure_goto (s := s.notifyAll c) hlt (.join c)
    rw [show (s.notifyAll c).weight t = 6 by simp [Contexts.weight, hstay, hp, Place.weight],
      show Place.weight (.join c) _ = 1 from rfl] at hg
    split at hN <;> omega
  | join hp hd => exact goto_lt hlt (by simp [Contexts.weight, hp, Place.weight])

theorem own_measure_lt (h : Inv s) (ha : Own a) (hs : step s a = some s') : s'.measure < s.measure := by
  obtain ⟨herror, ⟨t, -, hs⟩ | ⟨hne, -⟩⟩ := step_cases (fun t => h.out) hs
  · exact hs.measure_lt h herror
  · exact absurd ha hne

/-! ## Who is to get the control -/

/-- The context that a thread is about to release. -/
def Place.next : Place → Option Nat
  | .yield c | .release c | .releasing c | .call c | .calling c => some c
  | .exit | .exiting => some 0
  | _ => Option.none

/-- The context that was asked for last. -/
def Contexts.next (s : Contexts) : Nat := (s.place s.control).next.getD s.control

theorem wake_next (p : Place) : p.wake.next = p.next := by
  cases p <;> rfl

theorem locks_next {p q : Place} (h : p.locks t = some (c, q)) : q.next = p.next := by
  cases p <;> simp_all [Place.locks]
  all_goals obtain ⟨rfl, rfl⟩ := h
  all_goals rfl

theorem next_goto {p : Place} (hp : p.next = (s.place t).next) : (s.goto t p).next = s.next := by
  simp only [Contexts.next, Contexts.goto, Function.update_apply]
  split
  next ht => rw [hp, ht]
  next => rfl

theorem notifyAll_next (s : Contexts) (c : Nat) : (s.notifyAll c).next = s.next := by
  have : ∀ t, ((s.notifyAll c).place t).next = (s.place t).next := by
    intro t
    rw [notifyAll_place]
    split
    · exact wake_next _
    · rfl
  unfold Contexts.next
  rw [show (s.notifyAll c).control = s.control from rfl, this]

theorem Inv.next_eq (h : Inv s) (ha : (s.place t).role.isActive = true) (hn : (s.place t).next = some c) : s.next = c := by
  rw [Contexts.next, ← (h.roles.active t ha).1, hn, Option.getD_some]

/-- Who has been released is asked for by nobody else. -/
theorem Inv.release_next (h : Inv s) {p : Place} (hne : c ≠ t) (hc : c < s.size) (hb : s.state c = .blocked) :
    ((({ s.notifyAll c with control := c }).setState c .released).goto t p).next = c := by
  have hplace : ((s.notifyAll c).place c).next = none := by
    rcases (h.notifyAll c).roles.asleep_of_blocked hc hb with ⟨k, w, hr⟩ | hr
    · cases hp : (s.notifyAll c).place c <;> simp_all [Place.role, Place.next]
    · cases hp : (s.notifyAll c).place c <;> simp_all [Place.role, Place.next]
  simp only [Contexts.next, Contexts.goto, Contexts.setState, Function.update_of_ne hne, hplace, Option.getD_none]

theorem ThreadStep.next (h : Inv s) (hs : ThreadStep s t s') (herror : s'.error = none) : s'.next = s.next := by
  have hactive := h.roles.active t
  cases hs with
  | lock hl hm => exact next_goto (s := s.setMutex _ _) (locks_next hl)
  | loopDone hp hf => exact next_goto (s := s.setMutex _ _) (by simp only [Contexts.setMutex, hp]; rfl)
  | loop hp hf => exact next_goto (by rw [hp]; rfl)
  | @block l after hp hn =>
    have hstay : (s.notifyAll t).place t = s.place t := notifyAll_stays (by simp [hp, Place.waits])
    rw [h.notified hn]
    refine (next_goto (s := ((s.notifyAll t).setState t .blocked).setMutex t none) ?_).trans (notifyAll_next s t)
    simp only [Contexts.setMutex, Contexts.setState, hstay, hp]
    rfl
  | testBlocked hp hb => exact next_goto (s := s.setMutex _ _) (by simp only [Contexts.setMutex, hp]; rfl)
  | @testFinal l hp hf =>
    exact next_goto (s := s.setMutex _ _) (by simp only [Contexts.setMutex, hp]; cases l <;> rfl)
  | test hp hb hf => exact next_goto (s := s.setMutex _ _) (by simp only [Contexts.setMutex, hp]; rfl)
  | error hp hb => cases herror
  | @release c after hp hb hn =>
    have hnames := h.roles.names t c (by simp only [hp]; rfl)
    rw [h.notified hn]
    exact (h.release_next hnames.2.2.1 hnames.2.1 hb).trans (h.next_eq (by rw [hp]; rfl) (by rw [hp]; rfl)).symm
  | @exit after hp hb hn =>
    have h0 : t ≠ 0 := fun h0 => by simpa using (h.places.kind t false (by rw [hp]; rfl)).mp h0
    have hlt := h.lt_size (t := t) (by simp [hp])
    rw [h.notified hn]
    exact (h.release_next h0.symm (by omega) hb).trans (h.next_eq (by rw [hp]; rfl) (by rw [hp]; rfl)).symm
  | @call c after hp hb hn =>
    have hnames := h.roles.names t c (by simp only [hp]; rfl)
    rw [h.notified hn]
    exact (h.release_next hnames.2.2.1 hnames.2.1 hb).trans (h.next_eq (by rw [hp]; rfl) (by rw [hp]; rfl)).symm
  | created hp hb => exact next_goto (s := s.setMutex _ _) (by simp only [Contexts.setMutex, hp]; rfl)
  | creating hp hb => exact next_goto (s := s.setMutex _ _) (by simp only [Contexts.setMutex, hp]; rfl)
  | @callBlock c hp => exact next_goto (s := (s.setState 0 .blocked).setMutex c none) (by
      simp only [Contexts.setMutex, Contexts.setState, hp]; rfl)
  | callSleep hp => exact next_goto (s := s.setMutex _ _) (by simp only [Contexts.setMutex, hp]; rfl)
  | @finishing c hp => exact next_goto (s := (s.setState c .final).setMutex c none) (by
      simp only [Contexts.setMutex, Contexts.setState, hp]; rfl)
  | @notifyAll c hp =>
    have hstay : (s.notifyAll c).place t = s.place t := notifyAll_stays (by simp [hp, Place.waits])
    exact (next_goto (by rw [hstay, hp]; rfl)).trans (notifyAll_next s c)
  | join hp hd => exact next_goto (by rw [hp]; rfl)

theorem own_next (h : Inv s) (ha : Own a) (hs : step s a = some s') (herror : s'.error = none) : s'.next = s.next := by
  obtain ⟨-, ⟨t, -, hs⟩ | ⟨hne, -⟩⟩ := step_cases (fun t => h.out) hs
  · exact hs.next h herror
  · exact absurd ha hne

/-! ## States in which no thread takes a step -/

def Stuck (s : Contexts) : Prop := ∀ t w, s.stepThread t w = none

theorem stuck_of_quiet (he : s.error = none) (hq : Quiet step Own s) : Stuck s := by
  intro t w
  simpa [step, he] using hq (.thread t w) trivial

theorem exists_notifyOne (s : Contexts) (c : Nat) : ∃ w s', s.notifyOne c w = some s' := by
  by_cases hw : ∃ t < s.size, (s.place t).waits t c = true
  · obtain ⟨t, -, ht⟩ := hw
    exact ⟨some t, _, if_pos ht⟩
  · refine ⟨none, s, if_pos fun t ht => ?_⟩
    simpa using fun h => hw ⟨t, ht, h⟩

theorem exists_doRelease (s : Contexts) (c : Nat) : ∃ w s', s.doRelease c w = some s' := by
  unfold Contexts.doRelease
  split
  · exact ⟨none, _, rfl⟩
  · exact exists_notifyOne _ c

/-- Where a thread is that takes no step. -/
theorem Stuck.cases (hq : Stuck s) (t : Nat) : s.place t = .none ∨ s.place t = .user ∨ s.place t = .done ∨
    (∃ l, s.place t = .wait l) ∨ (∃ c, s.place t = .createWait c) ∨
    (∃ c, s.place t = .join c ∧ s.place c ≠ .done) ∨ ∃ c p, (s.place t).locks t = some (c, p) ∧ s.mutex c ≠ none := by
  have hs := hq t
  have hlock : ∀ {c p}, (∀ w, s.stepThread t w = s.lock c t p) → s.mutex c ≠ none := by
    intro c p hstep hm
    have := hs none
    simp [hstep, Contexts.lock, hm] at this
  have hrelease : ∀ {c f}, (∀ w, s.stepThread t w = (s.doRelease c w).map f) → False := by
    intro c f hstep
    obtain ⟨w, s', hw⟩ := exists_doRelease s c
    have := hs w
    simp [hstep, hw] at this
  unfold Contexts.stepThread at hs hlock hrelease
  cases hp : s.place t with simp only [hp] at hs hlock hrelease
  | none => simp
  | user => simp
  | done => simp
  | wait l => simp
  | createWait c => simp
  | join c =>
    refine .inr (.inr (.inr (.inr (.inr (.inl ⟨c, rfl, fun hd => ?_⟩)))))
    simpa [hd] using hs none
  | start | returned | woken l | yield c | release c | exit | create c | createWoken c | call c | callZero c | finish c =>
    exact .inr (.inr (.inr (.inr (.inr (.inr ⟨_, _, rfl, hlock fun w => rfl⟩)))))
  | releasing c | exiting | calling c => exact (hrelease fun w => rfl).elim
  | block l =>
    obtain ⟨w, s', hw⟩ := exists_notifyOne (s.setState t .blocked) t
    simpa [hw] using hs w
  | loop => have := hs none; split at this <;> simp at this
  | test l => have := hs none; split at this <;> (try split at this) <;> simp at this
  | creating c => have := hs none; split at this <;> simp at this
  | callBlock | callSleep | finishing | notifyAll => simpa using hs none

/-- A thread that holds a mutex and takes no step wants another one: it is in `yield`, or in `call`. -/
theorem Stuck.holds (h : Inv s) (hq : Stuck s) {u : Nat} (hm : s.mutex c = some u) :
    (∃ d, s.place u = .release d ∧ c = u ∧ s.mutex d ≠ none) ∨ s.place u = .callZero c ∧ s.mutex 0 ≠ none := by
  have hholds := (h.mutex c u).mp hm
  rcases hq.cases u with hp | hp | hp | ⟨l, hp⟩ | ⟨d, hp⟩ | ⟨d, hp, -⟩ | ⟨d, p, hl, hd⟩
  all_goals try simp [hp, Place.holds] at hholds
  cases hp : s.place u <;> simp_all [Place.holds, Place.locks]

/-- The mutexes are not taken in a circle. -/
theorem Stuck.mutex_free (h : Inv s) (hq : Stuck s) (c : Nat) : s.mutex c = none := by
  have hzero : s.mutex 0 = none := by
    by_contra hne
    obtain ⟨u, hu⟩ := Option.ne_none_iff_exists'.mp hne
    rcases hq.holds h hu with ⟨d, hp, h0, -⟩ | ⟨hp, -⟩
    · simpa [h0] using (h.places.kind u false (by rw [hp]; rfl)).mp h0.symm
    · exact (h.roles.calling u 0 (by simp only [hp]; rfl)).2.2.1 rfl
  have hrelease : ∀ u d, s.place u = .release d → s.mutex d = none := by
    intro u d hp
    by_contra hne
    obtain ⟨v, hv⟩ := Option.ne_none_iff_exists'.mp hne
    have hnames := h.roles.names u d (by simp only [hp]; rfl)
    have hu := (h.roles.active u (by simp only [hp]; rfl)).1
    rcases hq.holds h hv with ⟨e, hpv, hdv, -⟩ | ⟨-, hm⟩
    · have hv := (h.roles.active v (by simp only [hpv]; rfl)).1
      exact hnames.2.2.1 (hdv.trans (hv.trans hu.symm))
    · exact hm hzero
  by_contra hne
  obtain ⟨u, hu⟩ := Option.ne_none_iff_exists'.mp hne
  rcases hq.holds h hu with ⟨d, hp, -, hm⟩ | ⟨-, hm⟩
  · exact hm (hrelease u d hp)
  · exact hm hzero

/-- Who has the control runs the work, and a context that has been finished has no thread any more. -/
theorem Stuck.control (h : Inv s) (hq : Stuck s) : s.place s.control = .user := by
  have hcases : ∀ t, s.place t = .none ∨ s.place t = .user ∨ s.place t = .done ∨ (∃ l, s.place t = .wait l) ∨
      (∃ c, s.place t = .createWait c) ∨ ∃ c, s.place t = .join c ∧ s.place c ≠ .done := by
    intro t
    rcases hq.cases t with hp | hp | hp | hp | hp | hp | ⟨c, p, -, hm⟩
    · exact .inl hp
    · exact .inr (.inl hp)
    · exact .inr (.inr (.inl hp))
    · exact .inr (.inr (.inr (.inl hp)))
    · exact .inr (.inr (.inr (.inr (.inl hp))))
    · exact .inr (.inr (.inr (.inr (.inr hp))))
    · exact absurd (hq.mutex_free h c) hm
  have hone := h.roles.one
  -- another context: it is not active, and it is there
  have hother : ∀ c, c ≠ s.control → c < s.size → s.place c = .done ∨ ∃ l, s.place c = .wait l := by
    intro c hne hlt
    have hactive := fun ha => hne (h.roles.active c ha).1
    rcases hcases c with hp | hp | hp | hp | ⟨d, hp⟩ | ⟨d, hp, -⟩
    · exact absurd ((h.roles.out c).mp (by simp only [hp]; rfl)) (Nat.not_le_of_lt hlt)
    · exact (hactive (by simp only [hp]; rfl)).elim
    · exact .inl hp
    · exact .inr hp
    · exact (hactive (by simp only [hp]; rfl)).elim
    · exact (hactive (by simp only [hp]; rfl)).elim
  rcases hcases s.control with hp | hp | hp | ⟨l, hp⟩ | ⟨c, hp⟩ | ⟨c, hp, hd⟩
  · simp [hp, Place.role, Role.isActive] at hone
  · exact hp
  · simp [hp, Place.role, Role.isActive] at hone
  · simp [hp, Place.role, Role.isActive] at hone
  · obtain ⟨-, hlt, hne, -⟩ := h.roles.creates s.control c (by simp only [hp]; rfl)
    have hinit := h.places.createWait s.control c hp
    rcases hother c hne hlt with hc | ⟨l, hc⟩
    · have := (h.roles.done c (by simp only [hc]; rfl)).2
      simp [hinit] at this
    · exact absurd hinit (h.asleep_state (by rw [hc]; rfl))
  · obtain ⟨-, hlt, hne, hf⟩ := h.roles.ends s.control c false (by simp only [hp]; rfl)
    rcases hother c hne hlt with hc | ⟨l, hc⟩
    · exact absurd hc hd
    · have := (h.roles.asleep c (l = .call) true (by simp only [hc]; rfl)).2
      simp [hf, hp, Place.role, Role.notifies] at this

theorem Stuck.finished (h : Inv s) (hq : Stuck s) (hf : s.state c = .final) : s.place c = .done := by
  have hcontrol := hq.control h
  have hr : (s.place s.control).role = .active := by rw [hcontrol]; rfl
  have hlt : c < s.size := by
    by_contra hge
    simp [h.roles.fresh c (Nat.le_of_not_lt hge)] at hf
  cases hrole : (s.place c).role with
  | out => exact absurd ((h.roles.out c).mp hrole) (Nat.not_le_of_lt hlt)
  | active | creates | names | ends =>
    rcases (h.roles.active c (by simp only [hrole]; rfl)).2 with hs | ⟨-, hs⟩ <;> simp [hf] at hs
  | asleep k w => simpa [hf, hr, Role.finishes] using (h.roles.asleep c k w hrole).2
  | idle => simpa [hf, hr, Role.finishes] using (h.roles.idle c hrole).2.2
  | parking => simpa [hf] using (h.roles.parking c hrole).2.2
  | calling d =>
    have := h.places.called c d (Roles.role_calling hrole)
    rw [(h.roles.calling c d hrole).2.1, hcontrol] at this
    cases this
  | slept => simpa [hf] using (h.roles.slept c hrole).2.2
  | done =>
    cases hp : s.place c with
    | block l => cases l <;> simp [hp, Place.role] at hrole
    | _ => simp_all [Place.role]

/-! ## Safety and progress -/

/-- The pump makes a coroutine, up to its call. -/
def firstCreate : List Action :=
  [.request 0 .create, .thread 0 none, .thread 0 none, .thread 1 none, .thread 1 none, .thread 1 (some 0),
    .thread 0 none, .thread 0 none, .request 0 (.call 1)]

/-- The call. -/
def firstHandover : List Action :=
  [.thread 0 none, .thread 0 (some 1), .thread 0 none, .thread 0 none, .thread 0 none, .thread 1 none, .thread 1 none]

end Dezyne.Context
