import Mathlib.Logic.Function.Basic
import Dezyne.Context
/-!
# Who has the control

What a thread does, without its mutexes: one thread has the control, and it hands it over to a context that is blocked.
-/

namespace Dezyne.Context

/-- What a thread is up to. -/
inductive Role where
  | out
  /-- It has the control: it runs the work, makes a context, is about to release or to finish one, finishes one. -/
  | active
  | creates (c : Nat)
  | names (c : Nat)
  | ends (c : Nat) (waking : Bool)
  /-- It is in a loop that waits; of `call`; and it has not been woken up. -/
  | asleep (call waiting : Bool)
  /-- It is on its way to `do_block`: in its own loop, or in `yield`. -/
  | idle
  | parking
  /-- It has released a context in `call`, and `zero` is not blocked yet; it is. -/
  | calling (c : Nat)
  | slept
  | done
deriving DecidableEq

@[grind] def Role.isActive : Role → Bool
  | .active | .creates _ | .names _ | .ends _ _ => true
  | _ => false

@[grind] def Role.sleeps : Role → Bool
  | .asleep _ _ => true
  | _ => false

/-- It is ending this context. -/
@[grind] def Role.finishes (r : Role) (t : Nat) : Bool :=
  match r with
  | .ends c _ => c = t
  | _ => false

/-- It is about to wake up this context, which it ends. -/
@[grind] def Role.notifies (r : Role) (t : Nat) : Bool :=
  match r with
  | .ends c true => c = t
  | _ => false

@[grind] def Place.role : Place → Role
  | .none => .out
  | .user | .exit | .exiting => .active
  | .create c | .creating c | .createWait c | .createWoken c => .creates c
  | .yield c | .release c | .releasing c | .call c | .calling c | .finish c | .finishing c => .names c
  | .notifyAll c => .ends c true
  | .join c => .ends c false
  | .wait l => .asleep (l = .call) true
  | .woken l | .test l => .asleep (l = .call) false
  | .start | .loop | .returned | .block .work => .idle
  | .block _ => .parking
  | .callZero c | .callBlock c => .calling c
  | .callSleep => .slept
  | .done => .done

/-- A thread runs: it has the control, and is released, or it is the pump that has released nothing yet. -/
def Runs (control : Nat) (state : Nat → State) (t : Nat) : Prop :=
  t = control ∧ (state t = .released ∨ t = 0 ∧ state t = .initial)

/-- The context that thread `t` deals with is another one that there is, in such a state. -/
def Other (size : Nat) (state : Nat → State) (t c : Nat) (ok : State → Prop) : Prop :=
  0 < c ∧ c < size ∧ c ≠ t ∧ ok (state c)

/-- What a role says of thread `t`, where `boss` is the role of the thread with the control. -/
def Role.Holds (size control : Nat) (state : Nat → State) (r boss : Role) (t : Nat) : Prop :=
  match r with
  | .out => True
  | .active => Runs control state t
  | .creates c => Runs control state t ∧ Other size state t c fun x => x = .initial ∨ x = .blocked
  | .names c => Runs control state t ∧ Other size state t c (· ≠ .final)
  | .ends c _ => Runs control state t ∧ Other size state t c (· = .final)
  | .asleep k w => (k = true ↔ t = 0) ∧ (state t = .blocked ∨ (state t = .released ∧ t = control ∧ w = false) ∨
    (state t = .final ∧ boss.finishes t ∧ (w = true → boss.notifies t)))
  | .idle => t ≠ 0 ∧ t ≠ control ∧ ((state t = .initial ∧ boss = .creates t) ∨ state t = .released ∨
    (state t = .final ∧ boss.finishes t))
  | .parking => t ≠ 0 ∧ t ≠ control ∧ state t = .released
  | .calling c => t = 0 ∧ c = control ∧ c ≠ 0 ∧ state t ≠ .blocked ∧ state c = .released ∧ boss.sleeps
  | .slept => t = 0 ∧ control ≠ 0 ∧ state t = .blocked
  | .done => t ≠ 0 ∧ state t = .final

/-- One thread has the control, or has been woken up to get it. The others are blocked, or about to be. -/
structure Roles (size control : Nat) (state : Nat → State) (role : Nat → Role) : Prop where
  out : ∀ t, role t = .out ↔ size ≤ t
  fresh : ∀ t, size ≤ t → state t = .initial
  zero : state 0 ≠ .final
  one : (role control).isActive ∨ (∃ k, role control = .asleep k false) ∧ state control = .released
  holds : ∀ t, (role t).Holds size control state (role control) t

variable {size control t c : Nat} {state : Nat → State} {role : Nat → Role} {k w b : Bool}

theorem init_roles : Roles 1 0 (fun _ => .initial) (Function.update (fun _ => .out) 0 .active) where
  out t := by
    rw [Function.update_apply]
    split <;> simp <;> omega
  fresh _ _ := rfl
  zero := nofun
  one := .inl rfl
  holds t := by
    rw [Function.update_apply]
    split
    · exact ⟨‹t = 0›, .inr ⟨‹t = 0›, rfl⟩⟩
    · exact trivial

section
variable (h : Roles size control state role)
include h

theorem Roles.holds_of {r : Role} (hr : role t = r) : r.Holds size control state (role control) t := hr ▸ h.holds t

/-! ## What a thread does in each role -/

theorem Roles.active (t : Nat) (ht : (role t).isActive) : Runs control state t := by
  cases hr : role t <;> rw [hr] at ht <;> try cases ht
  · exact h.holds_of hr
  all_goals exact (h.holds_of hr).1

theorem Roles.asleep (t : Nat) (k w : Bool) (ht : role t = .asleep k w) : (k = true ↔ t = 0) ∧ (state t = .blocked ∨
    (state t = .released ∧ t = control ∧ w = false) ∨
    (state t = .final ∧ (role control).finishes t ∧ (w = true → (role control).notifies t))) := h.holds_of ht

theorem Roles.idle (t : Nat) (ht : role t = .idle) : t ≠ 0 ∧ t ≠ control ∧
    ((state t = .initial ∧ role control = .creates t) ∨ state t = .released ∨
      (state t = .final ∧ (role control).finishes t)) := h.holds_of ht

theorem Roles.parking (t : Nat) (ht : role t = .parking) : t ≠ 0 ∧ t ≠ control ∧ state t = .released := h.holds_of ht

theorem Roles.calling (t c : Nat) (ht : role t = .calling c) : t = 0 ∧ c = control ∧ c ≠ 0 ∧ state t ≠ .blocked ∧
    state c = .released ∧ (role control).sleeps := h.holds_of ht

theorem Roles.slept (t : Nat) (ht : role t = .slept) : t = 0 ∧ control ≠ 0 ∧ state t = .blocked := h.holds_of ht

theorem Roles.done (t : Nat) (ht : role t = .done) : t ≠ 0 ∧ state t = .final := h.holds_of ht

theorem Roles.names (t c : Nat) (ht : role t = .names c) : Other size state t c (· ≠ .final) := (h.holds_of ht).2

theorem Roles.ends (t c : Nat) (b : Bool) (ht : role t = .ends c b) : Other size state t c (· = .final) :=
  (h.holds_of ht).2

theorem Roles.creates (t c : Nat) (ht : role t = .creates c) :
    Other size state t c fun x => x = .initial ∨ x = .blocked := (h.holds_of ht).2

/-- A context that is blocked waits, or is the pump on its way to it. -/
theorem Roles.asleep_of_blocked (hc : c < size) (hs : state c = .blocked) :
    (∃ k w, role c = .asleep k w) ∨ role c = .slept := by
  cases hr : role c with
  | asleep k w => exact .inl ⟨k, w, rfl⟩
  | slept => exact .inr rfl
  | out => exact absurd ((h.out c).mp hr) (Nat.not_le_of_lt hc)
  | active | creates | names | ends =>
    rcases (h.active c (by rw [hr]; rfl)).2 with hl | ⟨-, hl⟩ <;> simp [hs] at hl
  | idle => simpa [hs] using (h.idle c hr).2.2
  | parking => simpa [hs] using (h.parking c hr).2.2
  | calling => exact absurd hs (h.calling c _ hr).2.2.2.1
  | done => simpa [hs] using (h.done c hr).2

/-- `do_release` throws for a context only that is in its own loop, and not in `do_block` yet. -/
theorem Roles.idle_of_not_blocked (hc : c < size) (h0 : c ≠ 0) (hcontrol : c ≠ control) (hs : state c ≠ .blocked)
    (hf : state c ≠ .final) : role c = .idle ∨ role c = .parking := by
  cases hr : role c with
  | idle => exact .inl rfl
  | parking => exact .inr rfl
  | out => exact absurd ((h.out c).mp hr) (Nat.not_le_of_lt hc)
  | active | creates | names | ends => exact absurd (h.active c (by rw [hr]; rfl)).1 hcontrol
  | asleep k w =>
    rcases (h.asleep c k w hr).2 with hl | ⟨-, hl, -⟩ | ⟨hl, -⟩
    · exact absurd hl hs
    · exact absurd hl hcontrol
    · exact absurd hl hf
  | calling => exact absurd (h.calling c _ hr).1 h0
  | slept => exact absurd (h.slept c hr).1 h0
  | done => exact absurd (h.done c hr).2 hf

end

/-! ## Changes -/

/-- What a role says where the thread with the control does something else. -/
theorem Role.Holds.boss {r boss boss' : Role} (h : r.Holds size control state boss t)
    (hinit : state t = .initial → boss = .creates t → boss' = .creates t)
    (hfinal : state t = .final → boss.finishes t → boss'.finishes t)
    (hnotify : ∀ k, r = .asleep k true → boss.notifies t → boss'.notifies t)
    (hcall : boss.sleeps → boss'.sleeps) : r.Holds size control state boss' t := by
  cases r with
  | asleep k w =>
    obtain ⟨hk, hs | hs | ⟨hs, hf, hn⟩⟩ := h
    · exact ⟨hk, .inl hs⟩
    · exact ⟨hk, .inr (.inl hs)⟩
    · exact ⟨hk, .inr (.inr ⟨hs, hfinal hs hf, fun hw => hnotify k (hw ▸ rfl) (hn hw)⟩)⟩
  | idle =>
    obtain ⟨h0, hne, ⟨hs, hb⟩ | hs | ⟨hs, hf⟩⟩ := h
    · exact ⟨h0, hne, .inl ⟨hs, hinit hs hb⟩⟩
    · exact ⟨h0, hne, .inr (.inl hs)⟩
    · exact ⟨h0, hne, .inr (.inr ⟨hs, hfinal hs hf⟩)⟩
  | calling c =>
    obtain ⟨h0, hc, hc0, hb, hs, hsleeps⟩ := h
    exact ⟨h0, hc, hc0, hb, hs, hcall hsleeps⟩
  | _ => exact h

/-- It neither makes nor ends a context, and does not sleep. -/
def Role.Plain (r : Role) : Prop := (∀ c, r ≠ .creates c) ∧ (∀ c, r.finishes c = false) ∧ r.sleeps = false

theorem Role.Holds.plain {r boss boss' : Role} (h : r.Holds size control state boss t) (hboss : boss.Plain) :
    r.Holds size control state boss' t := by
  obtain ⟨hcreates, hfinishes, hsleeps⟩ := hboss
  refine h.boss (fun _ hb => absurd hb (hcreates t)) (fun _ hf => ?_) (fun k _ hn => ?_) fun hs => ?_
  · simp [hfinishes] at hf
  · have := hfinishes t
    cases boss <;> simp_all [Role.finishes, Role.notifies]
  · simp [hsleeps] at hs

/-- The control goes to another thread. -/
theorem Role.Holds.handed {r boss boss' : Role} {x : State} (h : r.Holds size control state boss t) (ht : t ≠ control)
    (hc : t ≠ c) (hboss : boss.Plain) : r.Holds size c (Function.update state c x) boss' t := by
  obtain ⟨hcreates, hfinishes, hsleeps⟩ := hboss
  cases r with
  | out => trivial
  | active => exact absurd h.1 ht
  | creates | names | ends => exact absurd h.1.1 ht
  | asleep k w =>
    obtain ⟨hk, hs | ⟨-, hs, -⟩ | ⟨-, hs, -⟩⟩ := h
    · exact ⟨hk, .inl (by rwa [Function.update_of_ne hc])⟩
    · exact absurd hs ht
    · simp [hfinishes] at hs
  | idle =>
    obtain ⟨h0, -, ⟨-, hs⟩ | hs | ⟨-, hs⟩⟩ := h
    · exact absurd hs (hcreates t)
    · exact ⟨h0, hc, .inr (.inl (by rwa [Function.update_of_ne hc]))⟩
    · simp [hfinishes] at hs
  | parking => exact ⟨h.1, hc, by rw [Function.update_of_ne hc]; exact h.2.2⟩
  | calling d =>
    have hs := h.2.2.2.2.2
    simp [hsleeps] at hs
  | slept => exact ⟨h.1, fun h0 => hc (h.1.trans h0.symm), by rw [Function.update_of_ne hc]; exact h.2.2⟩
  | done => exact ⟨h.1, by rw [Function.update_of_ne hc]; exact h.2⟩

/-- There are more contexts. -/
theorem Role.Holds.mono {r boss : Role} {size' : Nat} (h : r.Holds size control state boss t) (hle : size ≤ size') :
    r.Holds size' control state boss t := by
  cases r with
  | creates | names | ends => exact ⟨h.1, h.2.1, Nat.lt_of_lt_of_le h.2.2.1 hle, h.2.2.2⟩
  | _ => exact h

/-- The state that a thread deals with may become this one. -/
def Role.Allows (c : Nat) (x : State) : Role → Prop
  | .creates d => d = c → x = .initial ∨ x = .blocked
  | .names d => d = c → x ≠ .final
  | .ends d _ => d = c → x = .final
  | .calling d => d = c → x = .released
  | _ => True

theorem Other.setState {ok : State → Prop} {x : State} {d : Nat} (h : Other size state t d ok) (hx : d = c → ok x) :
    Other size (Function.update state c x) t d ok := by
  refine ⟨h.1, h.2.1, h.2.2.1, ?_⟩
  rw [Function.update_apply]
  split
  · exact hx ‹_›
  · exact h.2.2.2

theorem Runs.setState {x : State} (h : Runs control state t) (ht : t ≠ c) :
    Runs control (Function.update state c x) t := by
  rwa [Runs, Function.update_of_ne ht]

/-- What a role says of a thread, when another one's state changes. -/
theorem Role.Holds.setState {r boss : Role} {x : State} (h : r.Holds size control state boss t) (ht : t ≠ c)
    (hx : r.Allows c x) : r.Holds size control (Function.update state c x) boss t := by
  cases r with
  | out => trivial
  | active => exact Runs.setState h ht
  | creates | names | ends => exact ⟨h.1.setState ht, h.2.setState hx⟩
  | calling d =>
    obtain ⟨h0, hd, hd0, hb, hs, hsleeps⟩ := h
    refine ⟨h0, hd, hd0, by rwa [Function.update_of_ne ht], ?_, hsleeps⟩
    rw [Function.update_apply]
    split
    · exact hx ‹_›
    · exact hs
  | asleep | idle | parking | slept | done => simpa only [Role.Holds, Function.update_of_ne ht] using h

section
variable (h : Roles size control state role)
include h

theorem Roles.lt_size (ht : role t ≠ .out) : t < size := Nat.lt_of_not_le fun hge => ht ((h.out t).mpr hge)

/-- One thread changes what it does. -/
theorem Roles.set {r : Role} (ht : role t ≠ .out) (hr : r ≠ .out)
    (hholds : r.Holds size control state (Function.update role t r control) t)
    (hone : t = control → r.isActive ∨ (∃ k, r = .asleep k false) ∧ state t = .released)
    (hothers : t = control → ∀ u, u ≠ t → (role u).Holds size control state (role t) u →
      (role u).Holds size control state r u) : Roles size control state (Function.update role t r) where
  out u := by
    rw [Function.update_apply]
    split
    · exact ⟨fun h' => absurd h' hr, fun h' => absurd ((h.out u).mpr h') (‹u = t› ▸ ht)⟩
    · exact h.out u
  fresh := h.fresh
  zero := h.zero
  one := by
    rw [Function.update_apply]
    split
    · exact (‹control = t› ▸ hone ‹control = t›.symm)
    · exact h.one
  holds u := by
    by_cases hu : u = t
    · subst hu
      rwa [Function.update_self]
    rw [Function.update_of_ne hu]
    by_cases hc : control = t
    · rw [hc, Function.update_self]
      exact hc ▸ hothers hc.symm u hu (hc ▸ h.holds u)
    · rw [Function.update_of_ne hc]
      exact h.holds u

theorem Roles.out_update {r : Role} (ht : role t ≠ .out) (hr : r ≠ .out) (u : Nat) :
    Function.update role t r u = .out ↔ size ≤ u := by
  rw [Function.update_apply]
  split
  · exact ⟨fun h' => absurd h' hr, fun h' => absurd ((h.out u).mpr h') (‹u = t› ▸ ht)⟩
  · exact h.out u

/-- A thread without the control gets blocked. -/
theorem Roles.sleep {r : Role} (ht : role t ≠ .out) (hr : r ≠ .out) (hne : t ≠ control)
    (hholds : r.Holds size control (Function.update state t .blocked) (role control) t)
    (hothers : ∀ u, u ≠ t → (role u).Allows t .blocked) :
    Roles size control (Function.update state t .blocked) (Function.update role t r) where
  out := h.out_update ht hr
  fresh u hu := by
    have hlt := h.lt_size ht
    rw [Function.update_of_ne (by omega), h.fresh u hu]
  zero := by
    rw [Function.update_apply]
    split
    · exact nofun
    · exact h.zero
  one := by
    rw [Function.update_of_ne hne.symm, Function.update_of_ne hne.symm]
    exact h.one
  holds u := by
    rw [Function.update_of_ne hne.symm]
    by_cases hu : u = t
    · subst hu
      rwa [Function.update_self]
    · rw [Function.update_of_ne hu]
      exact (h.holds u).setState hu (hothers u hu)

/-- The control goes from its thread to a context that is blocked. -/
theorem Roles.handOver {r : Role} (ht : role control ≠ .out) (hr : r ≠ .out) (hboss : (role control).Plain)
    (hc : role c = .asleep k w) (hne : c ≠ control)
    (hholds : r.Holds size c (Function.update state c .released) (.asleep k false) control) :
    Roles size c (Function.update state c .released)
      (Function.update (Function.update role c (.asleep k false)) control r) := by
  have hcout : role c ≠ .out := by simp [hc]
  refine ⟨fun u => ?_, fun u hu => ?_, ?_, ?_, fun u => ?_⟩
  · rw [Function.update_apply]
    split
    · exact ⟨fun h' => absurd h' hr, fun h' => absurd ((h.out u).mpr h') (‹u = control› ▸ ht)⟩
    · exact h.out_update (r := .asleep k false) hcout nofun u
  · have hlt := h.lt_size hcout
    rw [Function.update_of_ne (by omega), h.fresh u hu]
  · rw [Function.update_apply]
    split
    · exact nofun
    · exact h.zero
  · rw [Function.update_of_ne hne, Function.update_self, Function.update_self]
    exact .inr ⟨⟨k, rfl⟩, rfl⟩
  · rw [Function.update_of_ne hne, Function.update_self]
    by_cases hu : u = control
    · rw [hu, Function.update_self]
      exact hholds
    rw [Function.update_of_ne hu]
    by_cases huc : u = c
    · subst huc
      rw [Function.update_self]
      exact ⟨(h.asleep u k w hc).1, .inr (.inl ⟨Function.update_self .., rfl, rfl⟩)⟩
    · rw [Function.update_of_ne huc]
      exact (h.holds u).handed hu huc hboss

/-! ## The steps -/

/-- A loop that has been woken up. -/
theorem Roles.wake (ht : role t = .asleep k w) :
    Roles size control state (Function.update role t (.asleep k false)) := by
  obtain ⟨hk, hs⟩ := h.asleep t k w ht
  refine h.set (by simp [ht]) nofun ⟨hk, ?_⟩ ?_ ?_
  · rcases hs with hs | ⟨hs, hc, -⟩ | ⟨hs, hf, -⟩
    · exact .inl hs
    · exact .inr (.inl ⟨hs, hc, rfl⟩)
    · have hne : control ≠ t := by
        rintro rfl
        simp [ht, Role.finishes] at hf
      exact .inr (.inr ⟨hs, by rwa [Function.update_of_ne hne], nofun⟩)
  · rintro rfl
    have hone := h.one
    simp only [ht, Role.isActive, Bool.false_eq_true, false_or] at hone
    exact .inr ⟨⟨k, rfl⟩, hone.2⟩
  · rintro rfl u - hu
    rw [ht] at hu
    exact hu.boss nofun (fun _ hf => by simp [Role.finishes] at hf) (fun _ _ hn => by simp [Role.notifies] at hn) fun _ => rfl

/-- A thread that sleeps has the control only when it has been released. -/
theorem Roles.ne_control (ht : role t = .asleep k w) (hs : state t ≠ .released) : t ≠ control := by
  rintro rfl
  have hone := h.one
  simp only [ht, Role.isActive, Bool.false_eq_true, false_or] at hone
  exact hs hone.2

theorem Roles.wait (ht : role t = .asleep k w) (hs : state t = .blocked) :
    Roles size control state (Function.update role t (.asleep k true)) := by
  have hne := h.ne_control ht (by simp [hs])
  exact h.set (by simp [ht]) nofun ⟨(h.asleep t k w ht).1, .inl hs⟩ (fun hc => absurd hc hne) fun hc => absurd hc hne

/-- `do_block` -/
theorem Roles.block (ht : role t = .idle ∨ role t = .parking) (hs : state t ≠ .final) :
    Roles size control (Function.update state t .blocked) (Function.update role t (.asleep false true)) := by
  have hne : t ≠ 0 ∧ t ≠ control := by
    rcases ht with ht | ht
    · exact ⟨(h.idle t ht).1, (h.idle t ht).2.1⟩
    · exact ⟨(h.parking t ht).1, (h.parking t ht).2.1⟩
  refine h.sleep (by rcases ht with ht | ht <;> simp [ht]) nofun hne.2
    ⟨by simp [hne.1], .inl (Function.update_self ..)⟩ fun u hu => ?_
  cases hr : role u with
  | creates => exact fun _ => .inr rfl
  | names => exact fun _ => nofun
  | ends d => exact fun hd => absurd (hd ▸ (h.ends u d _ hr).2.2.2) hs
  | calling d => exact fun hd => absurd (hd ▸ (h.calling u d hr).2.1) hne.2
  | _ => trivial

/-- The loop of a context that has been released ends, once `zero` is blocked. -/
theorem Roles.run (ht : role t = .asleep k w) (hb : state t ≠ .blocked) (hf : state t ≠ .final)
    (hz : role 0 ≠ .calling t) : Roles size control state (Function.update role t .active) := by
  obtain ⟨-, hs | ⟨hs, rfl, -⟩ | ⟨hs, -⟩⟩ := h.asleep t k w ht
  · exact absurd hs hb
  · refine h.set (by simp [ht]) nofun ⟨rfl, .inl hs⟩ (fun _ => .inl rfl) fun _ u _ hu => ?_
    rw [ht] at hu
    cases hr : role u with
    | calling d =>
      obtain ⟨rfl, rfl, -⟩ := h.calling u d hr
      exact absurd hr hz
    | _ =>
      rw [hr] at hu
      first
        | exact hu
        | exact ⟨hu.1, hu.2.imp id fun hu => hu.imp id fun hu => by simp [Role.finishes] at hu⟩
        | exact ⟨hu.1, hu.2.1, hu.2.2.imp nofun fun hu => hu.imp id fun hu => by simp [Role.finishes] at hu⟩
  · exact absurd hs hf

/-- `forced_unwind` -/
theorem Roles.unwind (ht : role t = .asleep false w) (hf : state t = .final) {r : Role} (hr : r = .idle ∨ r = .done) :
    Roles size control state (Function.update role t r) := by
  have hne := h.ne_control ht (by simp [hf])
  obtain ⟨hk, hs⟩ := h.asleep t false w ht
  have h0 : t ≠ 0 := by simpa using hk
  have hfinishes : (role control).finishes t := by
    rcases hs with hs | ⟨hs, -⟩ | ⟨-, hs, -⟩
    · simp [hf] at hs
    · simp [hf] at hs
    · exact hs
  rcases hr with rfl | rfl
  · refine h.set (by simp [ht]) nofun ⟨h0, hne, .inr (.inr ⟨hf, ?_⟩)⟩ (fun hc => absurd hc hne) fun hc => absurd hc hne
    rwa [Function.update_of_ne hne.symm]
  · exact h.set (by simp [ht]) nofun ⟨h0, hf⟩ (fun hc => absurd hc hne) fun hc => absurd hc hne

theorem Roles.leave (ht : role t = .idle) (hf : state t = .final) :
    Roles size control state (Function.update role t .done) := by
  obtain ⟨h0, hne, -⟩ := h.idle t ht
  exact h.set (by simp [ht]) nofun ⟨h0, hf⟩ (fun hc => absurd hc hne) fun hc => absurd hc hne

/-- The control goes from `t` to `c`. -/
theorem Roles.release (ht : role t = .names c) (h0 : t ≠ 0) (hc : role c = .asleep k w) :
    Roles size c (Function.update state c .released)
      (Function.update (Function.update role c (.asleep k false)) t .parking) := by
  have hne := (h.names t c ht).2.2.1
  obtain ⟨rfl, hrun⟩ := h.active t (by rw [ht]; rfl)
  refine h.handOver (by simp [ht]) nofun (by rw [ht]; exact ⟨nofun, fun _ => rfl, rfl⟩) hc hne ⟨h0, hne.symm, ?_⟩
  rw [Function.update_of_ne hne.symm]
  exact hrun.resolve_right fun hrun => h0 hrun.1

theorem Roles.exit (ht : role t = .active) (h0 : t ≠ 0) (hc : role 0 = .asleep k w) :
    Roles size 0 (Function.update state 0 .released)
      (Function.update (Function.update role 0 (.asleep k false)) t .idle) := by
  obtain ⟨rfl, hrun⟩ := h.active t (by rw [ht]; rfl)
  refine h.handOver (by simp [ht]) nofun (by rw [ht]; exact ⟨nofun, fun _ => rfl, rfl⟩) hc h0.symm
    ⟨h0, h0, .inr (.inl ?_)⟩
  rw [Function.update_of_ne h0]
  exact hrun.resolve_right fun hrun => h0 hrun.1

theorem Roles.call (ht : role 0 = .names c) (hc : role c = .asleep k w) :
    Roles size c (Function.update state c .released)
      (Function.update (Function.update role c (.asleep k false)) 0 (.calling c)) := by
  obtain ⟨hpos, -, hne, -⟩ := h.names 0 c ht
  obtain ⟨rfl, hrun⟩ := h.active 0 (by rw [ht]; rfl)
  refine h.handOver (by simp [ht]) nofun (by rw [ht]; exact ⟨nofun, fun _ => rfl, rfl⟩) hc hne
    ⟨rfl, rfl, hne, ?_, Function.update_self .., rfl⟩
  rw [Function.update_of_ne hne.symm]
  rcases hrun with hrun | ⟨-, hrun⟩ <;> simp [hrun]

theorem Roles.callBlock (ht : role 0 = .calling c) :
    Roles size control (Function.update state 0 .blocked) (Function.update role 0 .slept) := by
  obtain ⟨-, rfl, hc0, -⟩ := h.calling 0 c ht
  refine h.sleep (by simp [ht]) nofun hc0.symm ⟨rfl, hc0, Function.update_self ..⟩ fun u hu => ?_
  cases hr : role u with
  | creates d => exact fun hd => absurd (hd ▸ (h.creates u d hr).1) (Nat.lt_irrefl 0)
  | names => exact fun _ => nofun
  | ends d => exact fun hd => absurd (hd ▸ (h.ends u d _ hr).1) (Nat.lt_irrefl 0)
  | calling d => exact fun hd => absurd hd (h.calling u d hr).2.2.1
  | _ => trivial

theorem Roles.callSleep (ht : role t = .slept) :
    Roles size control state (Function.update role t (.asleep true true)) := by
  obtain ⟨rfl, hc0, hs⟩ := h.slept t ht
  exact h.set (by simp [ht]) nofun ⟨by simp, .inl hs⟩ (fun hc => absurd hc.symm hc0) fun hc => absurd hc.symm hc0

/-- A context is there when it has blocked. -/
theorem Roles.created (ht : role t = .creates c) (hs : state c = .blocked) :
    Roles size control state (Function.update role t .active) := by
  have hrun := h.active t (by rw [ht]; rfl)
  refine h.set (by simp [ht]) nofun hrun (fun _ => .inl rfl) fun _ u _ hu => ?_
  rw [ht] at hu
  refine hu.boss (fun hi hb => ?_) (fun _ hf => by simp [Role.finishes] at hf) (fun _ _ hn => by simp [Role.notifies] at hn) nofun
  cases hb
  simp [hs] at hi

theorem Roles.finishing (ht : role t = .names c) (hc : role c ≠ .parking) :
    Roles size control (Function.update state c .final) (Function.update role t (.ends c true)) := by
  obtain ⟨hpos, hlt, hne, hs⟩ := h.names t c ht
  obtain ⟨rfl, hrun⟩ := h.active t (by rw [ht]; rfl)
  refine ⟨h.out_update (by simp [ht]) nofun, fun u hu => ?_, ?_, ?_, fun u => ?_⟩
  · rw [Function.update_of_ne (by omega), h.fresh u hu]
  · rw [Function.update_of_ne (by omega)]
    exact h.zero
  · rw [Function.update_self]
    exact .inl rfl
  · rw [Function.update_self]
    by_cases hu : u = t
    · rw [hu, Function.update_self]
      exact ⟨Runs.setState ⟨rfl, hrun⟩ hne.symm, hpos, hlt, hne, Function.update_self ..⟩
    rw [Function.update_of_ne hu]
    by_cases huc : u = c
    · subst huc
      have hself : Function.update state u .final u = .final := Function.update_self ..
      have hends : (Role.ends u true).finishes u := by simp [Role.finishes]
      have hold := h.holds u
      cases hr : role u with
      | out => trivial
      | active => exact absurd (h.active u (by rw [hr]; rfl)).1 hu
      | creates | names | ends => exact absurd (h.active u (by rw [hr]; rfl)).1 hu
      | asleep k w => exact ⟨(h.asleep u k w hr).1, .inr (.inr ⟨hself, hends, fun _ => hends⟩)⟩
      | idle => exact ⟨(h.idle u hr).1, hu, .inr (.inr ⟨hself, hends⟩)⟩
      | parking => exact absurd hr hc
      | calling => exact absurd (h.calling u _ hr).1 (Nat.ne_of_gt hpos)
      | slept => exact absurd (h.slept u hr).1 (Nat.ne_of_gt hpos)
      | done => exact absurd (h.done u hr).2 hs
    · refine ((h.holds u).plain (by rw [ht]; exact ⟨nofun, fun _ => rfl, rfl⟩)).setState huc ?_
      cases hr : role u with
      | creates | names | ends => exact absurd (h.active u (by rw [hr]; rfl)).1 hu
      | calling d =>
        have hsleeps := (h.calling u d hr).2.2.2.2.2
        simp [ht, Role.sleeps] at hsleeps
      | _ => trivial

theorem Roles.notified (ht : role t = .ends c true) (hc : ∀ k, role c ≠ .asleep k true) :
    Roles size control state (Function.update role t (.ends c false)) := by
  have hrun := h.active t (by rw [ht]; rfl)
  refine h.set (by simp [ht]) nofun ⟨hrun, h.ends t c _ ht⟩ (fun _ => .inl rfl) fun _ u _ hu => ?_
  rw [ht] at hu
  refine hu.boss nofun (fun _ hf => hf) (fun k hr hn => ?_) nofun
  have huc : c = u := by simpa [Role.notifies] using hn
  exact absurd (huc ▸ hr) (hc k)

theorem Roles.join (ht : role t = .ends c b) (hc : role c = .done) :
    Roles size control state (Function.update role t .active) := by
  have hrun := h.active t (by rw [ht]; rfl)
  refine h.set (by simp [ht]) nofun hrun (fun _ => .inl rfl) fun _ u _ hu => ?_
  by_cases huc : u = c
  · subst huc
    rw [hc] at hu ⊢
    exact hu
  · rw [ht] at hu
    refine hu.boss nofun (fun _ hf => ?_) (fun k _ hn => ?_) nofun
    · simp [Role.finishes, Ne.symm huc] at hf
    · cases b <;> simp [Role.notifies, Ne.symm huc] at hn

theorem Roles.name (ht : role t = .active) (h0 : 0 < c) (hc : c < size) (hne : c ≠ t) (hf : state c ≠ .final) :
    Roles size control state (Function.update role t (.names c)) := by
  have hrun := h.active t (by rw [ht]; rfl)
  refine h.set (by simp [ht]) nofun ⟨hrun, h0, hc, hne, hf⟩ (fun _ => .inl rfl) fun _ u _ hu => ?_
  exact hu.plain (by rw [ht]; exact ⟨nofun, fun _ => rfl, rfl⟩)

theorem Roles.create (ht : role t = .active) :
    Roles (size + 1) control state (Function.update (Function.update role size .idle) t (.creates size)) := by
  obtain ⟨rfl, hrun⟩ := h.active t (by rw [ht]; rfl)
  have hlt := h.lt_size (t := t) (by simp [ht])
  have hfresh := h.fresh size (Nat.le_refl _)
  refine ⟨fun u => ?_, fun u hu => h.fresh u (by omega), h.zero, ?_, fun u => ?_⟩
  · by_cases hu : u = t
    · rw [hu, Function.update_self]
      exact ⟨nofun, fun hge => absurd hge (by omega)⟩
    rw [Function.update_of_ne hu]
    by_cases hus : u = size
    · rw [hus, Function.update_self]
      exact ⟨nofun, fun hge => absurd hge (by omega)⟩
    · rw [Function.update_of_ne hus, h.out u]
      omega
  · rw [Function.update_self]
    exact .inl rfl
  · rw [Function.update_self]
    by_cases hu : u = t
    · rw [hu, Function.update_self]
      exact ⟨⟨rfl, hrun⟩, by omega, by omega, by omega, .inl hfresh⟩
    rw [Function.update_of_ne hu]
    by_cases hus : u = size
    · rw [hus, Function.update_self]
      exact ⟨by omega, by omega, .inl ⟨hfresh, rfl⟩⟩
    · rw [Function.update_of_ne hus]
      exact ((h.holds u).plain (by rw [ht]; exact ⟨nofun, fun _ => rfl, rfl⟩)).mono (Nat.le_succ _)

end

end Dezyne.Context
