import Mathlib.Data.List.Basic
import Mathlib.Data.List.Nodup
/-!
# Timers of the Scheme pump

A timer that is removed stays with the others; its id goes to a second list, and the
first timer with that id whose turn it is takes the id from there and does not fire.
So a remove may hit a timer that is armed later. A deadline only orders the timers
that are fired in one go.
-/

namespace Dezyne.SchemeTimers

variable {X E : Type}

/-! ## The pump -/

/-- An entry of `.timers`, with the number of its arming and the time its deadline is at. -/
structure Timer (X E : Type) where
  deadline : Nat
  x : X
  event : E
  arming : Nat
  due : Nat
deriving DecidableEq

/-- The timers of `<dzn:pump>`, the last one armed first, and `.canceled`. The loops over timers that are under way,
the innermost first, have the timers that are left. Of the past are known the timers that were armed and those that
fired, in order, when a pending timer was removed, and how many were armed before the last `dzn:pump`. -/
structure Pump (X E : Type) where
  timers : List (Timer X E)
  canceled : List X
  loops : List (List (Timer X E))
  clock : Nat
  armed : List (Timer X E)
  fired : List (Timer X E)
  removed : List (Nat × Nat)
  pumped : Nat

/-- A new pump. -/
def Pump.init : Pump X E :=
  { timers := [], canceled := [], loops := [], clock := 0, armed := [], fired := [], removed := [], pumped := 0 }

/-- What happens: the calls of `dzn:handle` and `dzn:remove`, the clock goes on, a `dzn:pump` comes to its timers, the
loop over them takes a turn, and it ends. What an event does that fires is what happens until the next turn. -/
inductive Op (X E : Type) where
  | handle (x : X) (deadline : Nat) (event : E)
  | remove (x : X)
  | advance (ms : Nat)
  | pump
  | turn
  | ret

/-- The timer a turn is of: `(assoc-ref (reverse timers) deadline)` for the least deadline. -/
def pick (l : List (Timer X E)) : Option (Timer X E) :=
  (l.map Timer.deadline).min?.bind fun deadline => l.reverse.find? fun t => t.deadline = deadline

namespace Pump

/-- The timers whose turn has not come. -/
def pending (o : Pump X E) : List (Timer X E) := o.loops.flatten ++ o.timers

/-- `dzn:handle` -/
def handle (o : Pump X E) (x : X) (deadline : Nat) (event : E) : Pump X E :=
  let t := { deadline, x, event, arming := o.armed.length, due := o.clock + deadline }
  { o with timers := t :: o.timers, armed := o.armed ++ [t] }

section
variable [DecidableEq X] [DecidableEq E]

/-- `dzn:remove` -/
def remove (o : Pump X E) (x : X) : Pump X E :=
  { o with
    canceled := x :: o.canceled
    removed := o.removed ++ (o.pending.filter fun t => t.x = x).map fun t => (t.arming, o.clock) }

/-- `dzn:pump` takes the timers. -/
def takeTimers (o : Pump X E) : Pump X E :=
  { o with timers := [], loops := o.timers :: o.loops, pumped := o.armed.length }

/-- A turn of a loop, of this timer. -/
def turn (o : Pump X E) (l : List (Timer X E)) (outer : List (List (Timer X E))) (t : Timer X E) : Pump X E :=
  let timers := l.filter fun u => ¬ (u.x = t.x ∧ u.event = t.event)
  if t.x ∈ o.canceled then
    { o with loops := timers :: outer, canceled := o.canceled.filter fun x => x ≠ t.x }
  else { o with loops := timers :: outer, fired := o.fired ++ [t] }

def step (o : Pump X E) : Op X E → Option (Pump X E)
  | .handle x deadline event => some (o.handle x deadline event)
  | .remove x => some (o.remove x)
  | .advance ms => some { o with clock := o.clock + ms }
  | .pump => some o.takeTimers
  | .turn =>
    match o.loops with
    | [] => none
    | l :: outer => (pick l).map (o.turn l outer)
  | .ret =>
    match o.loops with
    | [] :: outer => some { o with loops := outer }
    | _ => none

def run : Pump X E → List (Op X E) → Option (Pump X E)
  | o, [] => some o
  | o, op :: ops => (o.step op).bind fun o => o.run ops

end

/-! ## What is expected -/

/-- No call has removed the timer while it was pending. -/
def Live (o : Pump X E) (t : Timer X E) : Prop := ∀ r ∈ o.removed, r.1 ≠ t.arming

/-- A call removed the timer before its deadline. -/
def RemovedInTime (o : Pump X E) (t : Timer X E) : Prop := ∃ r ∈ o.removed, r.1 = t.arming ∧ r.2 < t.due

end Pump

/-- In order of deadline, and of arming for the same deadline. -/
def Timer.DueBefore (t u : Timer X E) : Prop := t.due < u.due ∨ t.due = u.due ∧ t.arming < u.arming

namespace Pump

/-- No timer fires twice, timers fire in order, and when a loop has come to a timer it has fired unless it was removed
before its deadline; a loop has come to every timer that was armed before the last `dzn:pump` when no loop is under way.
-/
structure Right (o : Pump X E) : Prop where
  once : (o.fired.map Timer.arming).Nodup
  order : o.fired.Pairwise Timer.DueBefore
  fires : ∀ t ∈ o.armed, t ∉ o.pending → (t ∈ o.fired ↔ ¬ o.RemovedInTime t)
  done : o.loops = [] → ∀ t ∈ o.pending, o.pumped ≤ t.arming

/-- When a step keeps to what the two lists can tell. A timer is armed when no other one in `.timers` has its id and its
event, a mark for its id is left for a timer whose turn comes first, and the timers that are fired after it are due
after it. A timer is removed before its deadline, and while no other timer with its id is pending. Timers are fired when
they are due, and no loop is under way that has any left. -/
def Ok (o : Pump X E) : Op X E → Prop
  | .handle x deadline event =>
    (∀ t ∈ o.timers, ¬ (t.x = x ∧ t.event = event)) ∧
    (x ∈ o.canceled → (∃ t ∈ o.loops.flatten, t.x = x) ∨ ∃ t ∈ o.timers, t.x = x ∧ t.deadline ≤ deadline) ∧
    ∀ t ∈ o.timers, o.Live t → deadline < t.deadline → o.clock + deadline < t.due
  | .remove x =>
    ∀ t ∈ o.pending, t.x = x → o.Live t → (∀ u ∈ o.pending, u.x = x → u = t) ∧ o.clock < t.due
  | .pump => (∀ t ∈ o.timers, o.Live t → t.due ≤ o.clock) ∧ (o.timers = [] ∨ o.loops.flatten = [])
  | _ => True

/-- The runs whose steps are all like this. -/
inductive Runs [DecidableEq X] [DecidableEq E] : List (Op X E) → Pump X E → Prop
  | init : Runs [] .init
  | step {ops : List (Op X E)} {o o' : Pump X E} {op : Op X E} :
      Runs ops o → o.Ok op → o.step op = some o' → Runs (ops ++ [op]) o'

end Pump

/-! ## The timer of a turn -/

/-- In order of the deadline numbers, and of arming for the same number. -/
def Timer.Sooner (t u : Timer X E) : Prop :=
  t.deadline < u.deadline ∨ t.deadline = u.deadline ∧ t.arming < u.arming

theorem pick_isSome {l : List (Timer X E)} (h : l ≠ []) : ∃ t, pick l = some t := by
  obtain ⟨d, hd⟩ : ∃ d, (l.map Timer.deadline).min? = some d := by
    rw [← Option.isSome_iff_exists, List.isSome_min?_iff]
    simpa using h
  obtain ⟨hmem, -⟩ := List.min?_eq_some_iff.1 hd
  obtain ⟨t, ht, heq⟩ := List.mem_map.1 hmem
  rw [pick, hd, Option.bind_some, ← Option.isSome_iff_exists, List.find?_isSome]
  exact ⟨t, by simpa using ht, by simpa using heq⟩

/-- The last armed timer being first, the timer of a turn comes before all others. -/
theorem pick_spec {l : List (Timer X E)} {t : Timer X E} (hl : l.Pairwise fun t u => u.arming < t.arming)
    (h : pick l = some t) : t ∈ l ∧ ∀ u ∈ l, u = t ∨ t.Sooner u := by
  rw [pick, Option.bind_eq_some_iff] at h
  obtain ⟨d, hd, hfind⟩ := h
  obtain ⟨-, hle⟩ := List.min?_eq_some_iff.1 hd
  rw [List.find?_eq_some_iff_append] at hfind
  obtain ⟨htd, as, bs, hrev, has⟩ := hfind
  have htd : t.deadline = d := by simpa using htd
  have hsort : (as ++ t :: bs).Pairwise fun t u => t.arming < u.arming := by
    rw [← hrev, List.pairwise_reverse]
    exact hl
  have hmem : ∀ u, u ∈ l ↔ u ∈ as ∨ u = t ∨ u ∈ bs := by
    intro u
    rw [← List.mem_reverse, hrev]
    simp
  refine ⟨(hmem t).2 (.inr (.inl rfl)), fun u hu => ?_⟩
  have hdu : d ≤ u.deadline := hle u.deadline (List.mem_map_of_mem hu)
  rcases (hmem u).1 hu with hua | rfl | hub
  · have hne : u.deadline ≠ d := by simpa using has u hua
    exact .inr (.inl (by omega))
  · exact .inl rfl
  · have hlt := (List.pairwise_cons.1 (List.pairwise_append.1 hsort).2.1).1 u hub
    refine .inr ?_
    unfold Timer.Sooner
    omega

/-! ## What a run keeps -/

/-- In the order of the turns: first the timers of the loops that are under way. -/
def Pump.Before (o : Pump X E) (t u : Timer X E) : Prop :=
  t.arming < o.pumped ∧ o.pumped ≤ u.arming ∨ (t.arming < o.pumped ↔ u.arming < o.pumped) ∧ t.Sooner u

/-- Timers are known by their number, and the lists are ordered by it. -/
structure Pump.Numbered (o : Pump X E) : Prop where
  lt : ∀ t ∈ o.armed, t.arming < o.armed.length
  inj : ∀ t ∈ o.armed, ∀ u ∈ o.armed, t.arming = u.arming → t = u
  pending_armed : ∀ t ∈ o.pending, t ∈ o.armed
  fired_armed : ∀ t ∈ o.fired, t ∈ o.armed
  removed_lt : ∀ r ∈ o.removed, r.1 < o.armed.length
  pumped_le : o.pumped ≤ o.armed.length
  loops_lt : ∀ t ∈ o.loops.flatten, t.arming < o.pumped
  timers_ge : ∀ t ∈ o.timers, o.pumped ≤ t.arming
  sorted : o.timers.Pairwise fun t u => u.arming < t.arming
  loops_sorted : o.loops.flatten.Pairwise fun t u => u.arming < t.arming
  alone : o.loops.Pairwise fun l l' => l = [] ∨ l' = []

/-- The marks are for the timers that were removed: the first one whose turn comes, of those with its id. -/
structure Pump.Marked (o : Pump X E) : Prop where
  distinct : ∀ t ∈ o.timers, ∀ u ∈ o.timers, t.x = u.x → t.event = u.event → t = u
  loops_distinct : ∀ t ∈ o.loops.flatten, ∀ u ∈ o.loops.flatten, t.x = u.x → t.event = u.event → t = u
  live : ∀ t ∈ o.pending, t.x ∉ o.canceled → o.Live t
  first : ∀ t ∈ o.pending, t.x ∈ o.canceled → ∃ p ∈ o.pending, p.x = t.x ∧ ¬ o.Live p ∧
    ∀ u ∈ o.pending, u.x = t.x → u = p ∨ o.Live u ∧ o.Before p u

/-- What fired is not removed and came in order, and so will what is pending. -/
structure Pump.Ordered (o : Pump X E) : Prop where
  inTime : ∀ t ∈ o.armed, ¬ o.Live t → o.RemovedInTime t
  fires : ∀ t ∈ o.armed, t ∉ o.pending → (t ∈ o.fired ↔ o.Live t)
  fired_done : ∀ t ∈ o.fired, t ∉ o.pending ∧ t.due ≤ o.clock
  order : o.fired.Pairwise Timer.DueBefore
  fired_before : ∀ t ∈ o.fired, ∀ u ∈ o.pending, o.Live u → t.DueBefore u
  pending_order : ∀ t ∈ o.pending, ∀ u ∈ o.pending, o.Live t → o.Live u → o.Before t u → t.DueBefore u
  due : ∀ t ∈ o.pending, t.due ≤ o.clock + t.deadline
  loops_due : ∀ t ∈ o.loops.flatten, o.Live t → t.due ≤ o.clock

structure Pump.Inv (o : Pump X E) : Prop extends o.Numbered, o.Marked, o.Ordered

namespace Pump

variable {o o' : Pump X E} {t u : Timer X E} {x : X} {deadline : Nat} {event : E}

theorem mem_pending : t ∈ o.pending ↔ t ∈ o.loops.flatten ∨ t ∈ o.timers := by rw [pending, List.mem_append]

theorem not_live_of_inTime (h : o.RemovedInTime t) : ¬ o.Live t := by
  obtain ⟨r, hr, heq, -⟩ := h
  exact fun hl => hl r hr heq

theorem Inv.right (h : o.Inv) : o.Right where
  once := by
    refine List.pairwise_map.2 (h.order.imp_of_mem fun {t u} ht hu htu heq => ?_)
    obtain rfl := h.inj t (h.fired_armed t ht) u (h.fired_armed u hu) heq
    unfold Timer.DueBefore at htu
    omega
  order := h.order
  fires t ht hp := by
    rw [h.fires t ht hp]
    exact ⟨fun hl hr => not_live_of_inTime hr hl, fun hr => by_contra fun hl => hr (h.inTime t ht hl)⟩
  done hl t ht := by
    rw [mem_pending, hl] at ht
    exact h.timers_ge t (by simpa using ht)

theorem inv_init : (init : Pump X E).Inv := by
  constructor <;> constructor <;> simp [init, pending]

/-! ## The clock, and the end of a loop -/

theorem Inv.advance (h : o.Inv) (ms : Nat) : ({ o with clock := o.clock + ms } : Pump X E).Inv where
  toNumbered := { h.toNumbered with }
  toMarked := { h.toMarked with }
  toOrdered :=
    { h.toOrdered with
      fired_done := fun t ht => ⟨(h.fired_done t ht).1, Nat.le_add_right_of_le (h.fired_done t ht).2⟩
      due := fun t ht => by
        have := h.due t ht
        show t.due ≤ o.clock + ms + t.deadline
        omega
      loops_due := fun t ht hl => Nat.le_add_right_of_le (h.loops_due t ht hl) }

theorem Inv.ret {outer : List (List (Timer X E))} (h : o.Inv) (hl : o.loops = [] :: outer) :
    ({ o with loops := outer } : Pump X E).Inv := by
  have hflat : o.loops.flatten = outer.flatten := by rw [hl]; rfl
  have hpend : ({ o with loops := outer } : Pump X E).pending = o.pending := by rw [pending, pending, hflat]
  have halone := h.alone
  rw [hl] at halone
  refine ⟨{ h.toNumbered with pending_armed := ?_, loops_lt := ?_, loops_sorted := ?_, alone := ?_ },
    { h.toMarked with loops_distinct := ?_, live := ?_, first := ?_ },
    { h.toOrdered with
      fires := ?_, fired_done := ?_, fired_before := ?_, pending_order := ?_, due := ?_, loops_due := ?_ }⟩
  · rw [hpend]
    exact h.pending_armed
  · rw [← hflat]
    exact h.loops_lt
  · rw [← hflat]
    exact h.loops_sorted
  · exact (List.pairwise_cons.1 halone).2
  · rw [← hflat]
    exact h.loops_distinct
  · rw [hpend]
    exact h.live
  · rw [hpend]
    exact h.first
  · rw [hpend]
    exact h.fires
  · rw [hpend]
    exact h.fired_done
  · rw [hpend]
    exact h.fired_before
  · rw [hpend]
    exact h.pending_order
  · rw [hpend]
    exact h.due
  · rw [← hflat]
    exact h.loops_due

/-! ## A timer is armed -/

/-- The timer that `dzn:handle` arms. -/
def newTimer (o : Pump X E) (x : X) (deadline : Nat) (event : E) : Timer X E :=
  { deadline, x, event, arming := o.armed.length, due := o.clock + deadline }

theorem mem_pending_handle : t ∈ (o.handle x deadline event).pending ↔
    t = o.newTimer x deadline event ∨ t ∈ o.pending := by
  simp only [mem_pending, handle, List.mem_cons, newTimer]
  tauto

theorem Numbered.new_live (h : o.Numbered) : o.Live (o.newTimer x deadline event) := by
  intro r hr heq
  have hlt := h.removed_lt r hr
  rw [heq] at hlt
  exact Nat.lt_irrefl _ hlt

theorem Numbered.new_not_mem (h : o.Numbered) : o.newTimer x deadline event ∉ o.armed := by
  intro hmem
  exact Nat.lt_irrefl _ (h.lt _ hmem)

theorem Numbered.handle (h : o.Numbered) : (o.handle x deadline event).Numbered where
  lt := by
    intro t ht
    simp only [Pump.handle, List.mem_append, List.mem_singleton, List.length_append, List.length_singleton] at ht ⊢
    rcases ht with ht | rfl
    · exact Nat.lt_succ_of_lt (h.lt t ht)
    · exact Nat.lt_succ_self _
  inj := by
    intro t ht u hu heq
    simp only [Pump.handle, List.mem_append, List.mem_singleton] at ht hu
    rcases ht with ht | rfl <;> rcases hu with hu | rfl
    · exact h.inj t ht u hu heq
    · exact absurd heq (Nat.ne_of_lt (h.lt t ht))
    · exact absurd heq.symm (Nat.ne_of_lt (h.lt u hu))
    · rfl
  pending_armed := by
    intro t ht
    rw [mem_pending_handle] at ht
    simp only [Pump.handle, List.mem_append, List.mem_singleton]
    rcases ht with rfl | ht
    · exact .inr rfl
    · exact .inl (h.pending_armed t ht)
  fired_armed := fun t ht => List.mem_append_left _ (h.fired_armed t ht)
  removed_lt := fun r hr => by
    simp only [Pump.handle, List.length_append, List.length_singleton]
    exact Nat.lt_succ_of_lt (h.removed_lt r hr)
  pumped_le := by
    simp only [Pump.handle, List.length_append, List.length_singleton]
    exact Nat.le_succ_of_le h.pumped_le
  loops_lt := h.loops_lt
  timers_ge := by
    intro t ht
    simp only [Pump.handle, List.mem_cons] at ht
    rcases ht with rfl | ht
    · exact h.pumped_le
    · exact h.timers_ge t ht
  sorted := List.pairwise_cons.2 ⟨fun t ht => h.lt t (h.pending_armed t (mem_pending.2 (.inr ht))), h.sorted⟩
  loops_sorted := h.loops_sorted
  alone := h.alone

/-- A timer is before the new one that is in a loop, or has no larger deadline number. -/
theorem Numbered.before_new (h : o.Numbered) (ht : t ∈ o.pending) (hle : t ∈ o.timers → t.deadline ≤ deadline) :
    o.Before t (o.newTimer x deadline event) := by
  rcases mem_pending.1 ht with hloop | htimer
  · exact .inl ⟨h.loops_lt t hloop, h.pumped_le⟩
  · have hge := h.timers_ge t htimer
    have hlt := h.lt t (h.pending_armed t ht)
    have hle := hle htimer
    have hpumped := h.pumped_le
    refine .inr ⟨iff_of_false (by omega) (by simp only [newTimer]; omega), ?_⟩
    simp only [Timer.Sooner, newTimer]
    omega

/-- What is before a timer that is in a loop is in a loop, and what is before one in `.timers` is in a loop or has no
larger deadline number. -/
theorem Numbered.of_before {p q : Timer X E} (h : o.Numbered) (hq : q ∈ o.pending)
    (hb : o.Before p q) (hle : q ∈ o.timers → q.deadline ≤ deadline) : p ∈ o.timers → p.deadline ≤ deadline := by
  intro hpt
  have hge := h.timers_ge p hpt
  unfold Before Timer.Sooner at hb
  rcases mem_pending.1 hq with hql | hqt
  · have hlt := h.loops_lt q hql
    omega
  · have hle := hle hqt
    omega

/-- What comes after the new timer is due after it. -/
theorem Inv.new_dueBefore (h : o.Inv) (hok : o.Ok (.handle x deadline event)) (hu : u ∈ o.pending) (hul : o.Live u)
    (hb : o.Before (o.newTimer x deadline event) u) : (o.newTimer x deadline event).DueBefore u := by
  have hpumped := h.pumped_le
  have hlt := h.lt u (h.pending_armed u hu)
  simp only [Before, Timer.Sooner, newTimer] at hb
  rcases mem_pending.1 hu with hul | hut
  · have := h.loops_lt u hul
    omega
  · have hdue := hok.2.2 u hut hul (by omega)
    exact .inl hdue

/-- The new timer is due after what comes before it. -/
theorem Inv.dueBefore_new (h : o.Inv) (ht : t ∈ o.pending) (htl : o.Live t)
    (hb : o.Before t (o.newTimer x deadline event)) : t.DueBefore (o.newTimer x deadline event) := by
  have hlt := h.lt t (h.pending_armed t ht)
  have hdue := h.due t ht
  simp only [Before, Timer.Sooner, Timer.DueBefore, newTimer] at hb ⊢
  rcases mem_pending.1 ht with hloop | htimer
  · have := h.loops_due t hloop htl
    omega
  · have hge := h.timers_ge t htimer
    omega

/-- A mark is for a timer that is pending already, and that one is not later than a new one. -/
theorem Inv.exists_marked (h : o.Inv) (hok : o.Ok (.handle x deadline event)) {t : Timer X E}
    (ht : t ∈ (o.handle x deadline event).pending) (hx : t.x ∈ o.canceled) :
    ∃ q ∈ o.pending, q.x = t.x ∧ (t.x = x → q ∈ o.timers → q.deadline ≤ deadline) := by
  by_cases htx : t.x = x
  · rcases hok.2.1 (htx ▸ hx) with ⟨q, hq, hqx⟩ | ⟨q, hq, hqx, hle⟩
    · refine ⟨q, mem_pending.2 (.inl hq), hqx.trans htx.symm, fun _ hqt => ?_⟩
      have hlt := h.loops_lt q hq
      have hge := h.timers_ge q hqt
      omega
    · exact ⟨q, mem_pending.2 (.inr hq), hqx.trans htx.symm, fun _ _ => hle⟩
  · refine ⟨t, (mem_pending_handle.1 ht).resolve_left ?_, rfl, fun heq => absurd heq htx⟩
    rintro rfl
    exact htx rfl

theorem Inv.handle (h : o.Inv) (hok : o.Ok (.handle x deadline event)) : (o.handle x deadline event).Inv where
  toNumbered := h.toNumbered.handle
  toMarked :=
    { distinct := by
        intro t ht u hu hx he
        simp only [Pump.handle, List.mem_cons] at ht hu
        rcases ht with rfl | ht <;> rcases hu with rfl | hu
        · rfl
        · exact absurd ⟨hx.symm, he.symm⟩ (hok.1 u hu)
        · exact absurd ⟨hx, he⟩ (hok.1 t ht)
        · exact h.distinct t ht u hu hx he
      loops_distinct := h.loops_distinct
      live := by
        intro t ht hx
        rcases mem_pending_handle.1 ht with rfl | ht
        · exact h.toNumbered.new_live
        · exact h.live t ht hx
      first := by
        intro t ht hx
        obtain ⟨q, hq, hqx, hqle⟩ := h.exists_marked hok ht hx
        obtain ⟨p, hp, hpx, hdead, hall⟩ := h.first q hq (hqx ▸ hx)
        refine ⟨p, mem_pending_handle.2 (.inr hp), hpx.trans hqx, hdead, fun u hu hux => ?_⟩
        rcases mem_pending_handle.1 hu with rfl | hu
        · refine .inr ⟨h.toNumbered.new_live, h.toNumbered.before_new hp ?_⟩
          rcases hall q hq rfl with rfl | ⟨-, hb⟩
          · exact hqle hux.symm
          · exact h.toNumbered.of_before hq hb (hqle hux.symm)
        · exact hall u hu (hux.trans hqx.symm) }
  toOrdered :=
    { inTime := by
        intro t ht hl
        simp only [Pump.handle, List.mem_append, List.mem_singleton] at ht
        rcases ht with ht | rfl
        · exact h.inTime t ht hl
        · exact absurd h.toNumbered.new_live hl
      fires := by
        intro t ht hp
        rw [mem_pending_handle, not_or] at hp
        simp only [Pump.handle, List.mem_append, List.mem_singleton] at ht
        exact h.fires t (ht.resolve_right hp.1) hp.2
      fired_done := by
        intro t ht
        refine ⟨fun hp => ?_, (h.fired_done t ht).2⟩
        rcases mem_pending_handle.1 hp with rfl | hp
        · exact h.toNumbered.new_not_mem (h.fired_armed _ ht)
        · exact (h.fired_done t ht).1 hp
      order := h.order
      fired_before := by
        intro t ht u hu hl
        rcases mem_pending_handle.1 hu with rfl | hu
        · have hdue := (h.fired_done t ht).2
          have hlt := h.lt t (h.fired_armed t ht)
          simp only [Timer.DueBefore, newTimer]
          omega
        · exact h.fired_before t ht u hu hl
      pending_order := by
        intro t ht u hu htl hul hb
        rcases mem_pending_handle.1 ht with rfl | ht <;> rcases mem_pending_handle.1 hu with rfl | hu
        · simp [Before, Timer.Sooner] at hb
          exact absurd hb (by simp [Pump.handle])
        · exact h.new_dueBefore hok hu hul hb
        · exact h.dueBefore_new ht htl hb
        · exact h.pending_order t ht u hu htl hul hb
      due := by
        intro t ht
        rcases mem_pending_handle.1 ht with rfl | ht
        · exact Nat.le_refl _
        · exact h.due t ht
      loops_due := h.loops_due }

/-! ## A timer is removed -/

section
variable [DecidableEq X]

theorem live_of_remove (h : (o.remove x).Live t) : o.Live t := fun r hr => h r (List.mem_append_left _ hr)

/-- The timers that are removed are those with the id that are pending. -/
theorem Numbered.live_remove (h : o.Numbered) (ht : t ∈ o.armed) :
    (o.remove x).Live t ↔ o.Live t ∧ ¬ (t ∈ o.pending ∧ t.x = x) := by
  refine ⟨fun hl => ⟨live_of_remove hl, fun hp => ?_⟩, fun hl r hr heq => ?_⟩
  · refine hl (t.arming, o.clock) ?_ rfl
    simp only [Pump.remove, List.mem_append, List.mem_map, List.mem_filter, decide_eq_true_eq]
    exact .inr ⟨t, hp, rfl⟩
  · simp only [Pump.remove, List.mem_append, List.mem_map, List.mem_filter, decide_eq_true_eq] at hr
    rcases hr with hr | ⟨u, ⟨hu, hux⟩, rfl⟩
    · exact hl.1 r hr heq
    · obtain rfl := h.inj u (h.pending_armed u hu) t ht heq
      exact hl.2 ⟨hu, hux⟩

theorem Numbered.remove (h : o.Numbered) : (o.remove x).Numbered :=
  { h with
    removed_lt := by
      intro r hr
      simp only [Pump.remove, List.mem_append, List.mem_map, List.mem_filter] at hr
      rcases hr with hr | ⟨t, ⟨ht, -⟩, rfl⟩
      · exact h.removed_lt r hr
      · exact h.lt t (h.pending_armed t ht) }

theorem Inv.remove (h : o.Inv) (hok : o.Ok (.remove x)) : (o.remove x).Inv where
  toNumbered := h.toNumbered.remove
  toMarked :=
    { distinct := h.distinct
      loops_distinct := h.loops_distinct
      live := by
        intro t ht hx
        simp only [Pump.remove, List.mem_cons, not_or] at hx
        exact (h.toNumbered.live_remove (h.pending_armed t ht)).2 ⟨h.live t ht hx.2, fun hp => hx.1 hp.2⟩
      first := by
        intro t ht hx
        have hdead : ∀ {u : Timer X E}, u ∈ o.pending → u.x = x → ¬ (o.remove x).Live u := fun hu hux hl =>
          ((h.toNumbered.live_remove (h.pending_armed _ hu)).1 hl).2 ⟨hu, hux⟩
        by_cases htx : t.x = x
        · by_cases hlive : ∃ u ∈ o.pending, u.x = x ∧ o.Live u
          · -- it is the only one that is pending
            obtain ⟨u, hu, hux, hul⟩ := hlive
            have honly := (hok u hu hux hul).1
            exact ⟨t, ht, rfl, hdead ht htx, fun v hv hvx =>
              .inl ((honly v hv (hvx.trans htx)).trans (honly t ht htx).symm)⟩
          · -- there is one, and it was removed before
            have hmark : t.x ∈ o.canceled := by
              by_contra hnot
              exact hlive ⟨t, ht, htx, h.live t ht hnot⟩
            obtain ⟨p, hp, hpx, -, hall⟩ := h.first t ht hmark
            refine ⟨p, hp, hpx, hdead hp (hpx.trans htx), fun u hu hux => .inl ?_⟩
            exact (hall u hu hux).resolve_right fun hul => hlive ⟨u, hu, hux.trans htx, hul.1⟩
        · have hmark : t.x ∈ o.canceled := by
            simp only [Pump.remove, List.mem_cons] at hx
            exact hx.resolve_left htx
          obtain ⟨p, hp, hpx, hpd, hall⟩ := h.first t ht hmark
          refine ⟨p, hp, hpx, fun hl => hpd (live_of_remove hl), fun u hu hux => ?_⟩
          refine (hall u hu hux).imp_right fun hul => ⟨?_, hul.2⟩
          exact (h.toNumbered.live_remove (h.pending_armed u hu)).2 ⟨hul.1, fun hp => htx (hux.symm.trans hp.2)⟩ }
  toOrdered :=
    { inTime := by
        intro t ht hl
        by_cases hlive : o.Live t
        · rw [h.toNumbered.live_remove ht] at hl
          have hp : t ∈ o.pending ∧ t.x = x := by
            by_contra hnot
            exact hl ⟨hlive, hnot⟩
          refine ⟨(t.arming, o.clock), ?_, rfl, (hok t hp.1 hp.2 hlive).2⟩
          simp only [Pump.remove, List.mem_append, List.mem_map, List.mem_filter, decide_eq_true_eq]
          exact .inr ⟨t, hp, rfl⟩
        · obtain ⟨r, hr, heq⟩ := h.inTime t ht hlive
          exact ⟨r, List.mem_append_left _ hr, heq⟩
      fires := by
        intro t ht hp
        rw [h.toNumbered.live_remove ht, ← h.fires t ht hp]
        exact ⟨fun hf => ⟨hf, fun hpt => hp hpt.1⟩, fun hf => hf.1⟩
      fired_done := h.fired_done
      order := h.order
      fired_before := fun t ht u hu hl => h.fired_before t ht u hu (live_of_remove hl)
      pending_order := fun t ht u hu htl hul => h.pending_order t ht u hu (live_of_remove htl) (live_of_remove hul)
      due := h.due
      loops_due := fun t ht hl => h.loops_due t ht (live_of_remove hl) }

end

/-! ## A loop starts -/

theorem mem_pending_takeTimers : t ∈ o.takeTimers.pending ↔ t ∈ o.pending := by
  simp only [mem_pending, takeTimers, List.flatten_cons, List.mem_append, List.not_mem_nil, or_false]
  exact or_comm

/-- The order of what is pending stays, when it is all in `.timers` or in one loop. -/
theorem Numbered.before_takeTimers (h : o.Numbered) (hok : o.timers = [] ∨ o.loops.flatten = []) (ht : t ∈ o.pending)
    (hu : u ∈ o.pending) : o.takeTimers.Before t u ↔ o.Before t u := by
  have hlt : ∀ t ∈ o.pending, t.arming < o.armed.length := fun t ht => h.lt t (h.pending_armed t ht)
  have hside : (∀ t ∈ o.pending, o.pumped ≤ t.arming) ∨ ∀ t ∈ o.pending, t.arming < o.pumped := by
    rcases hok with hnil | hnil
    · exact .inr fun t ht => h.loops_lt t ((mem_pending.1 ht).resolve_right (by simp [hnil]))
    · exact .inl fun t ht => h.timers_ge t ((mem_pending.1 ht).resolve_left (by simp [hnil]))
  have htlt := hlt t ht
  have hult := hlt u hu
  simp only [Before, Pump.takeTimers, Timer.Sooner]
  rcases hside with hside | hside
  · have := hside t ht
    have := hside u hu
    omega
  · have := hside t ht
    have := hside u hu
    omega

theorem Numbered.takeTimers (h : o.Numbered) (hok : o.timers = [] ∨ o.loops.flatten = []) :
    o.takeTimers.Numbered where
  lt := h.lt
  inj := h.inj
  pending_armed t ht := h.pending_armed t (mem_pending_takeTimers.1 ht)
  fired_armed := h.fired_armed
  removed_lt := h.removed_lt
  pumped_le := Nat.le_refl _
  loops_lt t ht := by
    have ht : t ∈ o.pending := mem_pending_takeTimers.1 (mem_pending.2 (.inl ht))
    exact h.lt t (h.pending_armed t ht)
  timers_ge t ht := by cases ht
  sorted := .nil
  loops_sorted := by
    rw [Pump.takeTimers, List.flatten_cons]
    rcases hok with hnil | hnil
    · rw [hnil]
      exact h.loops_sorted
    · rw [hnil, List.append_nil]
      exact h.sorted
  alone := by
    refine List.pairwise_cons.2 ⟨fun l hl => ?_, h.alone⟩
    exact hok.imp_right fun hnil => List.flatten_eq_nil_iff.1 hnil l hl

theorem Inv.takeTimers (h : o.Inv) (hok : o.Ok .pump) : o.takeTimers.Inv where
  toNumbered := h.toNumbered.takeTimers hok.2
  toMarked :=
    { distinct := by
        intro t ht
        cases ht
      loops_distinct := by
        rw [Pump.takeTimers, List.flatten_cons]
        rcases hok.2 with hnil | hnil
        · rw [hnil]
          exact h.loops_distinct
        · rw [hnil, List.append_nil]
          exact h.distinct
      live := fun t ht => h.live t (mem_pending_takeTimers.1 ht)
      first := by
        intro t ht hx
        obtain ⟨p, hp, hpx, hpd, hall⟩ := h.first t (mem_pending_takeTimers.1 ht) hx
        refine ⟨p, mem_pending_takeTimers.2 hp, hpx, hpd, fun u hu hux => ?_⟩
        have hu := mem_pending_takeTimers.1 hu
        exact (hall u hu hux).imp_right fun hul => ⟨hul.1, (h.toNumbered.before_takeTimers hok.2 hp hu).2 hul.2⟩ }
  toOrdered :=
    { inTime := h.inTime
      fires := fun t ht hp => h.fires t ht fun hpt => hp (mem_pending_takeTimers.2 hpt)
      fired_done := fun t ht => ⟨fun hp => (h.fired_done t ht).1 (mem_pending_takeTimers.1 hp), (h.fired_done t ht).2⟩
      order := h.order
      fired_before := fun t ht u hu => h.fired_before t ht u (mem_pending_takeTimers.1 hu)
      pending_order := by
        intro t ht u hu htl hul hb
        have ht := mem_pending_takeTimers.1 ht
        have hu := mem_pending_takeTimers.1 hu
        exact h.pending_order t ht u hu htl hul ((h.toNumbered.before_takeTimers hok.2 ht hu).1 hb)
      due := fun t ht => h.due t (mem_pending_takeTimers.1 ht)
      loops_due := by
        intro t ht hl
        rw [Pump.takeTimers, List.flatten_cons, List.mem_append] at ht
        exact ht.elim (fun ht => hok.1 t ht hl) fun ht => h.loops_due t ht hl }

/-! ## A turn of a loop -/

section
variable {l : List (Timer X E)} {outer : List (List (Timer X E))}

/-- In a turn the innermost loop has all the timers that are in loops, and its first one is the first of all. -/
theorem Inv.pick_first (h : o.Inv) (hl : o.loops = l :: outer) (ht : pick l = some t) :
    o.loops.flatten = l ∧ t ∈ l ∧ ∀ u ∈ o.pending, u = t ∨ o.Before t u := by
  have hne : l ≠ [] := by
    rintro rfl
    cases ht
  have hflat : o.loops.flatten = l := by
    have halone := h.alone
    rw [hl] at halone
    have hnil : outer.flatten = [] :=
      List.flatten_eq_nil_iff.2 fun l' hl' => ((List.pairwise_cons.1 halone).1 l' hl').resolve_left hne
    rw [hl, List.flatten_cons, hnil, List.append_nil]
  have hsort := h.loops_sorted
  have hlt := h.loops_lt
  rw [hflat] at hsort hlt
  obtain ⟨htl, hfirst⟩ := pick_spec hsort ht
  refine ⟨hflat, htl, fun u hu => ?_⟩
  rcases mem_pending.1 hu with hul | hut
  · rw [hflat] at hul
    exact (hfirst u hul).imp_right fun hs => .inr ⟨iff_of_true (hlt t htl) (hlt u hul), hs⟩
  · exact .inr (.inl ⟨hlt t htl, h.timers_ge u hut⟩)

/-- The timer of a turn fires when it was not removed. -/
theorem Inv.canceled_iff (h : o.Inv) (hl : o.loops = l :: outer) (ht : pick l = some t) :
    t.x ∈ o.canceled ↔ ¬ o.Live t := by
  obtain ⟨hflat, htl, hfirst⟩ := h.pick_first hl ht
  have htp : t ∈ o.pending := mem_pending.2 (.inl (by rw [hflat]; exact htl))
  refine ⟨fun hx hlive => ?_, fun hdead => by_contra fun hx => hdead (h.live t htp hx)⟩
  obtain ⟨p, hp, hpx, hpd, hall⟩ := h.first t htp hx
  rcases hall t htp rfl with rfl | ⟨-, hpt⟩
  · exact hpd hlive
  · rcases hfirst p hp with rfl | htp
    · exact hpd hlive
    · unfold Before Timer.Sooner at hpt htp
      omega

variable [DecidableEq X] [DecidableEq E]

/-- The timer of a turn is the only one that is taken from the loop. -/
theorem Inv.mem_turn (h : o.Inv) (hl : o.loops = l :: outer) (ht : pick l = some t) :
    (o.turn l outer t).timers = o.timers ∧
      ∀ u, (u ∈ (o.turn l outer t).loops.flatten ↔ u ∈ o.loops.flatten ∧ u ≠ t) := by
  obtain ⟨hflat, htl, -⟩ := h.pick_first hl ht
  have hdistinct := h.loops_distinct
  rw [hflat] at hdistinct
  have hloops : (o.turn l outer t).loops = (l.filter fun u => ¬ (u.x = t.x ∧ u.event = t.event)) :: outer := by
    unfold Pump.turn
    split <;> rfl
  refine ⟨by unfold Pump.turn; split <;> rfl, fun u => ?_⟩
  have houter : outer.flatten = [] := by
    rw [hl, List.flatten_cons] at hflat
    simpa using hflat
  rw [hloops, List.flatten_cons, houter, List.append_nil, hflat, List.mem_filter, decide_eq_true_eq]
  refine and_congr_right fun hu => not_congr ⟨fun hxe => hdistinct u hu t htl hxe.1 hxe.2, ?_⟩
  rintro rfl
  exact ⟨rfl, rfl⟩

/-- What a turn leaves as it is. -/
theorem turn_eq (o : Pump X E) (l : List (Timer X E)) (outer : List (List (Timer X E))) (t : Timer X E) :
    (o.turn l outer t).armed = o.armed ∧ (o.turn l outer t).removed = o.removed ∧
      (o.turn l outer t).pumped = o.pumped ∧ (o.turn l outer t).clock = o.clock ∧
      (o.turn l outer t).fired = o.fired ++ (if t.x ∈ o.canceled then [] else [t]) ∧
      (o.turn l outer t).canceled = o.canceled.filter fun x => x ≠ t.x := by
  unfold Pump.turn
  split
  · exact ⟨rfl, rfl, rfl, rfl, (List.append_nil _).symm, rfl⟩
  · rename_i hnot
    refine ⟨rfl, rfl, rfl, rfl, rfl, ?_⟩
    refine (List.filter_eq_self.2 fun x hx => ?_).symm
    rw [decide_eq_true_eq]
    rintro rfl
    exact hnot hx

theorem Inv.mem_pending_turn (h : o.Inv) (hl : o.loops = l :: outer) (ht : pick l = some t) :
    u ∈ (o.turn l outer t).pending ↔ u ∈ o.pending ∧ u ≠ t := by
  obtain ⟨hflat, htl, -⟩ := h.pick_first hl ht
  obtain ⟨htimers, hloops⟩ := h.mem_turn hl ht
  rw [mem_pending, mem_pending, hloops, htimers, or_and_right]
  refine or_congr_right ⟨fun hu => ⟨hu, ?_⟩, fun hu => hu.1⟩
  rintro rfl
  have := h.loops_lt u (by rw [hflat]; exact htl)
  have := h.timers_ge u hu
  omega

theorem Inv.turn_numbered (h : o.Inv) (hl : o.loops = l :: outer) (ht : pick l = some t) :
    (o.turn l outer t).Numbered := by
  obtain ⟨hflat, htl, -⟩ := h.pick_first hl ht
  obtain ⟨htimers, hloops⟩ := h.mem_turn hl ht
  obtain ⟨harmed, hremoved, hpumped, -, hfired, -⟩ := o.turn_eq l outer t
  have htp : t ∈ o.pending := mem_pending.2 (.inl (by rw [hflat]; exact htl))
  have hsub : (o.turn l outer t).loops = (l.filter fun u => ¬ (u.x = t.x ∧ u.event = t.event)) :: outer := by
    unfold Pump.turn
    split <;> rfl
  have hsorted := h.loops_sorted
  have halone := h.alone
  rw [hl, List.flatten_cons] at hsorted
  rw [hl] at halone
  refine ⟨?_, ?_, ?_, ?_, ?_, ?_, ?_, ?_, ?_, ?_, ?_⟩
  · rw [harmed]
    exact h.lt
  · rw [harmed]
    exact h.inj
  · intro u hu
    rw [harmed]
    exact h.pending_armed u ((h.mem_pending_turn hl ht).1 hu).1
  · intro u hu
    rw [harmed]
    rw [hfired, List.mem_append] at hu
    rcases hu with hu | hu
    · exact h.fired_armed u hu
    · split at hu
      · cases hu
      · obtain rfl := List.mem_singleton.1 hu
        exact h.pending_armed u htp
  · rw [hremoved, harmed]
    exact h.removed_lt
  · rw [hpumped, harmed]
    exact h.pumped_le
  · intro u hu
    rw [hpumped]
    exact h.loops_lt u ((hloops u).1 hu).1
  · rw [htimers, hpumped]
    exact h.timers_ge
  · rw [htimers]
    exact h.sorted
  · rw [hsub, List.flatten_cons]
    exact hsorted.sublist (List.Sublist.append_right List.filter_sublist _)
  · rw [hsub]
    refine List.pairwise_cons.2 ⟨fun l' hl' => ?_, (List.pairwise_cons.1 halone).2⟩
    refine ((List.pairwise_cons.1 halone).1 l' hl').imp_left ?_
    rintro rfl
    rfl

theorem Inv.turn_marked (h : o.Inv) (hl : o.loops = l :: outer) (ht : pick l = some t) :
    (o.turn l outer t).Marked := by
  obtain ⟨htimers, hloops⟩ := h.mem_turn hl ht
  obtain ⟨-, hremoved, hpumped, -, -, hcanceled⟩ := o.turn_eq l outer t
  have hlive : ∀ u, (o.turn l outer t).Live u ↔ o.Live u := fun u => by rw [Live, Live, hremoved]
  have hbefore : ∀ u v, (o.turn l outer t).Before u v ↔ o.Before u v := fun u v => by rw [Before, Before, hpumped]
  obtain ⟨hflat, htl, hfirst⟩ := h.pick_first hl ht
  have htp : t ∈ o.pending := mem_pending.2 (.inl (by rw [hflat]; exact htl))
  refine ⟨?_, ?_, ?_, ?_⟩
  · rw [htimers]
    exact h.distinct
  · intro u hu v hv
    exact h.loops_distinct u ((hloops u).1 hu).1 v ((hloops v).1 hv).1
  · intro u hu hx
    rw [hlive]
    obtain ⟨hu, hut⟩ := (h.mem_pending_turn hl ht).1 hu
    by_cases hmark : u.x ∈ o.canceled
    · -- the mark is taken by the timer of the turn
      have htx : u.x = t.x := by
        by_contra hne
        exact hx (by rw [hcanceled]; exact List.mem_filter.2 ⟨hmark, by simpa using hne⟩)
      obtain ⟨p, hp, hpx, hpd, hall⟩ := h.first u hu hmark
      have hpt : p = t := by
        rcases hall t htp htx.symm with heq | ⟨-, hb⟩
        · exact heq.symm
        · rcases hfirst p hp with heq | hb'
          · exact heq
          · unfold Before Timer.Sooner at hb hb'
            omega
      exact ((hall u hu rfl).resolve_left fun heq => hut (heq.trans hpt)).1
    · exact h.live u hu hmark
  · intro u hu hx
    obtain ⟨hu, hut⟩ := (h.mem_pending_turn hl ht).1 hu
    rw [hcanceled, List.mem_filter, decide_eq_true_eq] at hx
    obtain ⟨p, hp, hpx, hpd, hall⟩ := h.first u hu hx.1
    refine ⟨p, (h.mem_pending_turn hl ht).2 ⟨hp, ?_⟩, hpx, fun hd => hpd ((hlive p).1 hd), fun v hv hvx => ?_⟩
    · rintro rfl
      exact hx.2 hpx.symm
    · rw [hlive, hbefore]
      exact hall v ((h.mem_pending_turn hl ht).1 hv).1 hvx

theorem Inv.turn (h : o.Inv) (hl : o.loops = l :: outer) (ht : pick l = some t) : (o.turn l outer t).Inv where
  toNumbered := h.turn_numbered hl ht
  toMarked := h.turn_marked hl ht
  toOrdered := by
    obtain ⟨hflat, htl, hfirst⟩ := h.pick_first hl ht
    obtain ⟨-, hloops⟩ := h.mem_turn hl ht
    obtain ⟨harmed, hremoved, hpumped, hclock, hfired, -⟩ := o.turn_eq l outer t
    have hlive : ∀ u, (o.turn l outer t).Live u ↔ o.Live u := fun u => by rw [Live, Live, hremoved]
    have hbefore : ∀ u v, (o.turn l outer t).Before u v ↔ o.Before u v := fun u v => by rw [Before, Before, hpumped]
    have htloop : t ∈ o.loops.flatten := by rw [hflat]; exact htl
    have htp : t ∈ o.pending := mem_pending.2 (.inl htloop)
    have hmem : ∀ u, u ∈ (o.turn l outer t).fired ↔ u ∈ o.fired ∨ u = t ∧ o.Live t := by
      intro u
      rw [hfired, List.mem_append]
      have := h.canceled_iff hl ht
      split <;> simp_all
    refine ⟨?_, ?_, ?_, ?_, ?_, ?_, ?_, ?_⟩
    · intro u hu hd
      rw [harmed] at hu
      rw [hlive] at hd
      rw [RemovedInTime, hremoved]
      exact h.inTime u hu hd
    · intro u hu hp
      rw [harmed] at hu
      rw [hlive, hmem]
      by_cases hut : u = t
      · subst hut
        refine ⟨?_, fun hlu => .inr ⟨rfl, hlu⟩⟩
        rintro (hf | hlu)
        · exact absurd htp (h.fired_done u hf).1
        · exact hlu.2
      · rw [h.mem_pending_turn hl ht, not_and, not_not] at hp
        rw [h.fires u hu fun hpu => hut (hp hpu)]
        simp [hut]
    · intro u hu
      rw [h.mem_pending_turn hl ht, hclock]
      rcases (hmem u).1 hu with hf | ⟨rfl, hlu⟩
      · exact ⟨fun hp => (h.fired_done u hf).1 hp.1, (h.fired_done u hf).2⟩
      · exact ⟨fun hp => hp.2 rfl, h.loops_due u htloop hlu⟩
    · rw [hfired]
      split
      · rw [List.append_nil]
        exact h.order
      · rename_i hx
        have hlt : o.Live t := by
          by_contra hd
          exact hx ((h.canceled_iff hl ht).2 hd)
        refine List.pairwise_append.2 ⟨h.order, List.pairwise_singleton _ _, fun u hu v hv => ?_⟩
        obtain rfl := List.mem_singleton.1 hv
        exact h.fired_before u hu v htp hlt
    · intro u hu v hv hlv
      rw [hlive] at hlv
      obtain ⟨hvp, hvt⟩ := (h.mem_pending_turn hl ht).1 hv
      rcases (hmem u).1 hu with hf | ⟨rfl, hlu⟩
      · exact h.fired_before u hf v hvp hlv
      · exact h.pending_order u htp v hvp hlu hlv ((hfirst v hvp).resolve_left hvt)
    · intro u hu v hv hlu hlv hb
      rw [hlive] at hlu hlv
      exact h.pending_order u ((h.mem_pending_turn hl ht).1 hu).1 v ((h.mem_pending_turn hl ht).1 hv).1 hlu hlv
        ((hbefore u v).1 hb)
    · intro u hu
      rw [hclock]
      exact h.due u ((h.mem_pending_turn hl ht).1 hu).1
    · intro u hu hlu
      rw [hlive] at hlu
      rw [hclock]
      exact h.loops_due u ((hloops u).1 hu).1 hlu

/-! ## Every run -/

theorem Inv.step {op : Op X E} (h : o.Inv) (hok : o.Ok op) (hs : o.step op = some o') : o'.Inv := by
  cases op with
  | handle x deadline event =>
    obtain rfl := Option.some.inj hs
    exact h.handle hok
  | remove x =>
    obtain rfl := Option.some.inj hs
    exact h.remove hok
  | advance ms =>
    obtain rfl := Option.some.inj hs
    exact h.advance ms
  | pump =>
    obtain rfl := Option.some.inj hs
    exact h.takeTimers hok
  | turn =>
    cases hl : o.loops with
    | nil => simp [Pump.step, hl] at hs
    | cons l outer =>
      simp only [Pump.step, hl, Option.map_eq_some_iff] at hs
      obtain ⟨t, ht, rfl⟩ := hs
      exact h.turn hl ht
  | ret =>
    cases hl : o.loops with
    | nil => simp [Pump.step, hl] at hs
    | cons l outer =>
      cases l with
      | nil =>
        simp only [Pump.step, hl, Option.some.injEq] at hs
        subst hs
        exact h.ret hl
      | cons t l => simp [Pump.step, hl] at hs

theorem Runs.inv {ops : List (Op X E)} (h : Runs ops o) : o.Inv := by
  induction h with
  | init => exact inv_init
  | step _ hok hs ih => exact ih.step hok hs

/-- In a run whose steps are like this the timers that are not removed fire once and in order. -/
theorem Runs.timers_right (ops : List (Op X E)) (o : Pump X E) (h : Runs ops o) : o.Right := h.inv.right

end

/-- A loop that has timers left takes a turn, and then has fewer; so it comes to all of them. -/
theorem Inv.exists_turn [DecidableEq X] [DecidableEq E] {l : List (Timer X E)} {outer : List (List (Timer X E))}
    (h : o.Inv) (hl : o.loops = l :: outer) (hne : l ≠ []) :
    ∃ o', o.step .turn = some o' ∧ o'.loops.flatten.length < o.loops.flatten.length := by
  obtain ⟨t, ht⟩ := pick_isSome hne
  obtain ⟨-, htl, -⟩ := h.pick_first hl ht
  refine ⟨o.turn l outer t, by simp only [Pump.step, hl, ht, Option.map_some], ?_⟩
  have hsub : (o.turn l outer t).loops.flatten =
      (l.filter fun u => ¬ (u.x = t.x ∧ u.event = t.event)) ++ outer.flatten := by
    unfold Pump.turn
    split <;> rfl
  rw [hsub, hl, List.flatten_cons, List.length_append, List.length_append, Nat.add_lt_add_iff_right]
  exact List.length_filter_lt_length_iff_exists.2 ⟨t, htl, by simp⟩

/-- A timer is armed, removed and armed again for a later deadline, and fires. -/
theorem right_rearmed : ∃ o : Pump Nat Nat,
    Runs [.handle 0 5 0, .remove 0, .handle 0 7 1, .advance 7, .pump, .turn, .turn, .ret] o ∧
      o.fired.map Timer.arming = [1] ∧ o.Right := by
  have handled : Runs [.handle 0 5 0] (init.handle 0 5 0) := .step .init (by simp [Ok, init]) rfl
  have removed : Runs [.handle 0 5 0, .remove 0] ((init.handle 0 5 0).remove 0) :=
    .step handled (by simp [Ok, init, Pump.handle, pending]) rfl
  have rearmed : Runs [.handle 0 5 0, .remove 0, .handle 0 7 1] (((init.handle 0 5 0).remove 0).handle 0 7 1) :=
    .step removed (by simp [Ok, init, Pump.handle, Pump.remove]) rfl
  have advanced : Runs (_ ++ [.advance 7]) _ := .step rearmed trivial rfl
  have pumped : Runs (_ ++ [.pump]) _ :=
    .step advanced (by simp [Ok, Live, init, Pump.handle, Pump.remove, pending]) rfl
  have first : Runs (_ ++ [.turn]) _ := .step pumped trivial rfl
  have second : Runs (_ ++ [.turn]) _ := .step first trivial rfl
  have ended : Runs (_ ++ [.ret]) _ := .step second trivial rfl
  exact ⟨_, ended, rfl, Runs.timers_right _ _ ended⟩

/-- An id is removed before a timer is armed under it, and the timer does not fire. -/
theorem not_right_stale : ¬ ∀ (ops : List (Op Nat Nat)) (o : Pump Nat Nat), init.run ops = some o → o.Right := by
  intro h
  have hright := h [.remove 0, .handle 0 0 0, .pump, .turn, .ret] _ rfl
  have hfires := (hright.fires ⟨0, 0, 0, 0, 0⟩ (by decide) (by decide)).2
  exact absurd (hfires (by rintro ⟨r, hr, -⟩; cases hr)) (by decide)

end Pump

end Dezyne.SchemeTimers
