import Dezyne.CQueue
import Dezyne.FlushRun
import Mathlib.Algebra.GroupWithZero.Nat
/-!
# Events between components in the C runtime

The C runtime does with the same reactions what the Scheme runtime does, with two
differences: an event that is handled at once is not followed by a second flush, and
a queue is empty when its counter is zero.
-/

namespace Dezyne.CFlush

open Flush

/-- What is still to be done. -/
inductive Frame (Component Event Store Reply : Type) where
  /-- `event (argument)`, or the body of an in-event, with `dzn_runtime_finish` at its end. -/
  | body (d : Direction) (c : Component) (b : Body Component Event Store Reply)
  /-- The same while a call is not back. -/
  | wait (d : Direction) (c : Component) (k : Reply → Body Component Event Store Reply)
  /-- An in-event after `dzn_runtime_finish`. -/
  | back (c : Component) (r : Reply)
  /-- `while (dzn_queue_empty (q) == false)` in `dzn_runtime_flush`. -/
  | drain (info : Component)
  /-- `if (info->deferred)` in that loop. -/
  | target (info : Component)

/-- `dzn_queue_empty` of a queue that holds these elements. -/
def queueEmpty {Event : Type} (q : List Event) : Bool := if UInt8.ofNat q.length = 0 then true else false

theorem queueEmpty_holds {Event : Type} {q : CQueue.Queue Event} {cells : List (Nat × Event)}
    (h : CQueue.Holds q cells) : CQueue.dznQueueEmpty q = queueEmpty (cells.map Prod.snd) := by
  simp [CQueue.dznQueueEmpty, CQueue.dznQueueSize, queueEmpty, h.size]

section
variable {Component Event Store Reply : Type} [DecidableEq Component]

/-- A runtime with what is still to be done; `handling` is 0 or -1, and `performs_flush` is `flushes`. -/
structure State (Component Event Store Reply : Type) where
  rt : Runtime Component Event Store
  stack : List (Frame Component Event Store Reply)

/-! ## The procedures -/

/-- `dzn_runtime_start`; `none` where its assertion fails. -/
def runtimeStart (rt : Runtime Component Event Store) (info : Component) :
    Option (Runtime Component Event Store) :=
  if rt.handling info then none else some (rt.setHandling info true)

/-- `dzn_runtime_finish`, up to the loop of `dzn_runtime_flush`. -/
def runtimeFinish (rt : Runtime Component Event Store) (info : Component)
    (stack : List (Frame Component Event Store Reply)) : State Component Event Store Reply :=
  { rt := rt.setHandling info false, stack := .drain info :: stack }

/-- `dzn_runtime_handle_event`, up to `event (argument)`. -/
def runtimeHandleEvent (rs : Reactions Component Event Store Reply) (rt : Runtime Component Event Store)
    (info : Component) (e : Event) (stack : List (Frame Component Event Store Reply)) :
    Option (State Component Event Store Reply) :=
  (runtimeStart rt info).map fun rt =>
    { rt := { rt with handled := rt.handled ++ [(info, e)] }, stack := .body .callOut info (rs.react info e) :: stack }

/-- `dzn_runtime_enqueue` -/
def runtimeEnqueue (rs : Reactions Component Event Store Reply) (rt : Runtime Component Event Store)
    (src : Option Component) (tgt : Component) (e : Event) (stack : List (Frame Component Event Store Reply)) :
    Option (State Component Event Store Reply) :=
  let rt := { rt with posted := rt.posted ++ [(tgt, e)] }
  if !(src.any rs.flushes) && !rt.handling tgt then runtimeHandleEvent rs rt tgt e stack
  else
    let rt := rt.enq tgt e
    match src with
    | none => some { rt, stack }
    | some src => some { rt := rt.setDeferred src (some tgt), stack }

/-- An in-event, up to its body. -/
def callIn (rs : Reactions Component Event Store Reply) (rt : Runtime Component Event Store) (c : Component)
    (e : Event)
    (stack : List (Frame Component Event Store Reply)) : Option (State Component Event Store Reply) :=
  (runtimeStart rt c).map fun rt => { rt, stack := .body .callIn c (rs.react c e) :: stack }

/-- One step of the runtime. -/
def step (rs : Reactions Component Event Store Reply) (s : State Component Event Store Reply) :
    Option (State Component Event Store Reply) :=
  match s.stack with
  | [] => none
  | .body d c (.reply r) :: stack =>
    some (runtimeFinish s.rt c (match d with
      | .callIn => .back c r :: stack
      | .callOut => stack))
  | .body d c (.update f k) :: stack =>
    let store := f s.rt.store
    some { rt := { s.rt with store }, stack := .body d c (k store) :: stack }
  | .body d c (.call c' e k) :: stack => callIn rs s.rt c' e (.wait d c k :: stack)
  | .body d c (.post o e k) :: stack => runtimeEnqueue rs s.rt (some c) o e (.body d c k :: stack)
  | .body d c (.external o e k) :: stack => runtimeEnqueue rs s.rt none o e (.body d c k :: stack)
  | .wait _ _ _ :: _ => none
  | .back _ r :: stack =>
    match stack with
    | [] => some { s with stack := [] }
    | .wait d c k :: stack => some { s with stack := .body d c (k r) :: stack }
    | _ => none
  | .drain info :: stack =>
    if queueEmpty (s.rt.q info) then some { s with stack := .target info :: stack }
    else
      match s.rt.q info with
      | [] => none
      | c :: q => runtimeHandleEvent rs { s.rt with q := Function.update s.rt.q info q } info c (.drain info :: stack)
  | .target info :: stack =>
    match s.rt.deferred info with
    | none => some { s with stack }
    | some tgt =>
      let rt := s.rt.setDeferred info none
      -- with a busy target the loop goes on with the same component
      if rt.handling tgt then some { rt, stack := .drain info :: stack } else some { rt, stack := .drain tgt :: stack }

/-- The outermost call, event or flush. -/
def start (rs : Reactions Component Event Store Reply) (rt : Runtime Component Event Store) :
    Outermost Component Event → Option (State Component Event Store Reply)
  | .call c e => callIn rs rt c e []
  | .external o e => runtimeEnqueue rs rt none o e []
  | .flush info => some { rt, stack := [.drain info] }

/-! ## The condition -/

/-- An event is handled at once, or its queue has room. -/
def hasRoom (rs : Reactions Component Event Store Reply) (rt : Runtime Component Event Store)
    (i : Option Component) (o : Component) : Bool :=
  (!(i.any rs.flushes) && !rt.handling o) || decide ((rt.q o).length < 255)

/-- The step of the Scheme runtime meets the condition: a call reaches a component that handles no event, a queue
gets no 256 events, and a second flush has nothing to do. -/
def meets (rs : Reactions Component Event Store Reply) (s : Flush.State Component Event Store Reply) : Bool :=
  match s.stack with
  | .body _ _ (.call c _ _) :: _ => !s.rt.handling c
  | .body _ c (.post o _ _) :: _ => hasRoom rs s.rt (some c) o
  | .body _ _ (.external o _ _) :: _ => hasRoom rs s.rt none o
  | .again o :: _ => (s.rt.q o).isEmpty && (s.rt.deferred o).isNone
  | _ => true

/-! ## The simulation -/

/-- The same frames without the second flushes. -/
def erase : List (Flush.Frame Component Event Store Reply) → List (Frame Component Event Store Reply)
  | [] => []
  | .body d c b :: stack => .body d c b :: erase stack
  | .wait d c k :: stack => .wait d c k :: erase stack
  | .back c r :: stack => .back c r :: erase stack
  | .drain o :: stack => .drain o :: erase stack
  | .handled o :: stack => .drain o :: erase stack
  | .target o :: stack => .target o :: erase stack
  | .again _ :: stack => erase stack

/-- The first frame flushes a component that has nothing to flush. -/
def Idle (s : Flush.State Component Event Store Reply)
    (stack : List (Flush.Frame Component Event Store Reply)) : Prop :=
  ∃ o, (s.stack = .drain o :: stack ∨ s.stack = .target o :: stack) ∧ s.rt.q o = [] ∧ s.rt.deferred o = none

/-- A flush gets to its target when its queue is empty, and has no other work above it. -/
structure Targets (s : Flush.State Component Event Store Reply) : Prop where
  below : ∀ o, .target o ∉ s.stack.tail
  first : ∀ o stack, s.stack = .target o :: stack → s.rt.q o = []

/-- The states are alike: the same runtime, and the same still to be done. -/
def Alike (s : Flush.State Component Event Store Reply) (c : State Component Event Store Reply) : Prop :=
  c = ⟨s.rt, erase s.stack⟩ ∨ ∃ stack, Idle s stack ∧ c = ⟨s.rt, erase stack⟩

/-- The states are alike, in a run whose steps all meet the condition. -/
structure Related (rs : Reactions Component Event Store Reply) (s : Flush.State Component Event Store Reply)
    (c : State Component Event Store Reply) : Prop where
  marked : Marked s
  targets : Targets s
  room : ∀ o, (s.rt.q o).length < 256
  alike : Alike s c
  meets : ∀ s', Match.Runs (Flush.step rs) s s' → meets rs s' = true

/-- How long the Scheme runtime can go on alone. -/
def weight : Flush.Frame Component Event Store Reply → Nat
  | .handled _ => 3
  | .again _ => 3
  | .drain _ => 2
  | .target _ => 1
  | _ => 0

def rank (s : Flush.State Component Event Store Reply) : Nat := (s.stack.map weight).sum

variable {rs : Reactions Component Event Store Reply} {rt : Runtime Component Event Store}
  {stack : List (Flush.Frame Component Event Store Reply)} {s s' : Flush.State Component Event Store Reply}
  {c c' : State Component Event Store Reply}

omit [DecidableEq Component] in
theorem callsIdle_of_meets (h : meets rs s = true) : callsIdle s = true := by
  apply callsIdle_of_call
  intro d c c' e k rest heq
  unfold meets at h
  rw [heq] at h
  simpa using h

theorem setHandling_same {o : Component} {b : Bool} (h : rt.handling o = b) : rt.setHandling o b = rt := by
  unfold Runtime.setHandling
  rw [← h, Function.update_eq_self]

/-! ### What a step keeps -/

theorem handle_room {o : Component} {e : Event} (h : Flush.handle rs rt o e stack = some s)
    (hq : ∀ t, (rt.q t).length < 256) : ∀ t, (s.rt.q t).length < 256 := by
  unfold Flush.handle at h
  split at h
  · cases h
  · cases h
    exact hq

theorem enqueue_room {i : Option Component} {o : Component} {e : Event}
    (h : enqueue rs rt i o e stack = some s)
    (hr : hasRoom rs rt i o = true) (hq : ∀ t, (rt.q t).length < 256) : ∀ t, (s.rt.q t).length < 256 := by
  unfold enqueue at h
  simp only at h
  split at h
  · exact handle_room h hq
  · rename_i hnow
    have hlen : (rt.q o).length < 255 := by
      simpa [hasRoom, hnow] using hr
    have henq : ∀ t, ((rt.enq o e).q t).length < 256 := by
      intro t
      by_cases hto : t = o
      · subst hto
        simp [Runtime.enq]
        omega
      · simpa [Runtime.enq, hto] using hq t
    cases i <;> cases h <;> exact henq

theorem step_room (hg : meets rs s = true) (h : Flush.step rs s = some s')
    (hq : ∀ t, (s.rt.q t).length < 256) : ∀ t, (s'.rt.q t).length < 256 := by
  obtain ⟨rt, stack⟩ := s
  unfold Flush.step at h
  rcases stack with _ | ⟨f, stack⟩
  · cases h
  · rcases f with ⟨d, c, b⟩ | ⟨d, c, k⟩ | ⟨c, r⟩ | o | o | o | o
    · rcases b with r | ⟨f, k⟩ | ⟨c', e, k⟩ | ⟨o, e, k⟩ | ⟨o, e, k⟩
      · cases h
        exact hq
      · cases h
        exact hq
      · cases h
        exact hq
      · change enqueue rs rt (some c) o e (.body d c k :: stack) = some s' at h
        exact enqueue_room h hg hq
      · change enqueue rs rt none o e (.body d c k :: stack) = some s' at h
        exact enqueue_room h hg hq
    · cases h
    · simp only at h
      split at h <;> cases h <;> exact hq
    · simp only at h
      split at h
      · cases h
        exact hq
      · rename_i e q hqo
        refine handle_room h fun t => ?_
        by_cases hto : t = o
        · subst hto
          have := hq t
          simp only at hqo this
          rw [hqo] at this
          simp at this ⊢
          omega
        · simpa [hto] using hq t
    · cases h
      exact hq
    · simp only at h
      split at h
      · cases h
        exact hq
      · split at h <;> cases h <;> exact hq
    · cases h
      exact hq

omit [DecidableEq Component] in
theorem targets_of_none (h : ∀ o, .target o ∉ stack) :
    Targets (⟨rt, stack⟩ : Flush.State Component Event Store Reply) := by
  refine ⟨fun o hmem => h o (List.mem_of_mem_tail hmem), fun o rest hs => absurd ?_ (h o)⟩
  simp only at hs
  rw [hs]
  exact List.mem_cons_self

theorem handle_targets {o : Component} {e : Event} (h : Flush.handle rs rt o e stack = some s)
    (ht : ∀ o, .target o ∉ stack) : Targets s := by
  unfold Flush.handle at h
  split at h
  · cases h
  · cases h
    exact targets_of_none fun o' hmem => by
      rcases List.mem_cons.mp hmem with heq | hmem
      · cases heq
      · exact ht o' hmem

theorem enqueue_targets {i : Option Component} {o : Component} {e : Event}
    (h : enqueue rs rt i o e stack = some s) (ht : ∀ o, .target o ∉ stack) : Targets s := by
  unfold enqueue at h
  simp only at h
  split at h
  · refine handle_targets h fun o' hmem => ?_
    rcases List.mem_cons.mp hmem with heq | hmem
    · cases heq
    · exact ht o' hmem
  · cases i <;> cases h <;> exact targets_of_none ht

theorem step_targets (ht : Targets s) (h : Flush.step rs s = some s') : Targets s' := by
  obtain ⟨rt, stack⟩ := s
  unfold Flush.step at h
  rcases stack with _ | ⟨f, stack⟩
  · cases h
  · have hbelow : ∀ o, .target o ∉ stack := ht.below
    rcases f with ⟨d, c, b⟩ | ⟨d, c, k⟩ | ⟨c, r⟩ | o | o | o | o
    · rcases b with r | ⟨f, k⟩ | ⟨c', e, k⟩ | ⟨o, e, k⟩ | ⟨o, e, k⟩
      · cases d <;> cases h <;> exact targets_of_none (by simp [hbelow])
      · cases h
        exact targets_of_none (by simp [hbelow])
      · cases h
        exact targets_of_none (by simp [hbelow])
      · change enqueue rs rt (some c) o e (.body d c k :: stack) = some s' at h
        exact enqueue_targets h (by simp [hbelow])
      · change enqueue rs rt none o e (.body d c k :: stack) = some s' at h
        exact enqueue_targets h (by simp [hbelow])
    · cases h
    · simp only at h
      split at h
      · cases h
        exact targets_of_none (by simp)
      · cases h
        simp only [List.mem_cons, not_or] at hbelow
        exact targets_of_none (by simp [fun o => (hbelow o).2])
      · cases h
    · simp only at h
      split at h
      · rename_i hq
        cases h
        refine ⟨hbelow, fun o' rest hs => ?_⟩
        obtain ⟨heq, -⟩ := List.cons.inj hs
        cases heq
        exact hq
      · exact handle_targets h (by simp [hbelow])
    · cases h
      exact targets_of_none (by simp [hbelow])
    · simp only at h
      split at h
      · cases h
        exact targets_of_none hbelow
      · split at h
        · cases h
          exact targets_of_none hbelow
        · cases h
          exact targets_of_none (by simp [hbelow])
    · cases h
      exact targets_of_none (by simp [hbelow])

/-! ### One step -/

theorem handle_sim {o : Component} {e : Event} (h : Flush.handle rs rt o e stack = some s) :
    runtimeHandleEvent rs rt o e (erase stack) = some ⟨s.rt, erase s.stack⟩ := by
  unfold Flush.handle at h
  split at h
  · cases h
  · rename_i ho
    cases h
    simp [runtimeHandleEvent, runtimeStart, ho, erase]

theorem enqueue_sim {i : Option Component} {o : Component} {e : Event}
    (h : enqueue rs rt i o e stack = some s) :
    runtimeEnqueue rs rt i o e (erase stack) = some ⟨s.rt, erase s.stack⟩ := by
  unfold enqueue at h
  unfold runtimeEnqueue
  simp only at h ⊢
  split at h
  · rename_i hnow
    rw [if_pos hnow]
    -- the second flush is not there
    have hsim := handle_sim h
    exact hsim
  · rename_i hqueue
    rw [if_neg hqueue]
    cases i <;> cases h <;> rfl

theorem queueEmpty_cons {e : Event} {q : List Event} (h : (e :: q).length < 256) :
    queueEmpty (e :: q) = false := by
  have hne : UInt8.ofNat (e :: q).length ≠ 0 := by
    rw [Ne, CQueue.ofNat_eq_zero]
    simp only [List.length_cons] at h ⊢
    omega
  simp only [queueEmpty, hne, if_false]

/-- The C runtime does what the Scheme runtime does in a step, or the Scheme runtime does a step of a flush that has
nothing to do. -/
theorem step_sim (hm : Marked s) (ht : Targets s) (hq : ∀ o, (s.rt.q o).length < 256) (ha : Alike s c)
    (hg : meets rs s = true) (h : Flush.step rs s = some s') :
    (∃ c', Match.Advances (step rs) c c' ∧ Alike s' c') ∨ (Alike s' c ∧ rank s' < rank s) := by
  obtain ⟨rt, stack⟩ := s
  rcases ha with rfl | ⟨rest, ⟨o, hor, hqo, hdef⟩, rfl⟩
  · -- nearly every step of the one runtime is one step of the other
    have hone : ∀ c', step rs ⟨rt, erase stack⟩ = some c' → c' = ⟨s'.rt, erase s'.stack⟩ →
        (∃ c', Match.Advances (step rs) ⟨rt, erase stack⟩ c' ∧ Alike s' c') ∨
          (Alike s' ⟨rt, erase stack⟩ ∧ rank s' < rank ⟨rt, stack⟩) :=
      fun c' hc heq => .inl ⟨c', .single hc, .inl heq⟩
    rcases stack with _ | ⟨f, stack⟩
    · cases h
    · have hidle : ∀ o, o ∉ opened stack → (∀ o, rt.handling o = true ↔ o ∈ opened stack) → rt.handling o = false := by
        intro o ho hmarks
        have := (hmarks o).not.mpr ho
        simpa using this
      rcases f with ⟨d, c, b⟩ | ⟨d, c, k⟩ | ⟨c, r⟩ | o | o | o | o
      · rcases b with r | ⟨f, k⟩ | ⟨c', e, k⟩ | ⟨o, e, k⟩ | ⟨o, e, k⟩
        · cases d <;> cases h <;> exact hone _ rfl rfl
        · cases h
          exact hone _ rfl rfl
        · have hc' : rt.handling c' = false := by simpa [meets] using hg
          cases h
          refine hone _ ?_ rfl
          simp [step, erase, callIn, runtimeStart, hc', Flush.callIn]
        · change enqueue rs rt (some c) o e (.body d c k :: stack) = some s' at h
          exact hone _ (enqueue_sim h) rfl
        · change enqueue rs rt none o e (.body d c k :: stack) = some s' at h
          exact hone _ (enqueue_sim h) rfl
      · cases h
      · -- the mark has been taken away already
        have hunset : rt.setHandling c false = rt := setHandling_same (hidle c hm.layered.1 hm.marks)
        rcases awaits_cases hm.ready with rfl | ⟨d, c', k, rest, rfl, -⟩
        · cases h
          exact hone _ rfl (by rw [hunset]; rfl)
        · cases h
          exact hone _ rfl (by rw [hunset]; rfl)
      · simp only [Flush.step] at h
        split at h
        · rename_i hqo
          cases h
          refine hone _ ?_ rfl
          have hqo : rt.q o = [] := hqo
          simp [step, erase, hqo, queueEmpty]
        · rename_i e q hqo
          have hqo : rt.q o = e :: q := hqo
          have hlen := hq o
          simp only [hqo] at hlen
          refine hone _ ?_ rfl
          have hsim := handle_sim h
          simpa [step, erase, hqo, queueEmpty_cons hlen] using hsim
      · cases h
        have hunset : rt.setHandling o false = rt := setHandling_same (hidle o hm.layered.1 hm.marks)
        -- the frame only takes the mark away, and the C runtime has none for it
        refine .inr ⟨.inl ?_, by simp [rank, weight]⟩
        simp [hunset, erase]
      · simp only [Flush.step] at h
        split at h
        · rename_i hdef
          cases h
          refine hone _ ?_ rfl
          have hdef : rt.deferred o = none := hdef
          simp [step, erase, hdef]
        · rename_i t hdef
          have hdef : rt.deferred o = some t := hdef
          split at h
          · -- the loop of the C runtime goes round once more, with an empty queue
            rename_i hbusy
            have hqo : rt.q o = [] := ht.first o stack rfl
            cases h
            refine .inl ⟨⟨rt.setDeferred o none, erase stack⟩, ?_, .inl rfl⟩
            have h1 : step rs ⟨rt, .target o :: erase stack⟩ = some ⟨rt.setDeferred o none, .drain o :: erase stack⟩ := by
              simp only [step, hdef]
              exact if_pos hbusy
            have h2 : step rs ⟨rt.setDeferred o none, .drain o :: erase stack⟩ =
                some ⟨rt.setDeferred o none, .target o :: erase stack⟩ := by
              simp [step, Runtime.setDeferred, hqo, queueEmpty]
            have h3 : step rs ⟨rt.setDeferred o none, .target o :: erase stack⟩ =
                some ⟨rt.setDeferred o none, erase stack⟩ := by
              simp [step, Runtime.setDeferred]
            exact .head h1 (.head h2 (.single h3))
          · rename_i hfree
            have hfree : (rt.setDeferred o none).handling t = false := by simpa using hfree
            cases h
            refine hone _ ?_ rfl
            have hunset := setHandling_same hfree
            simp only [step, erase, hdef, Flush.flush, hunset]
            simp [hfree]
      · -- the second flush has nothing to do, and the C runtime does not make it
        have hempty : rt.q o = [] ∧ rt.deferred o = none := by simpa [meets] using hg
        cases h
        have hunset : rt.setHandling o false = rt := setHandling_same (hidle o hm.layered.1 hm.marks)
        refine .inr ⟨.inr ⟨stack, ⟨o, .inl rfl, ?_⟩, ?_⟩, by simp [rank, weight, Flush.flush]⟩
        · simpa [Flush.flush, hunset] using hempty
        · simp [Flush.flush, hunset, erase]
  · right
    have hqueue : rt.q o = [] := hqo
    have hnone : rt.deferred o = none := hdef
    rcases hor with rfl | rfl
    · have h' : Flush.step rs ⟨rt, .drain o :: rest⟩ = some ⟨rt, .target o :: rest⟩ := by
        simp [Flush.step, hqueue]
      rw [h'] at h
      cases h
      exact ⟨.inr ⟨rest, ⟨o, .inr rfl, hqo, hdef⟩, rfl⟩, by simp [rank, weight]⟩
    · have h' : Flush.step rs ⟨rt, .target o :: rest⟩ = some ⟨rt, rest⟩ := by
        simp [Flush.step, hnone]
      rw [h'] at h
      cases h
      exact ⟨.inl rfl, by simp [rank, weight]⟩

/-! ## Runs -/

theorem related_step (hr : Related rs s c) :
    (Flush.step rs s = none ∧ step rs c = none) ∨
    (∃ s' c', Flush.step rs s = some s' ∧ Match.Advances (step rs) c c' ∧ Related rs s' c') ∨
    (∃ s', Flush.step rs s = some s' ∧ Related rs s' c ∧ rank s' < rank s) := by
  obtain ⟨hm, ht, hq, ha, hg⟩ := hr
  have hgood := hg s .refl
  by_cases hstack : s.stack = []
  · refine .inl ⟨by simp [Flush.step, hstack], ?_⟩
    rcases ha with rfl | ⟨rest, ⟨o, hor, -⟩, -⟩
    · simp [step, hstack, erase]
    · rcases hor with hor | hor <;> rw [hstack] at hor <;> cases hor
  · obtain ⟨s', hs'⟩ : ∃ s', Flush.step rs s = some s' := step_some hm hstack
    have hm' := step_marked hm (callsIdle_of_meets hgood) hs'
    have ht' := step_targets ht hs'
    have hq' := step_room hgood hs' hq
    have hg' : ∀ s'', Match.Runs (Flush.step rs) s' s'' → meets rs s'' = true := fun s'' hrun => hg s'' (.head hs' hrun)
    rcases step_sim hm ht hq ha hgood hs' with ⟨c', hadv, ha'⟩ | ⟨ha', hlt⟩
    · exact .inr (.inl ⟨s', c', hs', hadv, hm', ht', hq', ha', hg'⟩)
    · exact .inr (.inr ⟨s', hs', ⟨hm', ht', hq', ha', hg'⟩, hlt⟩)

theorem handle_grows {rest : List (Frame Component Event Store Reply)} {o : Component} {e : Event}
    (h : runtimeHandleEvent rs rt o e rest = some c) : rt.handled <+: c.rt.handled := by
  unfold runtimeHandleEvent runtimeStart at h
  split at h
  · cases h
  · cases h
    exact List.prefix_append _ _

theorem enqueue_grows {rest : List (Frame Component Event Store Reply)} {i : Option Component} {o : Component}
    {e : Event} (h : runtimeEnqueue rs rt i o e rest = some c) : rt.handled <+: c.rt.handled := by
  unfold runtimeEnqueue at h
  simp only at h
  split at h
  · have := handle_grows h
    exact this
  · cases i <;> cases h <;> exact List.prefix_refl _

theorem step_grows : Match.Grows (step rs) fun c => c.rt.handled := by
  intro c c' h
  obtain ⟨rt, rest⟩ := c
  unfold step at h
  rcases rest with _ | ⟨f, rest⟩
  · cases h
  · rcases f with ⟨d, c, b⟩ | ⟨d, c, k⟩ | ⟨c, r⟩ | o | o
    · rcases b with r | ⟨f, k⟩ | ⟨c', e, k⟩ | ⟨o, e, k⟩ | ⟨o, e, k⟩
      · cases h
        exact List.prefix_refl _
      · cases h
        exact List.prefix_refl _
      · change callIn rs rt c' e (.wait d c k :: rest) = some _ at h
        unfold callIn runtimeStart at h
        split at h <;> cases h
        exact List.prefix_refl _
      · exact enqueue_grows h
      · exact enqueue_grows h
    · cases h
    · simp only at h
      split at h <;> cases h <;> exact List.prefix_refl _
    · simp only at h
      split at h
      · cases h
        exact List.prefix_refl _
      · split at h
        · cases h
        · have := handle_grows h
          exact this
    · simp only at h
      split at h
      · cases h
        exact List.prefix_refl _
      · split at h <;> cases h <;> exact List.prefix_refl _

theorem matched : Match.Matched (Flush.step rs) (step rs) (fun s => s.rt.handled) (fun c => c.rt.handled) (Related rs) rank where
  grows := step_grows
  logs := by
    rintro s c ⟨-, -, -, rfl | ⟨rest, -, rfl⟩, -⟩ <;> rfl
  step := fun _ _ h => related_step h

/-- The outermost use of both runtimes. -/
theorem related_start {op : Outermost Component Event} (hq : Quiet rt op) (hlen : ∀ t, (rt.q t).length < 256)
    (hs : Flush.start rs rt op = some s) (hg : ∀ s', Match.Runs (Flush.step rs) s s' → meets rs s' = true) :
    ∃ c, start rs rt op = some c ∧ Related rs s c := by
  have hm := (inv_start hq hs).marked
  cases op with
  | call o e =>
    cases hs
    refine ⟨⟨rt.setHandling o true, [.body .callIn o (rs.react o e)]⟩, ?_, hm, targets_of_none (by simp), hlen, .inl rfl, hg⟩
    simp [start, callIn, runtimeStart, hq.idle o]
  | external o e =>
    have hnow : (!(Option.any rs.flushes none) && !rt.handling o) = true := by simp [hq.idle o]
    refine ⟨_, enqueue_sim hs, hm, enqueue_targets hs (by simp), ?_, .inl rfl, hg⟩
    exact enqueue_room hs (by simp [hasRoom, hq.idle o]) hlen
  | flush o =>
    cases hs
    refine ⟨⟨rt, [.drain o]⟩, rfl, hm, targets_of_none (by simp), hlen, .inl ?_, hg⟩
    rw [Flush.flush, setHandling_same (hq.idle o)]
    rfl

/-- In a run of the Scheme runtime whose steps meet the condition the C runtime handles the same events in the same
order: neither handles any that the other one does not handle there, and both return with the same queues. -/
theorem same_order {rs : Reactions Component Event Store Reply} {rt : Runtime Component Event Store}
    {op : Outermost Component Event} {s₀ : Flush.State Component Event Store Reply} (hq : Quiet rt op)
    (hlen : ∀ t, (rt.q t).length < 256) (hs : Flush.start rs rt op = some s₀)
    (hg : ∀ s, Match.Runs (Flush.step rs) s₀ s → meets rs s = true) :
    ∃ c₀, start rs rt op = some c₀ ∧
      (∀ s, Match.Runs (Flush.step rs) s₀ s → ∃ c, Match.Runs (step rs) c₀ c ∧ c.rt.handled = s.rt.handled) ∧
      (∀ c, Match.Runs (step rs) c₀ c → ∃ s, Match.Runs (Flush.step rs) s₀ s ∧ c.rt.handled <+: s.rt.handled) ∧
      (∀ s, Match.Runs (Flush.step rs) s₀ s → s.stack = [] →
        ∃ c, Match.Runs (step rs) c₀ c ∧ c.stack = [] ∧ c.rt = s.rt) := by
  obtain ⟨c₀, hc₀, hr⟩ := related_start hq hlen hs hg
  obtain ⟨hforward, hbackward, -⟩ := matched.same hr
  refine ⟨c₀, hc₀, fun s hrun => ?_, hbackward, fun s hrun hstack => ?_⟩
  · obtain ⟨c, hc, hr'⟩ := hforward s hrun
    exact ⟨c, hc, (matched.logs _ _ hr').symm⟩
  · obtain ⟨c, hc, hr'⟩ := hforward s hrun
    rcases hr'.alike with rfl | ⟨rest, ⟨o, hor, -⟩, -⟩
    · exact ⟨_, hc, by simp [hstack, erase], rfl⟩
    · rcases hor with hor | hor <;> rw [hstack] at hor <;> cases hor

/-! ## A second flush with something to do -/

/-- All states that are reached in at most `n` steps meet the condition, and the last one stops. -/
def allMeet (rs : Reactions Component Event Store Reply) :
    Nat → Flush.State Component Event Store Reply → Bool
  | 0, _ => false
  | n + 1, s =>
    meets rs s && match Flush.step rs s with
      | none => true
      | some s' => allMeet rs n s'

theorem allMeet_runs {n : Nat} : ∀ {s s' : Flush.State Component Event Store Reply}, allMeet rs n s = true →
    Match.Runs (Flush.step rs) s s' → meets rs s' = true := by
  induction n with
  | zero =>
    intro s s' h
    cases h
  | succ n ih =>
    intro s s' h hrun
    simp only [allMeet, Bool.and_eq_true] at h
    obtain ⟨hs, hrest⟩ := h
    rcases Relation.ReflTransGen.cases_head hrun with rfl | ⟨s₁, hs₁, hrun⟩
    · exact hs
    · rw [hs₁] at hrest
      exact ih hrest hrun

end

/-- The two events of the example with one target are handled in the same order. -/
theorem same_order_one_target : ∃ s₀ c₀, Flush.start (twoTargets 2) resting (.call 0 0) = some s₀ ∧
    start (twoTargets 2) resting (.call 0 0) = some c₀ ∧
    ∀ s, Match.Runs (Flush.step (twoTargets 2)) s₀ s → s.stack = [] →
      ∃ c, Match.Runs (step (twoTargets 2)) c₀ c ∧ c.stack = [] ∧ c.rt = s.rt := by
  have hs : ∃ s₀, Flush.start (twoTargets 2) resting (.call 0 0) = some s₀ := ⟨_, rfl⟩
  obtain ⟨s₀, hs₀⟩ := hs
  have hall : (Flush.start (twoTargets 2) resting (.call 0 0)).all (allMeet (twoTargets 2) 36) = true := by rfl
  rw [hs₀] at hall
  obtain ⟨c₀, hc₀, -, -, hend⟩ := same_order (resting_quiet _) (fun _ => Nat.zero_lt_succ _) hs₀ fun s hrun => allMeet_runs hall hrun
  exact ⟨s₀, c₀, hs₀, hc₀, hend⟩

section

local instance neZeroFour : NeZero 4 := ⟨by decide⟩

/-- An event of the environment for component 0, which posts to 1, which calls 2, which posts to 0 and to 3. -/
def backToFirst : Reactions (Fin 4) Nat Unit Unit where
  flushes := fun _ => true
  react := fun c e =>
    match c, e with
    | 0, 1 => .post 1 2 (.reply ())
    | 1, 2 => .call 2 0 fun _ => .reply ()
    | 2, 0 => .post 0 3 (.post 3 4 (.reply ()))
    | _, _ => .reply ()

end

/-- The Scheme runtime handles the event for component 0 in its second flush; the C runtime does not handle it. -/
theorem lost_in_c : ¬ ∀ (rs : Reactions (Fin 4) Nat Unit Unit) (rt : Runtime (Fin 4) Nat Unit)
    (op : Outermost (Fin 4) Nat) (s₀ s : Flush.State (Fin 4) Nat Unit Unit) (c₀ c : State (Fin 4) Nat Unit Unit),
    Quiet rt op → Flush.start rs rt op = some s₀ → start rs rt op = some c₀ →
    Match.Runs (Flush.step rs) s₀ s → s.stack = [] → Match.Runs (step rs) c₀ c → c.stack = [] →
    c.rt.handled = s.rt.handled := by
  intro hall
  have hS : ((Flush.start backToFirst resting (.external 0 1)).bind (Match.steps (Flush.step backToFirst) 33)).map
      (fun s => (s.stack.isEmpty, s.rt.handled)) = some (true, [(0, 1), (1, 2), (3, 4), (0, 3)]) := by rfl
  have hC : ((start backToFirst resting (.external 0 1)).bind (Match.steps (step backToFirst) 23)).map
      (fun c => (c.stack.isEmpty, c.rt.handled)) = some (true, [(0, 1), (1, 2), (3, 4)]) := by rfl
  obtain ⟨s, hs, hseq⟩ := Option.map_eq_some_iff.mp hS
  obtain ⟨s₀, hs₀, hsteps⟩ := Option.bind_eq_some_iff.mp hs
  obtain ⟨c, hc, hceq⟩ := Option.map_eq_some_iff.mp hC
  obtain ⟨c₀, hc₀, hcsteps⟩ := Option.bind_eq_some_iff.mp hc
  have heq := hall _ _ _ _ _ _ _ (resting_quiet _) hs₀ hc₀ (Match.runs_of_steps hsteps)
    (by simpa using congrArg Prod.fst hseq) (Match.runs_of_steps hcsteps) (by simpa using congrArg Prod.fst hceq)
  have hsh : s.rt.handled = [(0, 1), (1, 2), (3, 4), (0, 3)] := congrArg Prod.snd hseq
  have hch : c.rt.handled = [(0, 1), (1, 2), (3, 4)] := congrArg Prod.snd hceq
  rw [hsh, hch] at heq
  cases heq

end Dezyne.CFlush
