import Dezyne.Lib.Match
import Mathlib.Logic.Function.Basic
/-!
# Events between components in the Scheme runtime

A component handles one event at a time. The out-events that it posts meanwhile
wait in the queues of their targets, and one target is remembered to be flushed
when the component is done. The runtime is a machine with a stack of what the
procedures of the runtime have still to do; the reactions of the components are
any programs that call components, post events and use a common store.
-/

namespace Dezyne.Flush

/-- What a component does with an event. -/
inductive Body (Component Event Store Reply : Type) where
  /-- The end, with the value of `#x:return`. -/
  | reply (r : Reply)
  /-- Variables are read and assigned. -/
  | update (f : Store → Store) (k : Store → Body Component Event Store Reply)
  /-- An in-event of a required port, with the rest of the body after its reply. -/
  | call (c : Component) (e : Event) (k : Reply → Body Component Event Store Reply)
  /-- An out-event of a provided port. -/
  | post (o : Component) (e : Event) (k : Body Component Event Store Reply)
  /-- An out-event that the environment raises meanwhile, from a port without a component. -/
  | external (o : Component) (e : Event) (k : Body Component Event Store Reply)

/-- The components with their reactions; `flushes` is `.flushes?`. -/
structure Reactions (Component Event Store Reply : Type) where
  flushes : Component → Bool
  react : Component → Event → Body Component Event Store Reply

/-- What the runtime keeps for the components. `posted` and `handled` are all out-events so far. -/
structure Runtime (Component Event Store : Type) where
  handling : Component → Bool
  deferred : Component → Option Component
  q : Component → List Event
  store : Store
  posted : List (Component × Event)
  handled : List (Component × Event)

/-- An outermost use of the runtime by the environment. -/
inductive Outermost (Component Event : Type) where
  | call (c : Component) (e : Event)
  | external (o : Component) (e : Event)
  | flush (o : Component)

/-- A body is that of `call-in` or of `call-out`. -/
inductive Direction where
  | callIn
  | callOut
deriving DecidableEq

/-- What is still to be done. -/
inductive Frame (Component Event Store Reply : Type) where
  /-- `(f)` of `call-in` or `call-out`, with `(dzn:flush o)` at its end. -/
  | body (d : Direction) (c : Component) (b : Body Component Event Store Reply)
  /-- The same while a call is not back. -/
  | wait (d : Direction) (c : Component) (k : Reply → Body Component Event Store Reply)
  /-- `call-in` after `(f)`. -/
  | back (c : Component) (r : Reply)
  /-- `while` in `dzn:flush`. -/
  | drain (o : Component)
  /-- `(set! (.handling? o) #f)` in that loop. -/
  | handled (o : Component)
  /-- `and=>` in `dzn:flush`. -/
  | target (o : Component)
  /-- `(dzn:flush o)` in `enqueue`. -/
  | again (o : Component)

section
variable {Component Event Store Reply : Type}

/-! ## Frames -/

/-- The component whose body is open: it has been started and has not replied. -/
def Frame.opened : Frame Component Event Store Reply → Option Component
  | .body _ c _ => some c
  | .wait _ c _ => some c
  | _ => none

/-- The components with an open body, the innermost first. -/
def opened (stack : List (Frame Component Event Store Reply)) : List Component := stack.filterMap Frame.opened

/-- The component of a frame. -/
def Frame.component : Frame Component Event Store Reply → Component
  | .body _ c _ => c
  | .wait _ c _ => c
  | .back c _ => c
  | .drain o => o
  | .handled o => o
  | .target o => o
  | .again o => o

mutual
/-- A stack that is about to go on. -/
def Ready : List (Frame Component Event Store Reply) → Prop
  | [] => True
  | .body .callIn _ _ :: stack => Awaits stack
  | .body .callOut _ _ :: stack => Ready stack
  | .wait _ _ _ :: _ => False
  | .back _ _ :: stack => Awaits stack
  | .drain _ :: stack => Ready stack
  | .handled _ :: stack => Ready stack
  | .target _ :: stack => Ready stack
  | .again _ :: stack => Ready stack
/-- A stack that is about to go on with the reply of a call. -/
def Awaits : List (Frame Component Event Store Reply) → Prop
  | [] => True
  | .wait .callIn _ _ :: stack => Awaits stack
  | .wait .callOut _ _ :: stack => Ready stack
  | _ => False
end

/-- No frame belongs to a component that has an open body below it. -/
def Layered : List (Frame Component Event Store Reply) → Prop
  | [] => True
  | f :: stack => f.component ∉ opened stack ∧ Layered stack

variable {stack : List (Frame Component Event Store Reply)}

@[simp] theorem opened_nil : opened ([] : List (Frame Component Event Store Reply)) = [] := rfl

@[simp] theorem opened_body (d : Direction) (c : Component) (b : Body Component Event Store Reply) :
    opened (.body d c b :: stack) = c :: opened stack := rfl

@[simp] theorem opened_wait (d : Direction) (c : Component) (k : Reply → Body Component Event Store Reply) :
    opened (.wait d c k :: stack) = c :: opened stack := rfl

@[simp] theorem opened_back (c : Component) (r : Reply) : opened (.back c r :: stack) = opened stack := rfl

@[simp] theorem opened_drain (o : Component) : opened (.drain o :: stack) = opened stack := rfl

@[simp] theorem opened_handled (o : Component) : opened (.handled o :: stack) = opened stack := rfl

@[simp] theorem opened_target (o : Component) : opened (.target o :: stack) = opened stack := rfl

@[simp] theorem opened_again (o : Component) : opened (.again o :: stack) = opened stack := rfl

@[simp] theorem layered_cons (f : Frame Component Event Store Reply) :
    Layered (f :: stack) ↔ f.component ∉ opened stack ∧ Layered stack := Iff.rfl

/-- The bodies that are open are of different components. -/
theorem layered_nodup (h : Layered stack) : (opened stack).Nodup := by
  induction stack with
  | nil => exact List.nodup_nil
  | cons f stack ih =>
    obtain ⟨hf, hl⟩ := h
    cases f with
    | body d c b => exact List.nodup_cons.mpr ⟨hf, ih hl⟩
    | wait d c k => exact List.nodup_cons.mpr ⟨hf, ih hl⟩
    | back c r => exact ih hl
    | drain o => exact ih hl
    | handled o => exact ih hl
    | target o => exact ih hl
    | again o => exact ih hl

/-- A stack that awaits a reply is empty or goes on with the call. -/
theorem awaits_cases (h : Awaits stack) :
    stack = [] ∨ ∃ d c k rest, stack = .wait d c k :: rest ∧ ∀ b, Ready (.body d c b :: rest) := by
  rcases stack with _ | ⟨f, rest⟩
  · exact .inl rfl
  · rcases f with _ | ⟨d, c, k⟩ | _ | _ | _ | _ | _
    · exact absurd h (by simp [Awaits])
    · refine .inr ⟨d, c, k, rest, rfl, fun b => ?_⟩
      cases d <;> exact h
    all_goals exact absurd h (by simp [Awaits])

theorem ready_body {d : Direction} {c : Component} {b b' : Body Component Event Store Reply}
    (h : Ready (.body d c b :: stack)) : Ready (.body d c b' :: stack) := by
  cases d <;> exact h

theorem awaits_wait {d : Direction} {c : Component} {b : Body Component Event Store Reply}
    {k : Reply → Body Component Event Store Reply} (h : Ready (.body d c b :: stack)) :
    Awaits (.wait d c k :: stack) := by
  cases d <;> exact h

end

section
variable {Component Event Store Reply : Type} [DecidableEq Component]

/-- A runtime with what is still to be done. -/
structure State (Component Event Store Reply : Type) where
  rt : Runtime Component Event Store
  stack : List (Frame Component Event Store Reply)

/-! ## The procedures -/

/-- `(set! (.handling? o) b)` -/
def Runtime.setHandling (rt : Runtime Component Event Store) (o : Component) (b : Bool) :
    Runtime Component Event Store := { rt with handling := Function.update rt.handling o b }

/-- `(set! (.deferred? o) t)` -/
def Runtime.setDeferred (rt : Runtime Component Event Store) (o : Component) (t : Option Component) :
    Runtime Component Event Store := { rt with deferred := Function.update rt.deferred o t }

/-- `(enq! (.dzn-q o) f)` -/
def Runtime.enq (rt : Runtime Component Event Store) (o : Component) (e : Event) :
    Runtime Component Event Store :=
  { rt with q := Function.update rt.q o (rt.q o ++ [e]) }

/-- `dzn:flush`, up to its loop. No component is `external?`: each adds itself to its runtime. -/
def flush (rt : Runtime Component Event Store) (o : Component)
    (stack : List (Frame Component Event Store Reply)) :
    State Component Event Store Reply := { rt := rt.setHandling o false, stack := .drain o :: stack }

/-- `dzn:handle`, up to `(f)`; `none` is its exception. -/
def handle (rs : Reactions Component Event Store Reply) (rt : Runtime Component Event Store) (o : Component)
    (e : Event)
    (stack : List (Frame Component Event Store Reply)) : Option (State Component Event Store Reply) :=
  if rt.handling o then none
  else
    let rt := rt.setHandling o true
    some { rt := { rt with handled := rt.handled ++ [(o, e)] }, stack := .body .callOut o (rs.react o e) :: stack }

/-- `enqueue`; `i` is the component that posts, if there is one. -/
def enqueue (rs : Reactions Component Event Store Reply) (rt : Runtime Component Event Store)
    (i : Option Component) (o : Component) (e : Event) (stack : List (Frame Component Event Store Reply)) :
    Option (State Component Event Store Reply) :=
  let rt := { rt with posted := rt.posted ++ [(o, e)] }
  if !(i.any rs.flushes) && !rt.handling o then handle rs rt o e (.again o :: stack)
  else
    let rt := rt.enq o e
    match i with
    | none => some { rt, stack }
    | some i => some { rt := rt.setDeferred i (some o), stack }

/-- `call-in`, up to `(f)`; without a pump `dzn:collateral-block` does nothing. -/
def callIn (rs : Reactions Component Event Store Reply) (rt : Runtime Component Event Store) (c : Component)
    (e : Event) (stack : List (Frame Component Event Store Reply)) : State Component Event Store Reply :=
  { rt := rt.setHandling c true, stack := .body .callIn c (rs.react c e) :: stack }

/-- One step of the runtime. -/
def step (rs : Reactions Component Event Store Reply) (s : State Component Event Store Reply) :
    Option (State Component Event Store Reply) :=
  match s.stack with
  | [] => none
  | .body d c (.reply r) :: stack =>
    some (flush s.rt c (match d with
      | .callIn => .back c r :: stack
      | .callOut => stack))
  | .body d c (.update f k) :: stack =>
    let store := f s.rt.store
    some { rt := { s.rt with store }, stack := .body d c (k store) :: stack }
  | .body d c (.call c' e k) :: stack => some (callIn rs s.rt c' e (.wait d c k :: stack))
  | .body d c (.post o e k) :: stack => enqueue rs s.rt (some c) o e (.body d c k :: stack)
  | .body d c (.external o e k) :: stack => enqueue rs s.rt none o e (.body d c k :: stack)
  | .wait _ _ _ :: _ => none
  | .back c r :: stack =>
    let rt := s.rt.setHandling c false
    match stack with
    | [] => some { rt, stack := [] }
    | .wait d c' k :: stack => some { rt, stack := .body d c' (k r) :: stack }
    | _ => none
  | .drain o :: stack =>
    match s.rt.q o with
    | [] => some { s with stack := .target o :: stack }
    | f :: q => handle rs { s.rt with q := Function.update s.rt.q o q } o f (.handled o :: stack)
  | .handled o :: stack => some { rt := s.rt.setHandling o false, stack := .drain o :: stack }
  | .target o :: stack =>
    match s.rt.deferred o with
    | none => some { s with stack }
    | some target =>
      let rt := s.rt.setDeferred o none
      if rt.handling target then some { rt, stack } else some (flush rt target stack)
  | .again o :: stack => some (flush s.rt o stack)

/-- The outermost call, event or flush. -/
def start (rs : Reactions Component Event Store Reply) (rt : Runtime Component Event Store) :
    Outermost Component Event → Option (State Component Event Store Reply)
  | .call c e => some (callIn rs rt c e [])
  | .external o e => enqueue rs rt none o e []
  | .flush o => some (flush rt o [])

/-! ## The marks -/

/-- A call reaches only components that handle no event. -/
def callsIdle (s : State Component Event Store Reply) : Bool :=
  match s.stack with
  | .body _ _ (.call c _ _) :: _ => !s.rt.handling c
  | _ => true

/-- The marks of the components are right, and no component is entered twice. -/
structure Marked (s : State Component Event Store Reply) : Prop where
  ready : Ready s.stack
  layered : Layered s.stack
  marks : ∀ c, s.rt.handling c = true ↔ c ∈ opened s.stack

variable {rs : Reactions Component Event Store Reply} {rt : Runtime Component Event Store}
  {stack : List (Frame Component Event Store Reply)} {s s' : State Component Event Store Reply}

omit [DecidableEq Component] in
theorem callsIdle_of_call (h : ∀ d c c' e k rest, s.stack = .body d c (.call c' e k) :: rest →
    s.rt.handling c' = false) : callsIdle s = true := by
  unfold callsIdle
  split
  · next heq => rw [h _ _ _ _ _ _ heq, Bool.not_false]
  · rfl

/-- The marks are those of the open bodies. -/
def Marks (rt : Runtime Component Event Store) (stack : List (Frame Component Event Store Reply)) : Prop :=
  ∀ c, rt.handling c = true ↔ c ∈ opened stack

theorem marks_unset {o : Component} (hm : ∀ c, c ≠ o → (rt.handling c = true ↔ c ∈ opened stack))
    (ho : o ∉ opened stack) : Marks (rt.setHandling o false) stack := by
  intro c
  by_cases hc : c = o
  · subst hc
    simp [Runtime.setHandling, ho]
  · simpa [Runtime.setHandling, hc] using hm c hc

theorem marks_set {o : Component} {d : Direction} {b : Body Component Event Store Reply}
    (hm : Marks rt stack) : Marks (rt.setHandling o true) (.body d o b :: stack) := by
  intro c
  by_cases hc : c = o
  · simp [Runtime.setHandling, hc]
  · simpa [Runtime.setHandling, hc] using hm c

theorem flush_marked {o : Component} (hr : Ready stack) (hl : Layered stack) (ho : o ∉ opened stack)
    (hm : ∀ c, c ≠ o → (rt.handling c = true ↔ c ∈ opened stack)) : Marked (flush rt o stack) :=
  ⟨hr, ⟨ho, hl⟩, marks_unset hm ho⟩

theorem handle_marked {o : Component} {e : Event} (h : handle rs rt o e stack = some s) (hr : Ready stack)
    (hl : Layered stack) (hm : Marks rt stack) : Marked s := by
  unfold handle at h
  split at h
  · cases h
  · rename_i ho
    cases h
    refine ⟨hr, ⟨fun hmem => ho ((hm o).mpr hmem), hl⟩, marks_set hm⟩

theorem enqueue_marked {i : Option Component} {o : Component} {e : Event}
    (h : enqueue rs rt i o e stack = some s)
    (hr : Ready stack) (hl : Layered stack) (hm : Marks rt stack) : Marked s := by
  unfold enqueue at h
  simp only at h
  split at h
  · rename_i ho
    refine handle_marked h hr ⟨fun hmem => ?_, hl⟩ hm
    have := (hm o).mpr hmem
    simp [this] at ho
  · cases i with
    | none =>
      cases h
      exact ⟨hr, hl, hm⟩
    | some i =>
      cases h
      exact ⟨hr, hl, hm⟩

theorem callIn_marked {c : Component} {e : Event} (hr : Awaits stack) (hl : Layered stack)
    (hm : Marks rt stack) (hc : rt.handling c = false) : Marked (callIn rs rt c e stack) := by
  refine ⟨hr, ⟨fun hmem => ?_, hl⟩, marks_set hm⟩
  have := (hm c).mpr hmem
  rw [hc] at this
  cases this

/-- The marks stay right when calls reach only components that handle no event. -/
theorem step_marked (hm : Marked s) (hc : callsIdle s = true) (h : step rs s = some s') : Marked s' := by
  obtain ⟨rt, stack⟩ := s
  obtain ⟨hr, hl, hmarks⟩ := hm
  unfold step at h
  rcases stack with _ | ⟨f, stack⟩
  · cases h
  · have hl' := hl.2
    rcases f with ⟨d, c, b⟩ | ⟨d, c, k⟩ | ⟨c, r⟩ | o | o | o | o
    · -- a body
      -- the mark of the component itself is taken away at the end of its body
      have hothers : ∀ c', c' ≠ c → (rt.handling c' = true ↔ c' ∈ opened stack) := by
        intro c' hne
        simpa [hne] using hmarks c'
      rcases b with r | ⟨f, k⟩ | ⟨c', e, k⟩ | ⟨o, e, k⟩ | ⟨o, e, k⟩
      · cases d with
        | callIn =>
          cases h
          exact flush_marked hr ⟨hl.1, hl'⟩ hl.1 hothers
        | callOut =>
          cases h
          exact flush_marked hr hl' hl.1 hothers
      · cases h
        exact ⟨ready_body hr, hl, hmarks⟩
      · cases h
        refine callIn_marked (awaits_wait hr) hl hmarks ?_
        simpa [callsIdle] using hc
      · change enqueue rs rt (some c) o e (.body d c k :: stack) = some s' at h
        exact enqueue_marked h (ready_body hr) hl hmarks
      · change enqueue rs rt none o e (.body d c k :: stack) = some s' at h
        exact enqueue_marked h (ready_body hr) hl hmarks
    · cases h
    · -- a call is back
      have hunset : Marks (rt.setHandling c false) stack := marks_unset (fun c' _ => hmarks c') hl.1
      rcases awaits_cases hr with rfl | ⟨d, c', k, rest, rfl, hready⟩
      · cases h
        exact ⟨trivial, trivial, hunset⟩
      · cases h
        exact ⟨hready _, hl', hunset⟩
    · -- the loop of a flush
      simp only at h
      split at h
      · cases h
        exact ⟨hr, hl, hmarks⟩
      · exact handle_marked h hr hl hmarks
    · cases h
      exact ⟨hr, hl, marks_unset (fun c' _ => hmarks c') hl.1⟩
    · -- the deferred target
      simp only at h
      split at h
      · cases h
        exact ⟨hr, hl', hmarks⟩
      · rename_i target _
        split at h
        · cases h
          exact ⟨hr, hl', hmarks⟩
        · rename_i hidle
          cases h
          exact flush_marked hr hl' (fun hmem => hidle ((hmarks target).mpr hmem)) fun c' _ => hmarks c'
    · cases h
      exact flush_marked hr hl' hl.1 fun c' _ => hmarks c'

/-- Nothing but the end stops the runtime. -/
theorem step_some (hm : Marked s) (hne : s.stack ≠ []) : ∃ s', step rs s = some s' := by
  obtain ⟨rt, stack⟩ := s
  obtain ⟨hr, hl, hmarks⟩ := hm
  have hhandle : ∀ (rt : Runtime Component Event Store) (o : Component) (e : Event)
      (stack : List (Frame Component Event Store Reply)), rt.handling o = false → ∃ s', handle rs rt o e stack = some s' := by
    intro rt o e stack ho
    exact ⟨_, by simp only [handle, ho]; rfl⟩
  have henqueue : ∀ (i : Option Component) (o : Component) (e : Event)
      (stack : List (Frame Component Event Store Reply)), ∃ s', enqueue rs rt i o e stack = some s' := by
    intro i o e stack
    unfold enqueue
    simp only
    split
    · rename_i ho
      apply hhandle
      simp at ho
      exact ho.2
    · cases i <;> exact ⟨_, rfl⟩
  unfold step
  rcases stack with _ | ⟨f, stack⟩
  · exact absurd rfl hne
  · rcases f with ⟨d, c, b⟩ | ⟨d, c, k⟩ | ⟨c, r⟩ | o | o | o | o
    · rcases b with r | ⟨f, k⟩ | ⟨c', e, k⟩ | ⟨o, e, k⟩ | ⟨o, e, k⟩
      · cases d <;> exact ⟨_, rfl⟩
      · exact ⟨_, rfl⟩
      · exact ⟨_, rfl⟩
      · exact henqueue _ _ _ _
      · exact henqueue _ _ _ _
    · exact hr.elim
    · rcases awaits_cases hr with rfl | ⟨d, c', k, rest, rfl, -⟩ <;> exact ⟨_, rfl⟩
    · simp only
      split
      · exact ⟨_, rfl⟩
      · refine hhandle _ _ _ _ ?_
        have := (hmarks o).not.mpr hl.1
        simpa using this
    · exact ⟨_, rfl⟩
    · simp only
      split
      · exact ⟨_, rfl⟩
      · split <;> exact ⟨_, rfl⟩
    · exact ⟨_, rfl⟩

end

end Dezyne.Flush
