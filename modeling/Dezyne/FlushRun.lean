import Dezyne.Flush
/-!
# All posted events are handled

One deferred target is remembered for each component. As long as none is
forgotten, every queue that has events belongs to a component that is to be
flushed: it has an open body, or a flush of it or of the component that deferred it
is on the stack.
-/

namespace Dezyne.Flush

section
variable {Component Event Store Reply : Type}

/-- The component whose queue is emptied before the frame is gone. -/
def Frame.drains : Frame Component Event Store Reply → Option Component
  | .body _ c _ => some c
  | .wait _ c _ => some c
  | .drain o => some o
  | .handled o => some o
  | .again o => some o
  | .back _ _ => none
  | .target _ => none

/-- The component whose deferred target is flushed before the frame is gone. -/
def Frame.targets : Frame Component Event Store Reply → Option Component
  | .target o => some o
  | f => f.drains

/-- A flush of the component is still to come. -/
def Pending (rt : Runtime Component Event Store) (stack : List (Frame Component Event Store Reply))
    (t : Component) : Prop :=
  ∃ f ∈ stack, f.drains = some t ∨ ∃ c, f.targets = some c ∧ rt.deferred c = some t

/-- Queues with events are still to be flushed. -/
def Covered (s : State Component Event Store Reply) : Prop := ∀ t, s.rt.q t ≠ [] → Pending s.rt s.stack t

variable [DecidableEq Component]

/-- The events for a component. -/
def eventsOf (t : Component) (l : List (Component × Event)) : List Event :=
  (l.filter fun p => p.1 = t).map Prod.snd

/-- Every component handles what is posted to it in order, and the rest waits in its queue. -/
def Fifo (q₀ : Component → List Event) (rt : Runtime Component Event Store) : Prop :=
  ∀ t, eventsOf t rt.handled ++ rt.q t = q₀ t ++ eventsOf t rt.posted

/-! ## The condition -/

/-- An event that is handled at once finds an empty queue. One that is queued replaces no deferred target with
events in its queue, unless that one is busy and will look at its queue itself. -/
def mayPost (rs : Reactions Component Event Store Reply) (rt : Runtime Component Event Store)
    (i o : Component) : Bool :=
  if !rs.flushes i && !rt.handling o then (rt.q o).isEmpty
  else
    match rt.deferred i with
    | none => true
    | some t => t = o || rt.handling t || (rt.q t).isEmpty

/-- The step meets the condition: a call reaches a component that handles no event, and a posted event loses none. -/
def meets (rs : Reactions Component Event Store Reply)
    (s : State Component Event Store Reply) : Bool :=
  match s.stack with
  | .body _ _ (.call c _ _) :: _ => !s.rt.handling c
  | .body _ c (.post o _ _) :: _ => mayPost rs s.rt c o
  | .body _ _ (.external o _ _) :: _ => s.rt.handling o || (s.rt.q o).isEmpty
  | _ => true

/-- A step that meets the condition. -/
def GoodStep (rs : Reactions Component Event Store Reply) (s s' : State Component Event Store Reply) : Prop :=
  meets rs s = true ∧ step rs s = some s'

/-- A run whose steps all meet the condition. -/
abbrev GoodRun (rs : Reactions Component Event Store Reply) :
    State Component Event Store Reply → State Component Event Store Reply → Prop :=
  Relation.ReflTransGen (GoodStep rs)

/-- No component handles an event; before a call nothing is queued, and before a flush only what it will handle. -/
structure Quiet (rt : Runtime Component Event Store) (op : Outermost Component Event) : Prop where
  idle : ∀ c, rt.handling c = false
  posted : rt.posted = []
  handled : rt.handled = []
  queues : ∀ t, rt.q t ≠ [] → ∃ o, op = .flush o ∧ (t = o ∨ rt.deferred o = some t)

variable {rs : Reactions Component Event Store Reply} {rt rt' : Runtime Component Event Store}
  {stack : List (Frame Component Event Store Reply)} {s s' : State Component Event Store Reply}

/-! ## Flushes to come -/

omit [DecidableEq Component] in
theorem pending_open {t : Component} (h : t ∈ opened stack) : Pending rt stack t := by
  obtain ⟨f, hf, hopen⟩ := List.mem_filterMap.mp h
  refine ⟨f, hf, .inl ?_⟩
  cases f <;> simp [Frame.opened, Frame.drains] at hopen ⊢
  · exact hopen
  · exact hopen

omit [DecidableEq Component] in
/-- The first frame is replaced by others that drain and target what it did. -/
theorem pending_swap {f : Frame Component Event Store Reply} (fs : List (Frame Component Event Store Reply))
    {t : Component} (hd : ∀ c, f.drains = some c → ∃ g ∈ fs, g.drains = some c)
    (ht : ∀ c, f.targets = some c → ∃ g ∈ fs, g.targets = some c) (hdef : rt'.deferred = rt.deferred)
    (h : Pending rt (f :: stack) t) : Pending rt' (fs ++ stack) t := by
  obtain ⟨g, hg, hor⟩ := h
  rcases List.mem_cons.mp hg with rfl | hg
  · rcases hor with hdrain | ⟨c, hc, hct⟩
    · obtain ⟨g', hg', hd'⟩ := hd t hdrain
      exact ⟨g', List.mem_append_left _ hg', .inl hd'⟩
    · obtain ⟨g', hg', ht'⟩ := ht c hc
      exact ⟨g', List.mem_append_left _ hg', .inr ⟨c, ht', hdef ▸ hct⟩⟩
  · refine ⟨g, List.mem_append_right _ hg, ?_⟩
    rcases hor with hdrain | ⟨c, hc, hct⟩
    · exact .inl hdrain
    · exact .inr ⟨c, hc, hdef ▸ hct⟩

omit [DecidableEq Component] in
/-- A frame that drains its component goes on as another one that does. -/
theorem covered_swap {f : Frame Component Event Store Reply} (g : Frame Component Event Store Reply)
    (fs : List (Frame Component Event Store Reply)) {c : Component}
    (h : Covered (⟨rt, f :: stack⟩ : State Component Event Store Reply)) (hf : f.drains = some c) (hg : g.drains = some c) (hmem : g ∈ fs)
    (hft : f.targets = some c) (hgt : g.targets = some c) (hq : ∀ t, rt'.q t ≠ [] → rt.q t ≠ [])
    (hdef : rt'.deferred = rt.deferred) :
    Covered (⟨rt', fs ++ stack⟩ : State Component Event Store Reply) := by
  intro t ht
  refine pending_swap fs ?_ ?_ hdef (h t (hq t ht))
  · intro c' hc'
    rw [hf] at hc'
    exact ⟨g, hmem, hg.trans hc'⟩
  · intro c' hc'
    rw [hft] at hc'
    exact ⟨g, hmem, hgt.trans hc'⟩

theorem handle_covered {o : Component} {e : Event} (h : handle rs rt o e stack = some s)
    (hc : Covered (⟨rt, stack⟩ : State Component Event Store Reply)) : Covered s := by
  unfold handle at h
  split at h
  · cases h
  · cases h
    intro t ht
    obtain ⟨f, hf, hor⟩ := hc t ht
    exact ⟨f, List.mem_cons_of_mem _ hf, hor⟩

/-- What the last part of a flush still has to flush is its target. -/
theorem pending_target {o t : Component} (h : Pending rt (.target o :: stack) t) :
    rt.deferred o = some t ∨ Pending (rt.setDeferred o none) stack t := by
  obtain ⟨f, hf, hor⟩ := h
  rcases List.mem_cons.mp hf with rfl | hf
  · rcases hor with hdrain | ⟨c, hct, hdt⟩
    · cases hdrain
    · obtain rfl := Option.some.inj hct
      exact .inl hdt
  · rcases hor with hdrain | ⟨c, hct, hdt⟩
    · exact .inr ⟨f, hf, .inl hdrain⟩
    · by_cases hco : c = o
      · exact .inl (hco ▸ hdt)
      · exact .inr ⟨f, hf, .inr ⟨c, hct, by simp [Runtime.setDeferred, hco, hdt]⟩⟩

/-- An event that is queued for a busy component, or by a component with an open body, is still to be flushed. -/
theorem enqueue_covered {i : Option Component} {o : Component} {e : Event}
    (h : enqueue rs rt i o e stack = some s)
    (hm : Marks rt stack) (hi : ∀ c, i = some c → c ∈ opened stack ∧ mayPost rs rt c o = true)
    (hc : Covered (⟨rt, stack⟩ : State Component Event Store Reply)) : Covered s := by
  unfold enqueue at h
  simp only at h
  split at h
  · refine handle_covered h ?_
    intro t ht
    obtain ⟨f, hf, hor⟩ := hc t ht
    exact ⟨f, List.mem_cons_of_mem _ hf, hor⟩
  · rename_i hqueue
    have hold : ∀ t, t ≠ o → (rt.enq o e).q t ≠ [] → rt.q t ≠ [] := by
      intro t hne
      simp [Runtime.enq, hne]
    cases i with
    | none =>
      cases h
      intro t ht
      by_cases hto : t = o
      · subst hto
        refine pending_open ((hm t).mp ?_)
        simpa using hqueue
      · exact hc t (hold t hto ht)
    | some i =>
      obtain ⟨hopen, hmay⟩ := hi i rfl
      cases h
      intro t ht
      by_cases hto : t = o
      · -- the component that posts will flush its target
        subst hto
        obtain ⟨f, hf, hfo⟩ := List.mem_filterMap.mp hopen
        refine ⟨f, hf, .inr ⟨i, ?_, by simp [Runtime.setDeferred]⟩⟩
        cases f <;> simp [Frame.opened, Frame.targets, Frame.drains] at hfo ⊢
        · exact hfo
        · exact hfo
      · have hqt := hold t hto ht
        obtain ⟨f, hf, hdrain | ⟨c, hct, hdt⟩⟩ := hc t hqt
        · exact ⟨f, hf, .inl hdrain⟩
        · have hdt : rt.deferred c = some t := hdt
          by_cases hci : c = i
          · -- the target that was deferred before is busy
            subst hci
            apply pending_open
            rw [← hm t]
            simp only [Option.any_some] at hqueue
            simp only [mayPost, hqueue, hdt] at hmay
            simpa [hto, hqt] using hmay
          · exact ⟨f, hf, .inr ⟨c, hct, by simp [Runtime.setDeferred, Runtime.enq, hci, hdt]⟩⟩

/-! ## First in, first out -/

@[simp] theorem eventsOf_append (t : Component) (l m : List (Component × Event)) :
    eventsOf t (l ++ m) = eventsOf t l ++ eventsOf t m := by
  simp [eventsOf]

@[simp] theorem eventsOf_same (t : Component) (e : Event) : eventsOf t [(t, e)] = [e] := by
  simp [eventsOf]

theorem eventsOf_other {t o : Component} (e : Event) (h : o ≠ t) : eventsOf t [(o, e)] = [] := by
  simp [eventsOf, h]

variable {q₀ : Component → List Event}

/-- The first event of a queue is handled. -/
theorem handle_fifo (rt : Runtime Component Event Store) {o : Component} {e : Event} (q : List Event)
    (h : handle rs rt' o e stack = some s) (hq : rt'.q = Function.update rt.q o q) (hqo : rt.q o = e :: q) (hp : rt'.posted = rt.posted)
    (hh : rt'.handled = rt.handled) (hf : Fifo q₀ rt) : Fifo q₀ s.rt := by
  unfold handle at h
  split at h
  · cases h
  · cases h
    intro t
    have ht := hf t
    simp only [Runtime.setHandling, hq, hp, hh, eventsOf_append]
    by_cases hto : t = o
    · subst hto
      rw [hqo] at ht
      rw [← ht]
      simp
    · rw [eventsOf_other e (Ne.symm hto), Function.update_of_ne hto, List.append_nil]
      exact ht

/-- An event is handled at once when nothing is queued before it. -/
theorem enqueue_fifo {i : Option Component} {o : Component} {e : Event}
    (h : enqueue rs rt i o e stack = some s)
    (hempty : (!(i.any rs.flushes) && !rt.handling o) = true → rt.q o = []) (hf : Fifo q₀ rt) : Fifo q₀ s.rt := by
  have henq : Fifo q₀ ({ rt with posted := rt.posted ++ [(o, e)] }.enq o e) := by
    intro t
    have ht := hf t
    simp only [Runtime.enq, eventsOf_append]
    by_cases hto : t = o
    · subst hto
      rw [Function.update_self, eventsOf_same, ← List.append_assoc, ← List.append_assoc, ht]
    · rw [eventsOf_other e (Ne.symm hto), Function.update_of_ne hto, List.append_nil]
      exact ht
  unfold enqueue at h
  simp only at h
  split at h
  · rename_i hnow
    -- as if the event had been queued and taken from the queue
    have hq := hempty hnow
    refine handle_fifo ({ rt with posted := rt.posted ++ [(o, e)] }.enq o e) [] h ?_ ?_ rfl rfl henq
    · funext t
      by_cases hto : t = o
      · subst hto
        simp [hq]
      · simp [Runtime.enq, hto]
    · simp [Runtime.enq, hq]
  · cases i with
    | none =>
      cases h
      exact henq
    | some i =>
      cases h
      exact henq

/-! ## Runs -/

/-- What holds in every state of a run that meets the condition. -/
structure Inv (q₀ : Component → List Event) (s : State Component Event Store Reply) : Prop where
  marked : Marked s
  covered : Covered s
  fifo : Fifo q₀ s.rt

theorem callsIdle_of_meets (h : meets rs s = true) : callsIdle s = true := by
  apply callsIdle_of_call
  intro d c c' e k rest heq
  unfold meets at h
  rw [heq] at h
  simpa using h

theorem step_covered (hm : Marked s) (hc : Covered s) (hg : meets rs s = true) (h : step rs s = some s') :
    Covered s' := by
  obtain ⟨rt, stack⟩ := s
  obtain ⟨hr, hl, hmarks⟩ := hm
  unfold step at h
  rcases stack with _ | ⟨f, stack⟩
  · cases h
  · rcases f with ⟨d, c, b⟩ | ⟨d, c, k⟩ | ⟨c, r⟩ | o | o | o | o
    · rcases b with r | ⟨f, k⟩ | ⟨c', e, k⟩ | ⟨o, e, k⟩ | ⟨o, e, k⟩
      · -- the component is flushed at the end of its body
        cases d with
        | callIn =>
          cases h
          exact covered_swap (.drain c) [.drain c, .back c r] hc rfl rfl (by simp) rfl rfl (fun _ h => h) rfl
        | callOut =>
          cases h
          exact covered_swap (.drain c) [.drain c] hc rfl rfl (by simp) rfl rfl (fun _ h => h) rfl
      · cases h
        exact covered_swap (.body d c _) [.body d c _] hc rfl rfl (List.mem_singleton_self _) rfl rfl (fun _ h => h) rfl
      · cases h
        exact covered_swap (.wait d c k) [.body .callIn c' _, .wait d c k] hc rfl rfl (by simp) rfl rfl (fun _ h => h) rfl
      · change enqueue rs rt (some c) o e (.body d c k :: stack) = some s' at h
        refine enqueue_covered h hmarks (fun i hi => ?_) ?_
        · obtain rfl := Option.some.inj hi
          exact ⟨by simp, hg⟩
        · exact covered_swap (.body d c k) [.body d c k] hc rfl rfl (by simp) rfl rfl (fun _ h => h) rfl
      · change enqueue rs rt none o e (.body d c k :: stack) = some s' at h
        refine enqueue_covered h hmarks (fun i hi => by cases hi) ?_
        exact covered_swap (.body d c k) [.body d c k] hc rfl rfl (by simp) rfl rfl (fun _ h => h) rfl
    · cases h
    · -- a frame that only takes the mark away has no queue to see to
      have hnone : Covered (⟨rt.setHandling c false, stack⟩ : State Component Event Store Reply) := by
        intro t ht
        exact pending_swap [] (by simp [Frame.drains]) (by simp [Frame.targets, Frame.drains]) rfl (hc t ht)
      rcases awaits_cases hr with rfl | ⟨d, c', k, rest, rfl, -⟩
      · cases h
        exact hnone
      · cases h
        exact covered_swap (.body d c' _) [.body d c' _] hnone rfl rfl (List.mem_singleton_self _) rfl rfl (fun _ h => h) rfl
    · simp only at h
      split at h
      · -- the queue is empty, so nothing but the target is still to be flushed
        rename_i hq
        cases h
        intro t ht
        have hto : t ≠ o := by
          rintro rfl
          exact ht hq
        obtain ⟨f, hf, hor⟩ := hc t ht
        rcases List.mem_cons.mp hf with rfl | hf
        · rcases hor with hdrain | ⟨c, hct, hdt⟩
          · exact absurd (Option.some.inj hdrain).symm hto
          · exact ⟨.target o, by simp, .inr ⟨c, hct, hdt⟩⟩
        · exact ⟨f, List.mem_cons_of_mem _ hf, hor⟩
      · rename_i e q hq
        -- one event is taken out, and the frame goes on with the rest of the queue
        refine handle_covered h ?_
        refine covered_swap (.handled o) [.handled o] hc rfl rfl (by simp) rfl rfl (fun t ht => ?_) rfl
        by_cases hto : t = o
        · subst hto
          simp [hq]
        · simpa [hto] using ht
    · cases h
      exact covered_swap (.drain o) [.drain o] hc rfl rfl (by simp) rfl rfl (fun _ h => h) rfl
    · simp only at h
      split at h
      · rename_i hnone
        cases h
        intro t ht
        rcases pending_target (hc t ht) with hto | hpend
        · rw [hnone] at hto
          cases hto
        · obtain ⟨f, hf, hor⟩ := hpend
          refine ⟨f, hf, ?_⟩
          rcases hor with hdrain | ⟨c, hct, hdt⟩
          · exact .inl hdrain
          · refine .inr ⟨c, hct, ?_⟩
            by_cases hco : c = o
            · subst hco
              simp [Runtime.setDeferred] at hdt
            · simpa [Runtime.setDeferred, hco] using hdt
      · rename_i target htarget
        split at h
        · -- the target is busy and will look at its queue itself
          rename_i hbusy
          cases h
          intro t ht
          rcases pending_target (hc t ht) with hto | hpend
          · obtain rfl := Option.some.inj (htarget.symm.trans hto)
            exact pending_open ((hmarks target).mp hbusy)
          · exact hpend
        · cases h
          intro t ht
          rcases pending_target (hc t ht) with hto | hpend
          · obtain rfl := Option.some.inj (htarget.symm.trans hto)
            exact ⟨.drain target, by simp [flush], .inl rfl⟩
          · obtain ⟨f, hf, hor⟩ := hpend
            exact ⟨f, List.mem_cons_of_mem _ hf, hor⟩
    · cases h
      exact covered_swap (.drain o) [.drain o] hc rfl rfl (by simp) rfl rfl (fun _ h => h) rfl

theorem step_fifo (hf : Fifo q₀ s.rt) (hg : meets rs s = true) (h : step rs s = some s') : Fifo q₀ s'.rt := by
  obtain ⟨rt, stack⟩ := s
  have hf : Fifo q₀ rt := hf
  unfold step at h
  rcases stack with _ | ⟨f, stack⟩
  · cases h
  · rcases f with ⟨d, c, b⟩ | ⟨d, c, k⟩ | ⟨c, r⟩ | o | o | o | o
    · rcases b with r | ⟨f, k⟩ | ⟨c', e, k⟩ | ⟨o, e, k⟩ | ⟨o, e, k⟩
      · cases h
        exact hf
      · cases h
        exact hf
      · cases h
        exact hf
      · change enqueue rs rt (some c) o e (.body d c k :: stack) = some s' at h
        refine enqueue_fifo h (fun hnow => ?_) hf
        have hmay : mayPost rs rt c o = true := hg
        simp only [Option.any_some] at hnow
        simpa [mayPost, hnow] using hmay
      · change enqueue rs rt none o e (.body d c k :: stack) = some s' at h
        refine enqueue_fifo h (fun hnow => ?_) hf
        have hidle : (rt.handling o || (rt.q o).isEmpty) = true := hg
        simp at hnow
        simpa [hnow] using hidle
    · cases h
    · simp only at h
      split at h
      · cases h
        exact hf
      · cases h
        exact hf
      · cases h
    · simp only at h
      split at h
      · cases h
        exact hf
      · rename_i e q hq
        exact handle_fifo rt q h rfl hq rfl rfl hf
    · cases h
      exact hf
    · simp only at h
      split at h
      · cases h
        exact hf
      · split at h
        · cases h
          exact hf
        · cases h
          exact hf
    · cases h
      exact hf

theorem inv_step (hi : Inv q₀ s) (h : GoodStep rs s s') : Inv q₀ s' :=
  ⟨step_marked hi.marked (callsIdle_of_meets h.1) h.2, step_covered hi.marked hi.covered h.1 h.2,
    step_fifo hi.fifo h.1 h.2⟩

theorem inv_run (hi : Inv q₀ s) (h : GoodRun rs s s') : Inv q₀ s' := by
  induction h with
  | refl => exact hi
  | tail _ hstep ih => exact inv_step ih hstep

theorem inv_start {op : Outermost Component Event} (hq : Quiet rt op) (h : start rs rt op = some s) :
    Inv rt.q s := by
  have hmarks : Marks rt ([] : List (Frame Component Event Store Reply)) := by
    intro c
    simp [hq.idle c]
  have hfifo : Fifo rt.q rt := by
    intro t
    simp [hq.posted, hq.handled, eventsOf]
  cases op with
  | call c e =>
    have hempty : ∀ t, rt.q t = [] := by
      intro t
      by_contra hne
      obtain ⟨o, ho, -⟩ := hq.queues t hne
      cases ho
    cases h
    exact ⟨callIn_marked trivial trivial hmarks (hq.idle c), fun t ht => absurd (hempty t) ht, hfifo⟩
  | external o e =>
    have hempty : ∀ t, rt.q t = [] := by
      intro t
      by_contra hne
      obtain ⟨o, ho, -⟩ := hq.queues t hne
      cases ho
    refine ⟨enqueue_marked h trivial trivial hmarks, ?_, enqueue_fifo h (fun _ => hempty o) hfifo⟩
    exact enqueue_covered h hmarks (fun i hi => by cases hi) fun t ht => absurd (hempty t) ht
  | flush o =>
    cases h
    refine ⟨flush_marked trivial trivial (by simp) (fun c _ => hmarks c), fun t ht => ?_, hfifo⟩
    obtain ⟨o', ho', hor⟩ := hq.queues t ht
    cases ho'
    rcases hor with rfl | hdef
    · exact ⟨.drain t, by simp [flush], .inl rfl⟩
    · exact ⟨.drain o, by simp [flush], .inr ⟨o, rfl, hdef⟩⟩

/-- In a run whose steps meet the condition no component handles two events at a time and every event is handled in
the order in which it was posted to its target; when the outermost call or flush returns, all queues are empty and all
events have been handled. -/
theorem flush_handles_all {rs : Reactions Component Event Store Reply} {rt : Runtime Component Event Store}
    {op : Outermost Component Event} {s₀ s : State Component Event Store Reply} (hq : Quiet rt op)
    (hs : start rs rt op = some s₀) (hr : GoodRun rs s₀ s) :
    (opened s.stack).Nodup ∧ (∀ t, eventsOf t s.rt.handled ++ s.rt.q t = rt.q t ++ eventsOf t s.rt.posted) ∧
      (s.stack ≠ [] → ∃ s', step rs s = some s') ∧
      (s.stack = [] → ∀ t, s.rt.q t = [] ∧ eventsOf t s.rt.handled = rt.q t ++ eventsOf t s.rt.posted) := by
  obtain ⟨hm, hc, hf⟩ := inv_run (inv_start hq hs) hr
  refine ⟨layered_nodup hm.layered, hf, step_some hm, fun hstack t => ?_⟩
  have hempty : s.rt.q t = [] := by
    by_contra hne
    obtain ⟨f, hmem, -⟩ := hc t hne
    rw [hstack] at hmem
    cases hmem
  have ht := hf t
  rw [hempty, List.append_nil] at ht
  exact ⟨hempty, ht⟩

/-! ## A run with a lost target -/

/-- A step, if it meets the condition. -/
def goodNext (rs : Reactions Component Event Store Reply) (s : State Component Event Store Reply) :
    Option (State Component Event Store Reply) := if meets rs s then step rs s else none

theorem goodRun_of_steps {n : Nat} (h : Match.steps (goodNext rs) n s = some s') : GoodRun rs s s' := by
  refine Relation.ReflTransGen.mono (fun a b hab => ?_) s s' (Match.runs_of_steps h)
  unfold goodNext at hab
  split at hab
  · rename_i hg
    exact ⟨hg, hab⟩
  · cases hab

omit [DecidableEq Component] in
/-- Every event that is posted goes to one component. -/
def Body.PostsTo (o : Component) : Body Component Event Store Reply → Prop
  | .reply _ => True
  | .update _ k => ∀ s, (k s).PostsTo o
  | .call _ _ k => ∀ r, (k r).PostsTo o
  | .post o' _ k => o' = o ∧ k.PostsTo o
  | .external _ _ k => k.PostsTo o

end

/-- Four components: the first one calls the second one, which posts two events to it. The first event makes it post
to the third component, and the second one to the component `second`. -/
def twoTargets (second : Fin 4) : Reactions (Fin 4) Nat Unit Unit where
  flushes := fun _ => true
  react := fun c e =>
    match c, e with
    | 0, 0 => .call 1 0 fun _ => .reply ()
    | 1, 0 => .post 0 1 (.post 0 2 (.reply ()))
    | 0, 1 => .post 2 3 (.reply ())
    | 0, 2 => .post second 4 (.reply ())
    | _, _ => .reply ()

/-- Nothing is queued and no component handles an event. -/
def resting : Runtime (Fin 4) Nat Unit :=
  { handling := fun _ => false, deferred := fun _ => none, q := fun _ => [], store := (), posted := [], handled := [] }

theorem resting_quiet (op : Outermost (Fin 4) Nat) : Quiet resting op :=
  ⟨fun _ => rfl, rfl, rfl, fun _ ht => absurd rfl ht⟩

/-- Both events are for the third component. -/
theorem flush_one_target : ∃ s₀ s, start (twoTargets 2) resting (.call 0 0) = some s₀ ∧
    GoodRun (twoTargets 2) s₀ s ∧ s.stack = [] ∧ s.rt.handled = [(0, 1), (0, 2), (2, 3), (2, 4)] ∧
    ∀ t, s.rt.q t = [] ∧ eventsOf t s.rt.handled = resting.q t ++ eventsOf t s.rt.posted := by
  have h : ((start (twoTargets 2) resting (.call 0 0)).bind (Match.steps (goodNext (twoTargets 2)) 35)).map
      (fun s => (s.stack.isEmpty, s.rt.handled)) = some (true, [(0, 1), (0, 2), (2, 3), (2, 4)]) := by rfl
  obtain ⟨s, hs, heq⟩ := Option.map_eq_some_iff.mp h
  obtain ⟨s₀, hs₀, hsteps⟩ := Option.bind_eq_some_iff.mp hs
  have hstack : s.stack = [] := by simpa using congrArg Prod.fst heq
  refine ⟨s₀, s, hs₀, goodRun_of_steps hsteps, hstack, congrArg Prod.snd heq, ?_⟩
  exact (flush_handles_all (resting_quiet _) hs₀ (goodRun_of_steps hsteps)).2.2.2 hstack

/-- Each event makes a component post to one other component, but the second target replaces the first one. -/
theorem flush_two_targets : ¬ ∀ (rs : Reactions (Fin 4) Nat Unit Unit) (rt : Runtime (Fin 4) Nat Unit)
    (op : Outermost (Fin 4) Nat) (s₀ s : State (Fin 4) Nat Unit Unit),
    (∀ c e, ∃ o, (rs.react c e).PostsTo o) → Quiet rt op → start rs rt op = some s₀ → Match.Runs (step rs) s₀ s →
    s.stack = [] → ∀ t, s.rt.q t = [] := by
  intro hall
  have h : ((start (twoTargets 3) resting (.call 0 0)).bind (Match.steps (step (twoTargets 3)) 30)).map
      (fun s => (s.stack.isEmpty, s.rt.q 2)) = some (true, [3]) := by rfl
  obtain ⟨s, hs, heq⟩ := Option.map_eq_some_iff.mp h
  obtain ⟨s₀, hs₀, hsteps⟩ := Option.bind_eq_some_iff.mp hs
  have hstack : s.stack = [] := by simpa using congrArg Prod.fst heq
  have hposts : ∀ c e, ∃ o, ((twoTargets 3).react c e).PostsTo o := by
    intro c e
    unfold twoTargets
    simp only
    split
    · exact ⟨0, fun _ => trivial⟩
    · exact ⟨0, rfl, rfl, trivial⟩
    · exact ⟨2, rfl, trivial⟩
    · exact ⟨3, rfl, trivial⟩
    · exact ⟨0, trivial⟩
  have hempty := hall _ _ _ _ _ hposts (resting_quiet _) hs₀ (Match.runs_of_steps hsteps) hstack 2
  have hqueue : s.rt.q 2 = [3] := congrArg Prod.snd heq
  rw [hqueue] at hempty
  cases hempty

end Dezyne.Flush
