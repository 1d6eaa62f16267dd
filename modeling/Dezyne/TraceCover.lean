import Dezyne.Traces
/-!
# What the traces cover

The depth-first walk goes along every edge of the states it reaches, and every
time it closes the path it came along. The closing edges were found over the
edges from before the pruning: the traces are of the pruned LTS exactly if those
that are taken were not pruned.
-/

namespace Dezyne

open Lts

/-! ## Closing a trace -/

/-- The edges that close a trace from a state, and where they end. -/
inductive Closes (lts : Lts) : Nat → List (Edge String) → Nat → Prop
  | done {i : Nat} : closingEdge lts i = none → Closes lts i [] i
  | edge {i j : Nat} {e : Edge String} {c : List (Edge String)} :
      closingEdge lts i = some e → Closes lts e.toState c j → Closes lts i (e :: c) j

/-- The labels of a path that are in its trace. -/
def visibleLabels (p : List (Edge String)) : List String :=
  (p.map Edge.label).filter (· ∉ [tauLabel, ackLabel])

/-- The trace of a path. -/
def pathTrace (p : List (Edge String)) : GeneratedTrace := ⟨p, visibleLabels p⟩

theorem traceExtend_pathTrace (p : List (Edge String)) (e : Edge String) :
    traceExtend (pathTrace p) e = pathTrace (p ++ [e]) := by
  unfold traceExtend pathTrace visibleLabels
  generalize [tauLabel, ackLabel] = hidden
  by_cases h : e.label ∈ hidden <;> simp [h]

section
variable {lts : Lts}

theorem lt_of_closingEdge {i : Nat} {e : Edge String} (h : closingEdge lts i = some e) : i < lts.length := by
  by_contra hge
  have hnode : node lts i = ⟨i, [], [], false, .white, none, -1, none⟩ := by
    rw [node, List.getElem?_eq_none (by omega)]
    rfl
  rw [closingEdge, hnode] at h
  split at h <;> cases h

theorem run_traceClose {i j : Nat} {c : List (Edge String)} (h : Closes lts i c j) : ∀ p,
    Loop.run (traceCloseStep lts) (c.length + 1) (pathTrace p, i) = some (pathTrace (p ++ c), j) := by
  induction h with
  | @done i hnone =>
    intro p
    rw [List.append_nil]
    exact Loop.run_done (by rw [traceCloseStep, hnone]; rfl) _
  | @edge i j e c hsome _ ih =>
    intro p
    have hstep : traceCloseStep lts (pathTrace p, i) = some (pathTrace (p ++ [e]), e.toState) := by
      rw [traceCloseStep, hsome, Option.map_some, traceExtend_pathTrace]
    rw [List.length_cons, Loop.run_step hstep, ih, List.append_assoc]
    rfl

/-- A trace that can be closed is. -/
theorem traceClose_of_closes {i j : Nat} {c : List (Edge String)} (h : Closes lts i c j)
    (p : List (Edge String)) : traceClose lts (pathTrace p) i = some (pathTrace (p ++ c)) := by
  have hrun := Loop.run_enough Prod.snd (U := List.range lts.length)
    (by
      rintro ⟨t, i⟩ ⟨t', i'⟩ s' heq hs
      obtain rfl : i = i' := heq
      obtain ⟨e, he, rfl⟩ := Option.map_eq_some_iff.1 hs
      exact ⟨(traceExtend t' e, e.toState), by rw [traceCloseStep, he]; rfl, rfl⟩)
    (by
      rintro ⟨t, i⟩ s' hs
      obtain ⟨e, he, -⟩ := Option.map_eq_some_iff.1 hs
      exact List.mem_range.2 (lt_of_closingEdge he))
    (run_traceClose h p)
  rw [List.length_range] at hrun
  rw [traceClose, hrun]
  rfl

theorem closes_of_run : ∀ {fuel i p r}, Loop.run (traceCloseStep lts) fuel (pathTrace p, i) = some r →
    ∃ c, Closes lts i c r.2 ∧ r.1 = pathTrace (p ++ c) := by
  intro fuel
  induction fuel with
  | zero => intro _ _ _ h; cases h
  | succ fuel ih =>
    intro i p r h
    cases hedge : closingEdge lts i with
    | none =>
      rw [Loop.run_done (by rw [traceCloseStep, hedge]; rfl)] at h
      obtain rfl := Option.some.inj h
      exact ⟨[], .done hedge, by rw [List.append_nil]⟩
    | some e =>
      have hstep : traceCloseStep lts (pathTrace p, i) = some (pathTrace (p ++ [e]), e.toState) := by
        rw [traceCloseStep, hedge, Option.map_some, traceExtend_pathTrace]
      rw [Loop.run_step hstep] at h
      obtain ⟨c, hc, heq⟩ := ih h
      exact ⟨e :: c, .edge hedge hc, by rw [heq, List.append_assoc]; rfl⟩

theorem traceClose_closes {i : Nat} {p : List (Edge String)} {t : GeneratedTrace}
    (h : traceClose lts (pathTrace p) i = some t) : ∃ c j, Closes lts i c j ∧ t = pathTrace (p ++ c) := by
  obtain ⟨r, hr, rfl⟩ := Option.map_eq_some_iff.1 h
  obtain ⟨c, hc, heq⟩ := closes_of_run hr
  exact ⟨c, r.2, hc, heq⟩

end

/-! ## The walk through the LTS -/

theorem prioritizeInvariant_edges (lts : Lts) (i : Nat) :
    (node (prioritizeInvariant lts) i).edges = prioritizeInvariantEdges (node lts i).edges := by
  by_cases hi : i < lts.length
  · rw [prioritizeInvariant, node_map _ hi]
  · rw [node_of_le (by rw [prioritizeInvariant, List.length_map]; omega), node_of_le (by omega)]
    rfl

section
variable {lts : Lts} {start : Nat}

/-- A trace along an edge of a state, and a path that closes it. -/
def IsClosed (lts : Lts) (e : Edge String) (p : List (Edge String)) (t : GeneratedTrace) : Prop :=
  ∃ c j, Closes lts e.toState c j ∧ t = pathTrace (p ++ e :: c)

/-- What a part of the walk adds: the new states have all their edges gone along, and the new traces are
closed after a path from the start. -/
structure Covers (lts : Lts) (start : Nat) (g g' : Generated) : Prop where
  done : g.done ⊆ g'.done
  traces : g.traces ⊆ g'.traces
  edges : ∀ v ∈ g'.done, v ∉ g.done → ∀ e ∈ (node (prioritizeInvariant lts) v).edges, e.toState ≠ v →
    (e.toState ∈ g'.done ∨ lts.length ≤ e.toState) ∧ ∃ p, ∃ t ∈ g'.traces, IsClosed lts e p t
  closed : ∀ t ∈ g'.traces, t ∈ g.traces ∨ ∃ p v, ∃ e ∈ (node (prioritizeInvariant lts) v).edges, e.toState ≠ v ∧
    Trace (prioritizeInvariant lts) start p v ∧ IsClosed lts e p t

theorem Covers.refl (g : Generated) : Covers lts start g g where
  done := fun _ h => h
  traces := fun _ h => h
  edges := fun _ h hn => absurd h hn
  closed := fun _ h => .inl h

theorem Covers.trans {g g' g'' : Generated} (h : Covers lts start g g') (h' : Covers lts start g' g'') :
    Covers lts start g g'' where
  done := fun _ hv => h'.done (h.done hv)
  traces := fun _ ht => h'.traces (h.traces ht)
  edges v hv hn e he hne := by
    by_cases hmem : v ∈ g'.done
    · obtain ⟨hdone, p, t, ht, hc⟩ := h.edges v hmem hn e he hne
      exact ⟨hdone.imp_left fun hd => h'.done hd, p, t, h'.traces ht, hc⟩
    · exact h'.edges v hv hmem e he hne
  closed t ht := by
    rcases h'.closed t ht with ht | hc
    · exact h.closed t ht
    · exact .inr hc

theorem generateStep_done {fuel index : Nat} {trace : GeneratedTrace} {g : Generated} {r : Bool × Generated}
    (hdone : index ∈ g.done ∨ lts.length ≤ index) (h : generateStep lts fuel index trace g = some r) :
    r = (false, g) := by
  cases fuel with
  | zero => cases h
  | succ fuel =>
    rw [generateStep, if_pos hdone] at h
    exact (Option.some.inj h).symm

/-- What `step` does from any state it is called for. -/
def StepCovers (lts : Lts) (start : Nat)
    (step : Nat → GeneratedTrace → Generated → Option (Bool × Generated)) : Prop :=
  ∀ index p g r, Trace (prioritizeInvariant lts) start p index → step index (pathTrace p) g = some r →
    Covers lts start g r.2 ∧ (index ∈ r.2.done ∨ lts.length ≤ index)

theorem logClosed_eq {p : List (Edge String)} {e : Edge String} {g g' : Generated}
    (h : logClosed lts (pathTrace (p ++ [e])) e (false, g) = some g') :
    ∃ t, IsClosed lts e p t ∧ g' = { g with traces := t :: g.traces } := by
  rw [logClosed, if_neg (by simp)] at h
  obtain ⟨t, ht, rfl⟩ := Option.map_eq_some_iff.1 h
  refine ⟨t, ?_, rfl⟩
  split at ht
  · rename_i heq
    obtain rfl := Option.some.inj ht
    exact ⟨[], e.toState, .done (by rw [closingEdge, if_pos heq]), rfl⟩
  · obtain ⟨c, j, hc, rfl⟩ := traceClose_closes ht
    exact ⟨c, j, hc, by rw [List.append_assoc]; rfl⟩

theorem stepEdge_covers {fuel index : Nat} {p : List (Edge String)} {e : Edge String}
    {r r' : Bool × Generated}
    (hstep : StepCovers lts start (generateStep lts fuel)) (hp : Trace (prioritizeInvariant lts) start p index)
    (he : e ∈ (node (prioritizeInvariant lts) index).edges)
    (h : stepEdge lts (generateStep lts fuel) index (pathTrace p) r e = some r') :
    Covers lts start r.2 r'.2 ∧ (e.toState ≠ index →
      (e.toState ∈ r'.2.done ∨ lts.length ≤ e.toState) ∧ ∃ p, ∃ t ∈ r'.2.traces, IsClosed lts e p t) := by
  rw [stepEdge] at h
  split at h
  · rename_i heq
    obtain rfl := Option.some.inj h
    exact ⟨.refl _, fun hne => absurd heq hne⟩
  · rename_i hne
    rw [traceExtend_pathTrace] at h
    simp only [Option.bind_eq_bind, Option.bind_eq_some_iff] at h
    obtain ⟨r1, h1, r2, h2, g, h3, h4⟩ := h
    obtain ⟨hcovers, hdone⟩ := hstep e.toState (p ++ [e]) r.2 r1 (hp.snoc ⟨he, rfl⟩) h1
    -- the second call finds the state done
    obtain rfl := generateStep_done hdone h2
    obtain ⟨t, ht, rfl⟩ := logClosed_eq h3
    obtain rfl := Option.some.inj h4
    refine ⟨hcovers.trans ⟨fun _ hv => hv, fun _ hu => List.mem_cons_of_mem _ hu, fun _ hv hn => absurd hv hn, ?_⟩,
      fun _ => ⟨hdone, p, t, by simp, ht⟩⟩
    intro u hu
    rcases List.mem_cons.1 hu with rfl | hu
    · exact .inr ⟨p, index, e, he, hne, hp, ht⟩
    · exact .inl hu

theorem foldlM_stepEdge_covers {fuel index : Nat} {p : List (Edge String)}
    (hstep : StepCovers lts start (generateStep lts fuel)) (hp : Trace (prioritizeInvariant lts) start p index) :
    ∀ (es : List (Edge String)) (r r' : Bool × Generated),
      (∀ e ∈ es, e ∈ (node (prioritizeInvariant lts) index).edges) →
      es.foldlM (stepEdge lts (generateStep lts fuel) index (pathTrace p)) r = some r' →
      Covers lts start r.2 r'.2 ∧ ∀ e ∈ es, e.toState ≠ index →
        (e.toState ∈ r'.2.done ∨ lts.length ≤ e.toState) ∧ ∃ p, ∃ t ∈ r'.2.traces, IsClosed lts e p t := by
  intro es
  induction es with
  | nil =>
    intro r r' _ h
    obtain rfl := Option.some.inj h
    exact ⟨.refl _, by simp⟩
  | cons e es ih =>
    intro r r' hes h
    rw [List.foldlM_cons, Option.bind_eq_bind, Option.bind_eq_some_iff] at h
    obtain ⟨r1, h1, h2⟩ := h
    obtain ⟨hc1, hedge⟩ := stepEdge_covers hstep hp (hes e (by simp)) h1
    obtain ⟨hc2, hedges⟩ := ih r1 r' (fun d hd => hes d (by simp [hd])) h2
    refine ⟨hc1.trans hc2, fun d hd hne => ?_⟩
    rcases List.mem_cons.1 hd with rfl | hd
    · obtain ⟨hdone, q, t, ht, hc⟩ := hedge hne
      exact ⟨hdone.imp_left fun h => hc2.done h, q, t, hc2.traces ht, hc⟩
    · exact hedges d hd hne

theorem generateStep_covers : ∀ fuel, StepCovers lts start (generateStep lts fuel) := by
  intro fuel
  induction fuel with
  | zero => intro _ _ _ _ _ h; cases h
  | succ fuel ih =>
    intro index p g r hp h
    rw [generateStep] at h
    split at h
    · rename_i hdone
      obtain rfl := Option.some.inj h
      exact ⟨.refl _, hdone⟩
    · rename_i hnew
      obtain ⟨hc, hedges⟩ := foldlM_stepEdge_covers ih hp _ _ _
        (fun e he => by rw [prioritizeInvariant_edges]; exact he) h
      have hindex : index ∈ r.2.done := hc.done (by simp)
      refine ⟨⟨fun v hv => hc.done (by simp [hv]), hc.traces, fun v hv hn e he hne => ?_, hc.closed⟩, .inl hindex⟩
      by_cases hv' : v = index
      · subst hv'
        exact hedges e (by rw [← prioritizeInvariant_edges]; exact he) hne
      · exact hc.edges v hv (by simp [hv', hn]) e he hne

/-- How many states are not done. -/
def undone (lts : Lts) (g : Generated) : Nat := ((List.range lts.length).filter fun i => i ∉ g.done).length

theorem undone_le {g g' : Generated} (h : g.done ⊆ g'.done) : undone lts g' ≤ undone lts g := by
  apply List.Sublist.length_le
  apply List.monotone_filter_right
  intro i hi
  simp only [decide_eq_true_eq] at hi ⊢
  exact fun hmem => hi (h hmem)

theorem undone_cons {index : Nat} {g : Generated} (hlt : index < lts.length) (hn : index ∉ g.done) :
    undone lts { g with done := index :: g.done } < undone lts g := by
  have hmem : index ∈ (List.range lts.length).filter fun i => i ∉ g.done := by simp [hlt, hn]
  have hsub : ((List.range lts.length).filter fun i => i ∉ index :: g.done).Sublist
      (((List.range lts.length).filter fun i => i ∉ g.done).erase index) := by
    rw [List.Nodup.erase_eq_filter (List.nodup_range.filter _), List.filter_filter]
    apply List.monotone_filter_right
    intro i hi
    simpa [and_comm] using hi
  have hlen := hsub.length_le
  have hpos := List.length_pos_of_mem hmem
  rw [List.length_erase_of_mem hmem] at hlen
  simp only [undone]
  omega

/-- All traces of the walk can be closed. -/
def Closable (lts : Lts) (start : Nat) : Prop := ∀ p v, Trace (prioritizeInvariant lts) start p v →
  ∀ e ∈ (node (prioritizeInvariant lts) v).edges, e.toState ≠ v → ∃ c j, Closes lts e.toState c j

theorem logClosed_some (p : List (Edge String)) {e : Edge String} (g : Generated)
    (h : ∃ c j, Closes lts e.toState c j) : ∃ g', logClosed lts (pathTrace p) e (false, g) = some g' := by
  obtain ⟨c, j, hc⟩ := h
  rw [logClosed, if_neg (by simp)]
  split
  · exact ⟨_, rfl⟩
  · rw [traceClose_of_closes hc]
    exact ⟨_, rfl⟩

theorem stepEdge_some {fuel index : Nat} {p : List (Edge String)} {e : Edge String} {r : Bool × Generated}
    (hclose : Closable lts start)
    (hstep : ∀ index p g, Trace (prioritizeInvariant lts) start p index → undone lts g < fuel →
      ∃ r, generateStep lts fuel index (pathTrace p) g = some r)
    (hp : Trace (prioritizeInvariant lts) start p index) (he : e ∈ (node (prioritizeInvariant lts) index).edges)
    (hfuel : undone lts r.2 < fuel) :
    ∃ r', stepEdge lts (generateStep lts fuel) index (pathTrace p) r e = some r' := by
  rw [stepEdge]
  split
  · exact ⟨r, rfl⟩
  · rename_i hne
    have hp' : Trace (prioritizeInvariant lts) start (p ++ [e]) e.toState := hp.snoc ⟨he, rfl⟩
    obtain ⟨r1, h1⟩ := hstep e.toState (p ++ [e]) r.2 hp' hfuel
    obtain ⟨hcovers, hdone⟩ := generateStep_covers fuel e.toState (p ++ [e]) r.2 r1 hp' h1
    have hle : undone lts r1.2 ≤ undone lts r.2 := undone_le hcovers.done
    obtain ⟨r2, h2⟩ := hstep e.toState (p ++ [e]) r1.2 hp' (by omega)
    obtain rfl := generateStep_done hdone h2
    obtain ⟨g, hg⟩ := logClosed_some (p ++ [e]) r1.2 (hclose p index hp e he hne)
    rw [traceExtend_pathTrace]
    simp only [h1, h2, hg, Option.bind_eq_bind, Option.bind_some]
    exact ⟨_, rfl⟩

theorem foldlM_stepEdge_some {fuel index : Nat} {p : List (Edge String)} (hclose : Closable lts start)
    (hstep : ∀ index p g, Trace (prioritizeInvariant lts) start p index → undone lts g < fuel →
      ∃ r, generateStep lts fuel index (pathTrace p) g = some r)
    (hp : Trace (prioritizeInvariant lts) start p index) : ∀ (es : List (Edge String)) (r : Bool × Generated),
      (∀ e ∈ es, e ∈ (node (prioritizeInvariant lts) index).edges) → undone lts r.2 < fuel →
      ∃ r', es.foldlM (stepEdge lts (generateStep lts fuel) index (pathTrace p)) r = some r' := by
  intro es
  induction es with
  | nil => exact fun r _ _ => ⟨r, rfl⟩
  | cons e es ih =>
    intro r hes hfuel
    obtain ⟨r1, h1⟩ := stepEdge_some (r := r) hclose hstep hp (hes e (by simp)) hfuel
    obtain ⟨hcovers, -⟩ := stepEdge_covers (generateStep_covers fuel) hp (hes e (by simp)) h1
    have hle : undone lts r1.2 ≤ undone lts r.2 := undone_le hcovers.done
    obtain ⟨r', h'⟩ := ih r1 (fun d hd => hes d (by simp [hd])) (by omega)
    exact ⟨r', by rw [List.foldlM_cons, h1]; exact h'⟩

/-- If all traces can be closed, fuel for all states is enough. -/
theorem generateStep_some (hclose : Closable lts start) : ∀ fuel index p g,
    Trace (prioritizeInvariant lts) start p index → undone lts g < fuel →
      ∃ r, generateStep lts fuel index (pathTrace p) g = some r := by
  intro fuel
  induction fuel with
  | zero => intro _ _ _ _ h; omega
  | succ fuel ih =>
    intro index p g hp hfuel
    rw [generateStep]
    split
    · exact ⟨_, rfl⟩
    · rename_i hnew
      obtain ⟨hn, hlt⟩ := not_or.1 hnew
      have hless := undone_cons (not_le.1 hlt) hn
      exact foldlM_stepEdge_some hclose ih hp _ _ (fun e he => by rw [prioritizeInvariant_edges]; exact he)
        (by simp only; omega)

end

/-! ## Pruning -/

section
variable {aut : Aut} {o : TracesOptions} {i : Nat} {e : Edge String}

theorem convertLts_length : (convertLts aut o).length = aut.stateCount := by
  rw [convertLts, List.length_map]
  exact constructNodes_length

theorem convertLts_node (h : i < aut.stateCount) :
    node (convertLts aut o) i = convertNode o (node (constructLtsPred aut) i) :=
  node_map _ (by unfold constructLtsPred; rw [constructNodes_length]; exact h)

theorem mem_convertLts_pred (h : i < aut.stateCount) :
    e ∈ (node (convertLts aut o) i).pred ↔ ∃ d ∈ aut.edges, d.toState = i ∧ convertEdge o d = e := by
  rw [convertLts_node h, constructLtsPred, constructNodes_node h]
  simp [convertNode, and_assoc]

theorem mem_convertLts_edges :
    e ∈ (node (convertLts aut o) i).edges ↔ ∃ d ∈ aut.edges, d.fromState = i ∧ convertEdge o d = e := by
  by_cases h : i < aut.stateCount
  · rw [convertLts_node h, convertNode, List.mem_map]
    simp only [constructLtsPred, mem_constructNodes, and_assoc]
  · rw [node_of_le (by rw [convertLts_length]; omega)]
    constructor
    · intro he
      cases he
    · rintro ⟨d, hd, rfl, -⟩
      exact absurd (aut.inRange d hd).1 h

theorem convertLts_parent : (node (convertLts aut o) i).parent = none := by
  by_cases h : i < aut.stateCount
  · rw [convertLts_node h]
    exact (constructNodes_blank i).2
  · rw [node, List.getElem?_eq_none (by rw [convertLts_length]; omega)]
    rfl

theorem convertLts_state (h : i < aut.stateCount) : (node (convertLts aut o) i).state = i := by
  rw [convertLts_node h]
  exact constructNodes_wellFormed.state i (by rw [constructNodes_length]; exact h)

/-- What the pruning leaves: edges of the whole LTS or to the deadlock, but none to a state with an edge
`<illegal>`, unless all edges of that lead to the deadlock. -/
structure Pruned (whole lts : Lts) : Prop where
  length : lts.length = whole.length
  pred : ∀ i, (node lts i).pred = (node whole i).pred
  parent : ∀ i, (node lts i).parent = (node whole i).parent
  edge : ∀ s, ∀ e ∈ (node lts s).edges, e.toState = lts.length ∨ e ∈ (node whole s).edges
  illegal : ∀ s, ∀ e ∈ (node lts s).edges, (node lts e.toState).illegalEdge.isSome →
    ∀ d ∈ (node lts e.toState).edges, d.toState = lts.length

theorem illegalNodeDeadlock_cases (deadlock : Nat) (n : Node) :
    illegalNodeDeadlock deadlock n = n ∧ n.illegalEdge = none ∨
      ∃ e : Edge String, illegalNodeDeadlock deadlock n = { n with edges := [{ e with toState := deadlock }] } := by
  rw [illegalNodeDeadlock]
  cases hi : n.illegalEdge with
  | none => exact .inl ⟨rfl, rfl⟩
  | some d =>
    cases he : n.edges with
    | nil =>
      rw [Node.illegalEdge, he] at hi
      cases hi
    | cons e es => exact .inr ⟨e, rfl⟩

theorem illegalLivelockDeadlock_pruned (whole : Lts) : Pruned whole (illegalLivelockDeadlock whole) := by
  have hlen : (illegalLivelockDeadlock whole).length = whole.length := List.length_map _
  have hnode : ∀ i, node (illegalLivelockDeadlock whole) i = node whole i ∧ (node whole i).illegalEdge = none ∨
      ∃ e : Edge String, node (illegalLivelockDeadlock whole) i =
        { node whole i with edges := [{ e with toState := whole.length }] } := by
    intro i
    by_cases hi : i < whole.length
    · rw [illegalLivelockDeadlock, node_map _ hi]
      exact illegalNodeDeadlock_cases _ _
    · refine .inl ⟨?_, by rw [Node.illegalEdge, node_of_le (by omega)]; rfl⟩
      rw [node, node, List.getElem?_eq_none (by omega), List.getElem?_eq_none (by omega)]
  refine ⟨hlen, fun i => ?_, fun i => ?_, fun s e he => ?_, fun s e _ hill d hd => ?_⟩
  · rcases hnode i with ⟨h, -⟩ | ⟨e, h⟩ <;> rw [h]
  · rcases hnode i with ⟨h, -⟩ | ⟨e, h⟩ <;> rw [h]
  · rcases hnode s with ⟨h, -⟩ | ⟨d, h⟩
    · exact .inr (by rwa [← h])
    · rw [h] at he
      obtain rfl := List.mem_singleton.1 he
      exact .inl hlen.symm
  · rcases hnode e.toState with ⟨h, hnone⟩ | ⟨c, h⟩
    · rw [h, hnone] at hill
      cases hill
    · rw [h] at hd
      obtain rfl := List.mem_singleton.1 hd
      exact hlen.symm

theorem removeIllegal_pruned {whole : Lts} (hstate : ∀ i, i < whole.length → (node whole i).state ≤ i)
    (hto : ∀ s, ∀ e ∈ (node whole s).edges, e.toState < whole.length) : Pruned whole (removeIllegal whole) := by
  unfold removeIllegal
  rw [annotateExclude_eq hstate]
  generalize hmap : whole.map (excludeLabel [declarativeIllegal, illegalLabel]) = marked
  have hlen : marked.length = whole.length := by rw [← hmap, List.length_map]
  have hmarked : ∀ i, i < whole.length → node marked i = excludeLabel [declarativeIllegal, illegalLabel] (node whole i) := by
    intro i hi
    rw [← hmap, node_map _ hi]
  have hlen' : (marked.map fun n => { n with edges := n.edges.filter fun e => !(node marked e.toState).exclude }).length =
      whole.length := by rw [List.length_map, hlen]
  have hnode : ∀ i, i < whole.length →
      node (marked.map fun n => { n with edges := n.edges.filter fun e => !(node marked e.toState).exclude }) i =
        { excludeLabel [declarativeIllegal, illegalLabel] (node whole i) with
          edges := (node whole i).edges.filter fun e => !(node marked e.toState).exclude } := by
    intro i hi
    rw [node_map _ (by omega), hmarked i hi]
    rfl
  generalize (marked.map fun n => { n with edges := n.edges.filter fun e => !(node marked e.toState).exclude }) = lts
    at hlen' hnode
  have hout : ∀ i, ¬ i < whole.length → node lts i = node whole i := by
    intro i hi
    rw [node, node, List.getElem?_eq_none (by omega), List.getElem?_eq_none (by omega)]
  have hedges : ∀ s, ∀ e ∈ (node lts s).edges, e ∈ (node whole s).edges ∧ (node marked e.toState).exclude = false := by
    intro s e he
    by_cases hs : s < whole.length
    · rw [hnode s hs] at he
      obtain ⟨he, hx⟩ := List.mem_filter.1 he
      exact ⟨he, by simpa using hx⟩
    · rw [node_of_le (by omega)] at he
      cases he
  refine ⟨hlen', fun i => ?_, fun i => ?_, fun s e he => .inr (hedges s e he).1, fun s e he hill d hd => ?_⟩
  · by_cases hi : i < whole.length
    · rw [hnode i hi]
      rfl
    · rw [hout i hi]
  · by_cases hi : i < whole.length
    · rw [hnode i hi]
      rfl
    · rw [hout i hi]
  · -- the target of an edge that is left has no edge `<illegal>`
    obtain ⟨he, hx⟩ := hedges s e he
    have hlt := hto s e he
    obtain ⟨c, hc⟩ := Option.isSome_iff_exists.1 hill
    have hcmem := (hedges e.toState c (List.mem_of_find?_eq_some hc)).1
    have hlabel := List.find?_some hc
    rw [hmarked _ hlt, ← Bool.not_eq_true, exclude_excludeLabel] at hx
    exact absurd ⟨c, hcmem, by simp [of_decide_eq_true hlabel]⟩ hx

theorem traceLts_pruned : Pruned (convertLts aut o) (traceLts aut o) := by
  unfold traceLts
  split
  · exact illegalLivelockDeadlock_pruned _
  · refine removeIllegal_pruned (fun i hi => ?_) fun s e he => ?_
    · rw [convertLts_length] at hi
      rw [convertLts_state hi]
    · obtain ⟨d, hd, -, rfl⟩ := mem_convertLts_edges.1 he
      rw [convertLts_length]
      exact (aut.inRange d hd).2

end

/-! ## The traces of the pruned LTS -/

section
variable (aut : Aut) (o : TracesOptions)

/-- The LTS the traces are to be of: a state with an edge `<invariant>` has no others. -/
def prunedLts : Lts := prioritizeInvariant (traceLts aut o)

/-- An allowed end of the pruned LTS. -/
def AllowedEnd (s : Nat) : Prop :=
  s < (traceLts aut o).length ∧ allowedEnd o.ports o.providesIn (node (traceLts aut o) s) = true

/-- What trace generation should return. Every trace is that of a path of the pruned LTS to an allowed end, to
the deadlock that stands for an illegal, or to where no allowed end can be reached; and every edge of a reachable
state is on one of the paths, unless it is a self-loop. -/
structure CoversLts (traces : List GeneratedTrace) : Prop where
  path : ∀ t ∈ traces, t.labels = visibleLabels t.edges ∧
    ∃ s, Trace (prunedLts aut o) (prunedLts aut o).initial t.edges s ∧
      (AllowedEnd aut o s ∨ s = (traceLts aut o).length ∨
        ∀ p u, Trace (prunedLts aut o) s p u → ¬ AllowedEnd aut o u)
  edge : ∀ s, Reachable (prunedLts aut o) s → ∀ e ∈ (node (prunedLts aut o) s).edges, e.toState ≠ s →
    ∃ t ∈ traces, e ∈ t.edges

/-- A reachable state has an edge to it, other than a self-loop. -/
def Entered (u : Nat) : Prop := ∃ s, Reachable (prunedLts aut o) s ∧
  ∃ e ∈ (node (prunedLts aut o) s).edges, e.toState ≠ s ∧ e.toState = u

/-- The closing edges of the states that are entered are still there. -/
def Inside (lts : Lts) : Prop := ∀ u, Entered aut o u →
  ∀ e, closingEdge lts u = some e → e ∈ (node (prunedLts aut o) u).edges

/-- No edge that closes a trace, as the search backwards from the allowed ends found it, was pruned. -/
def ClosesInside : Prop :=
  ∀ lts, annotateClose o.ports o.providesIn (traceLts aut o) = some lts → Inside aut o lts

end

/-- The closing edges of a pruned LTS. -/
theorem annotateClose_traceLts (aut : Aut) (o : TracesOptions) :
    ∃ lts, annotateClose o.ports o.providesIn (traceLts aut o) = some lts ∧
      AnnotatesClose (setAllowedEnd o.ports o.providesIn (traceLts aut o)) lts := by
  have hp : Pruned (convertLts aut o) (traceLts aut o) := traceLts_pruned
  apply annotateClose_spec
  · intro i hi e he
    rw [setAllowedEnd, List.length_map] at hi
    rw [setAllowedEnd, node_map _ hi] at he
    have he : e ∈ (node (traceLts aut o) i).pred := he
    rw [hp.length, convertLts_length] at hi
    rw [hp.pred] at he
    obtain ⟨d, hd, hto, rfl⟩ := (mem_convertLts_pred hi).1 he
    refine ⟨hto, ?_⟩
    rw [setAllowedEnd, List.length_map, hp.length, convertLts_length]
    exact (aut.inRange d hd).1
  · intro i
    rw [hp.parent, convertLts_parent]

section
variable {aut : Aut} {o : TracesOptions} {lts : Lts}

theorem closingEdge_cases {i : Nat} {e : Edge String} (h : closingEdge lts i = some e) :
    (node lts i).illegalEdge.isSome ∨ (node lts i).color.isTrue = false ∧ (node lts i).parent = some e := by
  rw [closingEdge] at h
  split at h
  · cases h
  · cases hill : (node lts i).illegalEdge with
    | some d => exact .inl rfl
    | none =>
      simp only [hill, Option.orElse_eq_orElse, Option.orElse_eq_or, Option.or_none, Option.isNone_none,
        Bool.and_true] at h
      split at h
      · cases h
      · rename_i hnot
        exact .inr ⟨by simp_all, h⟩

theorem closingEdge_none {i : Nat} (h : closingEdge lts i = none) :
    i = lts.length ∨ (node lts i).color.isTrue = true ∨ (node lts i).parent = none := by
  rw [closingEdge] at h
  split at h
  · exact .inl ‹_›
  · refine .inr ?_
    cases hp : (node lts i).parent with
    | none => exact .inr rfl
    | some e => simp_all

/-- The vector that `annotate` leaves, and what it is made of. -/
structure Annotation (aut : Aut) (o : TracesOptions) (lts : Lts) : Prop where
  length : lts.length = (traceLts aut o).length
  edges : ∀ i, (node lts i).edges = (node (traceLts aut o) i).edges
  color : ∀ i, i < lts.length → ((node lts i).color.isTrue = true ↔ AllowedEnd aut o i)
  closed : ∀ i, Found lts i → Closed lts i
  sources : ∀ i, i < lts.length → Found lts i →
    ∀ e ∈ (node (traceLts aut o) i).pred, (node lts e.fromState).parent.isSome

theorem AnnotatesClose.annotation (h : AnnotatesClose (setAllowedEnd o.ports o.providesIn (traceLts aut o)) lts) :
    Annotation aut o lts := by
  have hlen : lts.length = (traceLts aut o).length := by
    rw [h.length, setAllowedEnd, List.length_map]
  have hnode : ∀ i, i < lts.length → node (setAllowedEnd o.ports o.providesIn (traceLts aut o)) i =
      { node (traceLts aut o) i with
        color := .flag (allowedEnd o.ports o.providesIn (node (traceLts aut o) i)) } := by
    intro i hi
    rw [setAllowedEnd, node_map _ (by omega)]
  refine ⟨hlen, fun i => ?_, fun i hi => ?_, h.closed, fun i hi hf e he => ?_⟩
  · by_cases hi : i < lts.length
    · rw [unclosed_edges (h.unclosed i), hnode i hi]
    · rw [node_of_le (by omega), node_of_le (by omega)]
  · rw [unclosed_color (h.unclosed i), hnode i hi]
    exact ⟨fun ha => ⟨by omega, ha⟩, fun ha => ha.2⟩
  · exact h.sources i (by rw [← h.length]; exact hi) hf e (by rw [hnode i hi]; exact he)

theorem Annotation.prune (h : Annotation aut o lts) (i : Nat) :
    (node (prioritizeInvariant lts) i).edges = (node (prunedLts aut o) i).edges := by
  rw [prunedLts, prioritizeInvariant_edges, prioritizeInvariant_edges, h.edges]

theorem Annotation.step (h : Annotation aut o lts) :
    Step (prioritizeInvariant lts) = Step (prunedLts aut o) := by
  funext s e t
  rw [Step, Step, h.prune]

theorem mem_prioritizeInvariantEdges {e : Edge String} {es : List (Edge String)}
    (h : e ∈ prioritizeInvariantEdges es) : e ∈ es := by
  unfold prioritizeInvariantEdges at h
  dsimp only at h
  split at h
  · exact h
  · exact (List.mem_filter.1 h).1

theorem mem_prunedLts {s : Nat} {e : Edge String} (h : e ∈ (node (prunedLts aut o) s).edges) :
    e ∈ (node (traceLts aut o) s).edges := by
  rw [prunedLts, prioritizeInvariant_edges] at h
  exact mem_prioritizeInvariantEdges h

theorem prunedLts_initial : (prunedLts aut o).initial = (traceLts aut o).initial := by
  apply initial_congr
  rw [prunedLts, prioritizeInvariant, List.map_map]
  rfl

/-- From a state that the search did not find no allowed end is reached. -/
theorem Annotation.not_allowed (h : Annotation aut o lts) {s t : Nat} {p : List (Edge String)}
    (hs : s = lts.length ∨ s < lts.length ∧ ¬ Found lts s) (hp : Trace (prunedLts aut o) s p t) :
    ¬ AllowedEnd aut o t := by
  have hpruned : Pruned (convertLts aut o) (traceLts aut o) := traceLts_pruned
  have ht : t = lts.length ∨ t < lts.length ∧ ¬ Found lts t := by
    refine hp.closed (P := fun s => s = lts.length ∨ s < lts.length ∧ ¬ Found lts s) ?_ hs
    rintro s e _ ⟨he, rfl⟩ hs
    have he := mem_prunedLts he
    rcases hs with rfl | ⟨hlt, hnot⟩
    · rw [node_of_le (by rw [h.length])] at he
      cases he
    · rcases hpruned.edge s e he with heq | he
      · exact .inl (heq.trans h.length.symm)
      · obtain ⟨d, hd, rfl, rfl⟩ := mem_convertLts_edges.1 he
        have hto : d.toState < aut.stateCount := (aut.inRange d hd).2
        have hlt' : d.toState < lts.length := by
          rw [h.length, hpruned.length, convertLts_length]
          exact hto
        refine .inr ⟨hlt', fun hf => hnot (.inr ?_)⟩
        -- it would have been found from the end of the edge
        exact h.sources d.toState hlt' hf (convertEdge o d)
          (by rw [hpruned.pred]; exact (mem_convertLts_pred hto).2 ⟨d, hd, rfl, rfl⟩)
  rintro ⟨hlt, ha⟩
  rcases ht with rfl | ⟨hlt', hnot⟩
  · rw [h.length] at hlt
    omega
  · exact hnot (.inl ((h.color t hlt').2 ⟨hlt, ha⟩))

theorem Annotation.illegalEdge (h : Annotation aut o lts) (i : Nat) :
    (node lts i).illegalEdge = (node (traceLts aut o) i).illegalEdge := by
  unfold Node.illegalEdge
  rw [h.edges]

theorem Entered.next {u : Nat} {e : Edge String} (h : Entered aut o u)
    (he : e ∈ (node (prunedLts aut o) u).edges) : Entered aut o e.toState := by
  by_cases hne : e.toState = u
  · rw [hne]
    exact h
  · obtain ⟨s, ⟨p, hp⟩, d, hd, -, rfl⟩ := h
    exact ⟨d.toState, ⟨p ++ [d], hp.snoc ⟨hd, rfl⟩⟩, e, he, hne, rfl⟩

/-- From a state with an edge `<illegal>` a trace is closed by one edge, to the deadlock. -/
theorem Annotation.closes_illegal (h : Annotation aut o lts) (hin : Inside aut o lts) {u : Nat}
    (hu : Entered aut o u) {e : Edge String} (hedge : closingEdge lts u = some e)
    (hill : (node lts u).illegalEdge.isSome) : Closes lts u [e] e.toState := by
  have hpruned : Pruned (convertLts aut o) (traceLts aut o) := traceLts_pruned
  have he := mem_prunedLts (hin u hu e hedge)
  rw [h.illegalEdge] at hill
  obtain ⟨s, -, d, hd, -, rfl⟩ := hu
  have hend : e.toState = lts.length := by
    rw [hpruned.illegal s d (mem_prunedLts hd) hill e he, h.length]
  exact .edge hedge (.done (by rw [closingEdge, if_pos hend]))

/-- Where all closing edges are still there, every trace can be closed. -/
theorem Annotation.closes (h : Annotation aut o lts) (hin : Inside aut o lts) {u : Nat}
    (hu : Entered aut o u) : ∃ c j, Closes lts u c j := by
  cases hedge : closingEdge lts u with
  | none => exact ⟨[], u, .done hedge⟩
  | some e =>
    rcases closingEdge_cases hedge with hill | ⟨-, hparent⟩
    · exact ⟨[e], e.toState, h.closes_illegal hin hu hedge hill⟩
    · -- along the edges of the search, which lead to an allowed end
      have hclosed := h.closed u (.inr (by rw [hparent]; rfl))
      clear hedge hparent
      induction hclosed with
      | @allowed i hcolor =>
        cases hedge : closingEdge lts i with
        | none => exact ⟨[], i, .done hedge⟩
        | some e =>
          rcases closingEdge_cases hedge with hill | ⟨hnot, -⟩
          · exact ⟨[e], e.toState, h.closes_illegal hin hu hedge hill⟩
          · rw [hcolor] at hnot
            cases hnot
      | @edge i e' he' _ ih =>
        cases hedge : closingEdge lts i with
        | none => exact ⟨[], i, .done hedge⟩
        | some e =>
          rcases closingEdge_cases hedge with hill | ⟨-, hparent⟩
          · exact ⟨[e], e.toState, h.closes_illegal hin hu hedge hill⟩
          · obtain rfl := Option.some.inj (hparent.symm.trans he')
            obtain ⟨c, j, hc⟩ := ih (hu.next (hin i hu e hedge))
            exact ⟨e :: c, j, .edge hedge hc⟩

theorem Closes.trace (hin : Inside aut o lts) {u j : Nat} {c : List (Edge String)} (h : Closes lts u c j)
    (hu : Entered aut o u) : Trace (prunedLts aut o) u c j ∧ Entered aut o j ∧ closingEdge lts j = none := by
  induction h with
  | done hnone => exact ⟨.nil _, hu, hnone⟩
  | @edge i j e c hedge _ ih =>
    have he := hin i hu e hedge
    obtain ⟨hwalk, hj⟩ := ih (hu.next he)
    exact ⟨.cons ⟨he, rfl⟩ hwalk, hj⟩

theorem Entered.le {u : Nat} (h : Entered aut o u) : u ≤ (traceLts aut o).length := by
  have hpruned : Pruned (convertLts aut o) (traceLts aut o) := traceLts_pruned
  obtain ⟨s, -, e, he, -, rfl⟩ := h
  rcases hpruned.edge s e (mem_prunedLts he) with heq | he
  · omega
  · obtain ⟨d, hd, -, rfl⟩ := mem_convertLts_edges.1 he
    rw [hpruned.length, convertLts_length]
    exact Nat.le_of_lt (aut.inRange d hd).2

/-- Where a trace stops. -/
theorem Annotation.stops (h : Annotation aut o lts) {j : Nat} (hj : Entered aut o j)
    (hnone : closingEdge lts j = none) : AllowedEnd aut o j ∨ j = (traceLts aut o).length ∨
      ∀ p u, Trace (prunedLts aut o) j p u → ¬ AllowedEnd aut o u := by
  rcases Nat.lt_or_eq_of_le hj.le with hlt | heq
  · rw [← h.length] at hlt
    by_cases hcolor : (node lts j).color.isTrue = true
    · exact .inl ((h.color j hlt).1 hcolor)
    · refine .inr (.inr fun p u hp => h.not_allowed (.inr ⟨hlt, ?_⟩) hp)
      rintro (hf | hf)
      · exact hcolor hf
      · rcases closingEdge_none hnone with heq | hc | hparent
        · omega
        · exact hcolor hc
        · rw [hparent] at hf
          cases hf
  · exact .inr (.inl heq)

/-- The walk starts with nothing done. -/
theorem undone_start : undone lts ⟨[], []⟩ < lts.length + 1 := by
  have := List.length_filter_le (fun i => decide (i ∉ (⟨[], []⟩ : Generated).done)) (List.range lts.length)
  rw [List.length_range] at this
  unfold undone
  omega

theorem ltsTraces_eq (hlts : annotateClose o.ports o.providesIn (traceLts aut o) = some lts) :
    ltsTraces aut o = (generateStep lts (lts.length + 1) (traceLts aut o).initial ⟨[], []⟩ ⟨[], []⟩).map
      fun r => r.2.traces.reverse := by
  unfold ltsTraces generateTraces
  simp only [hlts, Option.bind_eq_bind, Option.bind_some]
  cases generateStep lts (lts.length + 1) (traceLts aut o).initial ⟨[], []⟩ ⟨[], []⟩ <;> rfl

/-- What the walk through the pruned LTS has gone along. -/
theorem Annotation.covers (h : Annotation aut o lts) {r : Bool × Generated}
    (hr : generateStep lts (lts.length + 1) (traceLts aut o).initial ⟨[], []⟩ ⟨[], []⟩ = some r) :
    (∀ t ∈ r.2.traces, ∃ p v, ∃ e ∈ (node (prunedLts aut o) v).edges, e.toState ≠ v ∧
      Trace (prunedLts aut o) (prunedLts aut o).initial p v ∧ IsClosed lts e p t) ∧
    ∀ s, Reachable (prunedLts aut o) s → ∀ e ∈ (node (prunedLts aut o) s).edges, e.toState ≠ s →
      ∃ p, ∃ t ∈ r.2.traces, IsClosed lts e p t := by
  obtain ⟨hc, hdone⟩ := generateStep_covers (lts.length + 1) (traceLts aut o).initial [] ⟨[], []⟩ r (.nil _) hr
  have hedges := hc.edges
  have hclosed := hc.closed
  simp only [h.prune] at hedges hclosed
  unfold Trace at hclosed
  rw [h.step, ← prunedLts_initial] at hclosed
  refine ⟨fun t ht => (hclosed t ht).resolve_left (by simp), fun s hs e he hne => ?_⟩
  -- the states that are done are closed under the edges, up to the deadlock
  have hreach : s ∈ r.2.done ∨ lts.length ≤ s := by
    obtain ⟨p, hp⟩ := hs
    refine hp.closed (P := fun s => s ∈ r.2.done ∨ lts.length ≤ s) ?_ (by rw [prunedLts_initial]; exact hdone)
    rintro s d _ ⟨hd, rfl⟩ hs
    by_cases hloop : d.toState = s
    · rw [hloop]
      exact hs
    · rcases hs with hs | hs
      · exact (hedges s hs (by simp) d hd hloop).1
      · rw [← h.prune, prioritizeInvariant_edges, node_of_le hs] at hd
        cases hd
  rcases hreach with hs | hs
  · exact (hedges s hs (by simp) e he hne).2
  · rw [← h.prune, prioritizeInvariant_edges, node_of_le hs] at he
    cases he

/-- If no closing edge was pruned, the traces are those of the pruned LTS. -/
theorem ltsTraces_covers (hlts : annotateClose o.ports o.providesIn (traceLts aut o) = some lts)
    (h : Annotation aut o lts) (hin : Inside aut o lts) : ∃ ts, ltsTraces aut o = some ts ∧ CoversLts aut o ts := by
  have hclosable : Closable lts (traceLts aut o).initial := by
    intro p v hp e he hne
    rw [h.prune] at he
    unfold Trace at hp
    rw [h.step, ← prunedLts_initial] at hp
    exact h.closes hin ⟨v, ⟨p, hp⟩, e, he, hne, rfl⟩
  obtain ⟨r, hr⟩ := generateStep_some hclosable (lts.length + 1) (traceLts aut o).initial [] ⟨[], []⟩ (.nil _)
    undone_start
  have hr : generateStep lts (lts.length + 1) (traceLts aut o).initial ⟨[], []⟩ ⟨[], []⟩ = some r := hr
  obtain ⟨hpath, hedge⟩ := h.covers hr
  refine ⟨r.2.traces.reverse, by rw [ltsTraces_eq hlts, hr]; rfl, fun t ht => ?_, fun s hs e he hne => ?_⟩
  · obtain ⟨p, v, e, he, hne, hp, c, j, hc, rfl⟩ := hpath t (List.mem_reverse.1 ht)
    obtain ⟨hwalk, hj, hnone⟩ := hc.trace hin ⟨v, ⟨p, hp⟩, e, he, hne, rfl⟩
    exact ⟨rfl, j, hp.append (.cons ⟨he, rfl⟩ hwalk), h.stops hj hnone⟩
  · obtain ⟨p, t, ht, c, j, -, rfl⟩ := hedge s hs e he hne
    exact ⟨_, List.mem_reverse.2 ht, by simp [pathTrace]⟩

/-- A closing edge that was pruned is on a trace, or there are none. -/
theorem inside_of_covers (hlts : annotateClose o.ports o.providesIn (traceLts aut o) = some lts)
    (h : Annotation aut o lts) {ts : List GeneratedTrace} (hts : ltsTraces aut o = some ts)
    (hcovers : CoversLts aut o ts) : Inside aut o lts := by
  rw [ltsTraces_eq hlts] at hts
  obtain ⟨r, hr, rfl⟩ := Option.map_eq_some_iff.1 hts
  obtain ⟨-, hedge⟩ := h.covers hr
  rintro u ⟨s, hs, d, hd, hne, rfl⟩ e he
  obtain ⟨p, t, ht, c, j, hc, rfl⟩ := hedge s hs d hd hne
  obtain ⟨-, k, hwalk, -⟩ := hcovers.path _ (List.mem_reverse.2 ht)
  -- the trace goes along the edge into the state, and then along its closing edge
  cases hc with
  | done hnone =>
    rw [hnone] at he
    cases he
  | @edge _ _ e' c hsome _ =>
    obtain rfl := Option.some.inj (he.symm.trans hsome)
    obtain ⟨v, -, hwalk⟩ := Walk.of_append hwalk
    cases hwalk with
    | cons hd' hwalk =>
      obtain ⟨-, rfl⟩ := hd'
      cases hwalk with
      | cons he' _ => exact he'.1

end

/-- Trace generation ends with traces that cover the pruned LTS exactly if none of the edges that close them was
pruned. -/
theorem ltsTraces_covers_iff (aut : Aut) (o : TracesOptions) :
    (∃ ts, ltsTraces aut o = some ts ∧ CoversLts aut o ts) ↔ ClosesInside aut o := by
  obtain ⟨lts, hlts, hspec⟩ := annotateClose_traceLts aut o
  have h := hspec.annotation
  constructor
  · rintro ⟨ts, hts, hcovers⟩ lts' hlts'
    obtain rfl := Option.some.inj (hlts.symm.trans hlts')
    exact inside_of_covers hlts h hts hcovers
  · exact fun hin => ltsTraces_covers hlts h (hin lts hlts)

/-- `0 -r.a-> 1`, `1 -r.b-> 2`, and two edges from `2` to `3`, which make `2` an allowed end that is illegal. -/
def prunedCloseAut : Aut :=
  ⟨0, 4, [makeEdge 0 "r.a" 1 false, makeEdge 1 "r.b" 2 false, makeEdge 2 "p.e" 3 false,
    makeEdge 2 illegalLabel 3 false], Aut.four_pos, by decide⟩

def prunedCloseOptions : TracesOptions := ⟨false, false, false, "c", ["p'"], ["p.e"]⟩

example : (ltsTraces prunedCloseAut prunedCloseOptions).map (·.map GeneratedTrace.labels) =
    some [["r.a", "r.b", illegalLabel]] := by decide

/-- The edge to `2` is pruned, but the trace to `1` is closed along it. -/
theorem ltsTraces_prunedClose : ¬ ∃ ts, ltsTraces prunedCloseAut prunedCloseOptions = some ts ∧
    CoversLts prunedCloseAut prunedCloseOptions ts := by
  rintro ⟨ts, hts, hcovers⟩
  obtain ⟨lts, hlts, hspec⟩ := annotateClose_traceLts prunedCloseAut prunedCloseOptions
  have hin := inside_of_covers hlts hspec.annotation hts hcovers
  have hentered : Entered prunedCloseAut prunedCloseOptions 1 :=
    ⟨0, ⟨[], .nil 0⟩, makeEdge 0 "r.a" 1 false, by decide, by decide, rfl⟩
  have hedge : (annotateClose prunedCloseOptions.ports prunedCloseOptions.providesIn
      (traceLts prunedCloseAut prunedCloseOptions)).bind (closingEdge · 1) = some (makeEdge 1 "r.b" 2 false) := by
    decide
  rw [hlts] at hedge
  exact absurd (hin 1 hentered _ hedge) (by decide)

end Dezyne
