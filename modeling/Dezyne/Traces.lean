import Dezyne.Assert
/-!
# Trace generation

A trace goes along an edge that is new to a depth-first walk through the pruned
LTS, and is then closed: from there it follows the edges by which a search
backwards from the allowed ends found each state. That search goes over the
predecessors, which are those from before the pruning.
-/

namespace Dezyne

open Lts

/-! ## Preparing the LTS -/

/-- `string-split` -/
def stringSplit (s : String) (c : Char) : List String := (s.toList.splitOn c).map String.ofList

/-- The parameters of `lts->traces`. -/
structure TracesOptions where
  illegal : Bool
  flush : Bool
  interface : Bool
  model : String
  providesPorts : List String
  providesIn : List String

/-- `provides-ports` in `lts->traces` -/
def TracesOptions.ports (o : TracesOptions) : List String :=
  if o.interface then [o.model] else o.providesPorts

/-- `interface-port` of `convert-label` -/
def TracesOptions.interfacePort (o : TracesOptions) : Option String :=
  if o.interface then (stringSplit o.model '.').getLast? else none

/-- `convert-label` -/
def convertLabel (o : TracesOptions) (label : String) : String :=
  let label := if o.flush || !stringContains label flushLabel then label else tauLabel
  match stringSplit label '.' with
  | [port, event] =>
    if some port = o.interfacePort then event
    -- `%<flush>` is a variable of the pattern, so this is any event of the port
    else if port ∈ o.ports then tauLabel
    else label
  | _ => label

/-- `convert-edge` -/
def convertEdge (o : TracesOptions) (e : Edge String) : Edge String :=
  { e with label := convertLabel o e.label }

/-- `convert-node` -/
def convertNode (o : TracesOptions) (n : Node) : Node :=
  { n with pred := n.pred.map (convertEdge o), edges := n.edges.map (convertEdge o) }

/-- `illegal-node?` -/
def Node.illegalEdge (n : Node) : Option (Edge String) := n.edges.find? fun e => e.label = illegalLabel

/-- `illegal-node->deadlock` -/
def illegalNodeDeadlock (deadlock : Nat) (n : Node) : Node :=
  match n.illegalEdge, n.edges with
  | some _, edge :: _ => { n with edges := [{ edge with toState := deadlock }] }
  | _, _ => n

/-- `illegal-livelock->deadlock` -/
def illegalLivelockDeadlock (lts : Lts) : Lts := lts.map (illegalNodeDeadlock lts.length)

/-- The LTS with its labels converted, before the pruning. -/
def convertLts (aut : Aut) (o : TracesOptions) : Lts := (constructLtsPred aut).map (convertNode o)

/-- The LTS that `lts->traces` gives to `generate-traces`. -/
def traceLts (aut : Aut) (o : TracesOptions) : Lts :=
  if o.illegal then illegalLivelockDeadlock (convertLts aut o) else removeIllegal (convertLts aut o)

/-- `prioritize-invariant-edges` -/
def prioritizeInvariantEdges (edges : List (Edge String)) : List (Edge String) :=
  let invariant := edges.filter fun e => e.label = invariantLabel
  if invariant.isEmpty then edges else invariant

/-- `prioritize-invariant` -/
def prioritizeInvariant (lts : Lts) : Lts :=
  lts.map fun node => { node with edges := prioritizeInvariantEdges node.edges }

/-! ## The edges that close a trace -/

/-- `idle-node?` -/
def idleNode (providesPorts providesIn : List String) (n : Node) : Bool :=
  let labels := (n.edges.map Edge.label).filter (· ∈ providesIn)
  let ports := labels.map fun label => (stringSplit label '.').headD ""
  ports.dedup.length = providesPorts.length

/-- `allowed-end?` -/
def allowedEnd (providesPorts providesIn : List String) (n : Node) : Bool :=
  idleNode providesPorts providesIn n && !n.edges.any fun e => e.label ∈ [ackLabel, deferLabel]

/-- `set-allowed-end?` for all nodes. -/
def setAllowedEnd (providesPorts providesIn : List String) (lts : Lts) : Lts :=
  lts.map fun node => { node with color := .flag (allowedEnd providesPorts providesIn node) }

/-- The loop of `extend-frontier`, over the edges to a node. -/
def extendFrontier : List (Edge String) → Lts → Lts × List Nat
  | [], lts => (lts, [])
  | edge :: edges, lts =>
    if (node lts edge.fromState).parent.isSome then extendFrontier edges lts
    else
      let r := extendFrontier edges (lts.set edge.fromState { node lts edge.fromState with parent := some edge })
      (r.1, edge.fromState :: r.2)

/-- One step of the loop of `annotate`. -/
def annotateStep : Lts × List Nat → Option (Lts × List Nat)
  | (_, []) => none
  | (lts, index :: frontier) =>
    let r := extendFrontier (node lts index).pred lts
    some (r.1, frontier ++ r.2)

/-- `annotate`; every node gets into the frontier at most twice. -/
def annotateClose (providesPorts providesIn : List String) (lts : Lts) : Option Lts :=
  let lts := setAllowedEnd providesPorts providesIn lts
  let frontier := (List.range lts.length).filter fun i => (node lts i).color.isTrue
  (Loop.run annotateStep (2 * lts.length + 1) (lts, frontier)).map Prod.fst

/-- The edge `trace-close` takes, if it does not stop. -/
def closingEdge (lts : Lts) (index : Nat) : Option (Edge String) :=
  if index = lts.length then none
  else
    let node := node lts index
    let closeEdge := node.parent <|> node.illegalEdge
    if (node.color.isTrue || closeEdge.isNone) && node.illegalEdge.isNone then none else closeEdge

/-! ## Traces -/

/-- A trace: the labels, with the edges they come from. -/
structure GeneratedTrace where
  edges : List (Edge String)
  labels : List String
deriving DecidableEq

/-- `trace-extend` -/
def traceExtend (trace : GeneratedTrace) (edge : Edge String) : GeneratedTrace :=
  ⟨trace.edges ++ [edge],
    if edge.label ∈ [tauLabel, ackLabel] then trace.labels else trace.labels ++ [edge.label]⟩

/-- One step of `trace-close`. -/
def traceCloseStep (lts : Lts) : GeneratedTrace × Nat → Option (GeneratedTrace × Nat)
  | (trace, index) => (closingEdge lts index).map fun edge => (traceExtend trace edge, edge.toState)

/-- `trace-close`; it ends before a state comes twice, or never. -/
def traceClose (lts : Lts) (trace : GeneratedTrace) (index : Nat) : Option GeneratedTrace :=
  (Loop.run (traceCloseStep lts) (lts.length + 1) (trace, index)).map Prod.fst

/-- What `step` writes: the states that are done, and the traces, the last one first. -/
structure Generated where
  done : List Nat
  traces : List GeneratedTrace
deriving DecidableEq

/-- The trace is closed and logged, unless `step` generated one. -/
def logClosed (lts : Lts) (trace : GeneratedTrace) (edge : Edge String) (r : Bool × Generated) :
    Option Generated :=
  if r.1 then some r.2
  else
    (if edge.toState = lts.length then some trace else traceClose lts trace edge.toState).map fun closed =>
      { r.2 with traces := closed :: r.2.traces }

/-- The loop of `step`, for one edge. -/
def stepEdge (lts : Lts) (step : Nat → GeneratedTrace → Generated → Option (Bool × Generated)) (index : Nat)
    (trace : GeneratedTrace) (r : Bool × Generated) (edge : Edge String) : Option (Bool × Generated) :=
  if edge.toState = index then some r
  else do
    let trace := traceExtend trace edge
    let r ← step edge.toState trace r.2
    -- `step` is called again, after it is done with the state
    let r ← step edge.toState trace r.2
    let g ← logClosed lts trace edge r
    return (true, g)

/-- `step`; every call but the last adds a state to those that are done. -/
def generateStep (lts : Lts) : Nat → Nat → GeneratedTrace → Generated → Option (Bool × Generated)
  | 0, _, _, _ => none
  | fuel + 1, index, trace, g =>
    if index ∈ g.done ∨ lts.length ≤ index then some (false, g)
    else
      (prioritizeInvariantEdges (node lts index).edges).foldlM (stepEdge lts (generateStep lts fuel) index trace)
        (false, { g with done := index :: g.done })

/-- `generate-traces` -/
def generateTraces (initial : Nat) (lts : Lts) (providesPorts providesIn : List String) :
    Option (List GeneratedTrace) := do
  let lts ← annotateClose providesPorts providesIn lts
  let r ← generateStep lts (lts.length + 1) initial ⟨[], []⟩ ⟨[], []⟩
  return r.2.traces.reverse

/-- `lts->traces` -/
def ltsTraces (aut : Aut) (o : TracesOptions) : Option (List GeneratedTrace) :=
  let lts := traceLts aut o
  generateTraces lts.initial lts o.ports o.providesIn

/-! ## The search backwards -/

/-- A node but for the edge that closes it. -/
def Node.unclosed (n : Node) : Node := { n with parent := none }

/-- How many nodes no edge closes. -/
def unclosedCount (lts : Lts) : Nat := lts.countP fun n => n.parent.isNone

/-- An allowed end, or a state from which the search went on. -/
def Found (lts : Lts) (i : Nat) : Prop := (node lts i).color.isTrue ∨ (node lts i).parent.isSome

/-- The closing edges lead to an allowed end. -/
inductive Closed (lts : Lts) : Nat → Prop
  | allowed {i : Nat} : (node lts i).color.isTrue → Closed lts i
  | edge {i : Nat} {e : Edge String} : (node lts i).parent = some e → Closed lts e.toState → Closed lts i

/-- What the edges to one node add: a closing edge for the nodes that have none, which get into the frontier. -/
structure ExtendsFrontier (es : List (Edge String)) (lts : Lts) (r : Lts × List Nat) : Prop where
  length : r.1.length = lts.length
  unclosed : ∀ i, (node r.1 i).unclosed = (node lts i).unclosed
  kept : ∀ i, (node lts i).parent.isSome → (node r.1 i).parent = (node lts i).parent
  added : ∀ i, (node lts i).parent = none → (node r.1 i).parent.isSome →
    i ∈ r.2 ∧ ∃ e ∈ es, (node r.1 i).parent = some e
  sources : ∀ e ∈ es, (node r.1 e.fromState).parent.isSome
  frontier : ∀ i ∈ r.2, i < lts.length ∧ (node r.1 i).parent.isSome
  count : unclosedCount r.1 + r.2.length = unclosedCount lts

theorem unclosedCount_set {lts : Lts} {i : Nat} (h : i < lts.length) (hnone : (node lts i).parent = none)
    (e : Edge String) : unclosedCount (lts.set i { node lts i with parent := some e }) + 1 = unclosedCount lts := by
  have hi : lts[i].parent.isNone = true := by rw [← node_eq h, hnone]; rfl
  have hpos : 0 < lts.countP fun n => n.parent.isNone :=
    List.countP_pos_iff.2 ⟨lts[i], List.getElem_mem h, hi⟩
  unfold unclosedCount
  rw [List.countP_set h, if_pos hi]
  simp only [Option.isNone_some, Bool.false_eq_true, if_false]
  omega

theorem extendFrontier_spec (es : List (Edge String)) : ∀ lts : Lts, (∀ e ∈ es, e.fromState < lts.length) →
    ExtendsFrontier es lts (extendFrontier es lts) := by
  induction es with
  | nil =>
    intro lts _
    refine ⟨rfl, fun _ => rfl, fun _ _ => rfl, fun i hnone hsome => ?_, by simp, by simp [extendFrontier], rfl⟩
    rw [extendFrontier, hnone] at hsome
    cases hsome
  | cons e es ih =>
    intro lts hes
    have hfrom : e.fromState < lts.length := hes e (by simp)
    rw [extendFrontier]
    split
    · rename_i hsome
      have h := ih lts fun d hd => hes d (by simp [hd])
      refine ⟨h.length, h.unclosed, h.kept, fun i hnone hs => ?_, fun d hd => ?_, h.frontier, h.count⟩
      · obtain ⟨hmem, d, hd, heq⟩ := h.added i hnone hs
        exact ⟨hmem, d, by simp [hd], heq⟩
      · rcases List.mem_cons.1 hd with rfl | hd
        · rw [h.kept _ hsome]
          exact hsome
        · exact h.sources d hd
    · rename_i hnot
      have hnone : (node lts e.fromState).parent = none := by simpa using hnot
      -- the source has no parent yet: this edge closes it
      generalize hlts : lts.set e.fromState { node lts e.fromState with parent := some e } = lts'
      have hlen : lts'.length = lts.length := by rw [← hlts, List.length_set]
      have hself : node lts' e.fromState = { node lts e.fromState with parent := some e } := by
        rw [← hlts]
        exact node_set_self hfrom _
      have hother : ∀ i, e.fromState ≠ i → node lts' i = node lts i := by
        intro i hi
        rw [← hlts]
        exact node_set_ne hi _
      have h := ih lts' fun d hd => by
        rw [hlen]
        exact hes d (by simp [hd])
      have hparent : (node (extendFrontier es lts').1 e.fromState).parent = some e := by
        rw [h.kept _ (by rw [hself]; rfl), hself]
      refine ⟨h.length.trans hlen, fun i => ?_, fun i hs => ?_, fun i hn hs => ?_, fun d hd => ?_, fun i hi => ?_, ?_⟩
      · rw [h.unclosed]
        by_cases hi : e.fromState = i
        · rw [← hi, hself]
          rfl
        · rw [hother i hi]
      · have hi : e.fromState ≠ i := by
          rintro rfl
          rw [hnone] at hs
          cases hs
        rw [h.kept i (by rw [hother i hi]; exact hs), hother i hi]
      · by_cases hi : e.fromState = i
        · subst hi
          exact ⟨by simp, e, by simp, hparent⟩
        · obtain ⟨hmem, d, hd, heq⟩ := h.added i (by rw [hother i hi]; exact hn) hs
          exact ⟨by simp [hmem], d, by simp [hd], heq⟩
      · rcases List.mem_cons.1 hd with rfl | hd
        · rw [hparent]
          rfl
        · exact h.sources d hd
      · rcases List.mem_cons.1 hi with rfl | hi
        · exact ⟨hfrom, by rw [hparent]; rfl⟩
        · rw [← hlen]
          exact h.frontier i hi
      · have hcount := h.count
        have := unclosedCount_set hfrom hnone e
        rw [hlts] at this
        simp only [List.length_cons]
        omega

theorem unclosed_color {n n' : Node} (h : n.unclosed = n'.unclosed) : n.color = n'.color := by
  have : n.unclosed.color = n'.unclosed.color := by rw [h]
  exact this

theorem unclosed_pred {n n' : Node} (h : n.unclosed = n'.unclosed) : n.pred = n'.pred := by
  have : n.unclosed.pred = n'.unclosed.pred := by rw [h]
  exact this

theorem unclosed_edges {n n' : Node} (h : n.unclosed = n'.unclosed) : n.edges = n'.edges := by
  have : n.unclosed.edges = n'.unclosed.edges := by rw [h]
  exact this

/-- Closing edges are never replaced. -/
theorem Closed.mono {lts lts' : Lts} (hcolor : ∀ i, (node lts' i).color = (node lts i).color)
    (hkept : ∀ i, (node lts i).parent.isSome → (node lts' i).parent = (node lts i).parent) {i : Nat}
    (h : Closed lts i) : Closed lts' i := by
  induction h with
  | allowed h => exact .allowed (by rw [hcolor]; exact h)
  | @edge i e he _ ih => exact .edge (by rw [hkept i (by rw [he]; rfl), he]) ih

/-- What holds while the search goes on from a vector. -/
structure Searching (start : Lts) (s : Lts × List Nat) : Prop where
  length : s.1.length = start.length
  unclosed : ∀ i, (node s.1 i).unclosed = (node start i).unclosed
  frontier : ∀ i ∈ s.2, i < start.length ∧ Found s.1 i
  closed : ∀ i, Found s.1 i → Closed s.1 i
  sources : ∀ i, i < start.length → Found s.1 i →
    i ∈ s.2 ∨ ∀ e ∈ (node start i).pred, (node s.1 e.fromState).parent.isSome

/-- Every node has the edges to it. -/
def HasPred (lts : Lts) : Prop :=
  ∀ i, i < lts.length → ∀ e ∈ (node lts i).pred, e.toState = i ∧ e.fromState < lts.length

/-- One node of the frontier is searched. -/
theorem annotateStep_searching {start : Lts} (hpred : HasPred start) (s s' : Lts × List Nat)
    (hs : Searching start s) (h : annotateStep s = some s') :
    Searching start s' ∧ unclosedCount s'.1 + s'.2.length < unclosedCount s.1 + s.2.length := by
  obtain ⟨lts, frontier⟩ := s
  match frontier with
  | [] => cases h
  | index :: frontier =>
    obtain rfl := Option.some.inj h
    obtain ⟨hindex, hfound⟩ := hs.frontier index (by simp)
    have heq : (node lts index).pred = (node start index).pred := unclosed_pred (hs.unclosed index)
    have hx := extendFrontier_spec (node lts index).pred lts fun e he => by
      rw [hs.length]
      exact (hpred index hindex e (by rwa [← heq])).2
    generalize extendFrontier (node lts index).pred lts = r at hx
    have hcolor : ∀ i, (node r.1 i).color = (node lts i).color := fun i => unclosed_color (hx.unclosed i)
    have hclosed : Closed r.1 index := (hs.closed index hfound).mono hcolor hx.kept
    -- what was found stays found
    have hold : ∀ i, Found lts i → Found r.1 i := by
      rintro i (hi | hi)
      · exact .inl (by rw [hcolor]; exact hi)
      · exact .inr (by rw [hx.kept i hi]; exact hi)
    -- a node that was not found before has a closing edge to the node that is searched
    have hnew : ∀ i, Found r.1 i → ¬ Found lts i → i ∈ r.2 ∧ Closed r.1 i := by
      intro i hi hnot
      have hnone : (node lts i).parent = none := by
        simpa using fun h => hnot (.inr h)
      have hsome : (node r.1 i).parent.isSome := by
        rcases hi with hi | hi
        · exact absurd (.inl (by rw [← hcolor]; exact hi)) hnot
        · exact hi
      obtain ⟨hmem, e, he, hparent⟩ := hx.added i hnone hsome
      have htarget := (hpred index hindex e (by rwa [← heq])).1
      exact ⟨hmem, .edge hparent (by rw [htarget]; exact hclosed)⟩
    refine ⟨⟨hx.length.trans hs.length, fun i => (hx.unclosed i).trans (hs.unclosed i), fun i hi => ?_,
      fun i hi => ?_, fun i hlt hi => ?_⟩, ?_⟩
    · rcases List.mem_append.1 hi with hi | hi
      · obtain ⟨hlt, hf⟩ := hs.frontier i (by simp [hi])
        exact ⟨hlt, hold i hf⟩
      · obtain ⟨hlt, hf⟩ := hx.frontier i hi
        exact ⟨by rw [← hs.length]; exact hlt, .inr hf⟩
    · by_cases hf : Found lts i
      · exact (hs.closed i hf).mono hcolor hx.kept
      · exact (hnew i hi hf).2
    · by_cases hf : Found lts i
      · rcases hs.sources i hlt hf with hmem | hsrc
        · rcases List.mem_cons.1 hmem with rfl | hmem
          · exact .inr fun e he => hx.sources e (by rwa [heq])
          · exact .inl (List.mem_append.2 (.inl hmem))
        · refine .inr fun e he => ?_
          have := hsrc e he
          rw [hx.kept _ this]
          exact this
      · exact .inl (List.mem_append.2 (.inr (hnew i hi hf).1))
    · have := hx.count
      simp only [List.length_append, List.length_cons]
      omega

/-- What `annotate` does: all states from which a walk over the predecessors leads to an allowed end get an
edge that closes them. -/
structure AnnotatesClose (start lts : Lts) : Prop where
  length : lts.length = start.length
  unclosed : ∀ i, (node lts i).unclosed = (node start i).unclosed
  closed : ∀ i, Found lts i → Closed lts i
  sources : ∀ i, i < start.length → Found lts i → ∀ e ∈ (node start i).pred, (node lts e.fromState).parent.isSome

theorem annotateClose_spec {providesPorts providesIn : List String} {lts : Lts}
    (hpred : HasPred (setAllowedEnd providesPorts providesIn lts)) (hnone : ∀ i, (node lts i).parent = none) :
    ∃ lts', annotateClose providesPorts providesIn lts = some lts' ∧
      AnnotatesClose (setAllowedEnd providesPorts providesIn lts) lts' := by
  have hlen : (setAllowedEnd providesPorts providesIn lts).length = lts.length := List.length_map _
  have hparent : ∀ i, (node (setAllowedEnd providesPorts providesIn lts) i).parent = none := by
    intro i
    by_cases hi : i < lts.length
    · rw [setAllowedEnd, node_map _ hi]
      exact hnone i
    · rw [node, List.getElem?_eq_none (by omega)]
      rfl
  have hcolor : ∀ i, Found (setAllowedEnd providesPorts providesIn lts) i →
      (node (setAllowedEnd providesPorts providesIn lts) i).color.isTrue = true := by
    rintro i (hi | hi)
    · exact hi
    · rw [hparent] at hi
      cases hi
  unfold annotateClose
  generalize setAllowedEnd providesPorts providesIn lts = start at hpred hlen hparent hcolor
  have hmem : ∀ i, i ∈ (List.range start.length).filter (fun i => (node start i).color.isTrue) ↔
      i < start.length ∧ (node start i).color.isTrue = true := by simp
  have hstart : Searching start (start, (List.range start.length).filter fun i => (node start i).color.isTrue) := by
    refine ⟨rfl, fun _ => rfl, fun i hi => ?_, fun i hi => .allowed (hcolor i hi), fun i hlt hi => ?_⟩
    · exact ⟨((hmem i).1 hi).1, .inl ((hmem i).1 hi).2⟩
    · exact .inl ((hmem i).2 ⟨hlt, hcolor i hi⟩)
  have hfuel : unclosedCount start + ((List.range start.length).filter fun i => (node start i).color.isTrue).length <
      2 * start.length + 1 := by
    have h1 : unclosedCount start ≤ start.length := List.countP_le_length
    have h2 := List.length_filter_le (fun i => (node start i).color.isTrue) (List.range start.length)
    rw [List.length_range] at h2
    omega
  obtain ⟨⟨lts', frontier⟩, hrun, hs, hend⟩ := Loop.run_ends
    (fun s : Lts × List Nat => unclosedCount s.1 + s.2.length) (annotateStep_searching hpred) hstart hfuel
  cases frontier with
  | cons => cases hend
  | nil =>
    refine ⟨lts', by simp only [hrun, Option.map_some], hs.length, hs.unclosed, hs.closed, fun i hlt hi => ?_⟩
    rcases hs.sources i hlt hi with hmem | hsrc
    · cases hmem
    · exact hsrc

end Dezyne
