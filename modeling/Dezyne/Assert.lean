import Dezyne.Construct
/-!
# Illegal, deadlock and nondeterminism

Each check filters the nodes, sorted by their distance, and gives a trace to
the first one left. As all distances are those of shortest walks, no other node
that the check is after is nearer.
-/

namespace Dezyne

open Lts

/-! ## Excluded nodes -/

/-- `exclude-label`: the first label of an edge that is to be excluded. -/
def excludeLabel (excludes : List String) (node : Node) : Node :=
  { node with
    color := match (node.edges.map Edge.label).find? (· ∈ excludes) with
      | some l => .label l
      | none => .flag false }

/-- `annotate-exclude`; each node is also written back into the vector that is mapped, at its own state. -/
def annotateExclude (lts : Lts) (excludes : List String) : Lts :=
  ((List.range lts.length).foldl (fun (r : Lts × Lts) i =>
    let node := excludeLabel excludes (node r.1 i)
    (r.1.set node.state node, r.2 ++ [node])) (lts, [])).2

/-- `node-exclude?` -/
def Node.exclude (node : Node) : Bool := node.color.isTrue

/-- `remove-illegal` -/
def removeIllegal (lts : Lts) : Lts :=
  let lts := annotateExclude lts [declarativeIllegal, illegalLabel]
  lts.map fun n => { n with edges := n.edges.filter fun e => !(node lts e.toState).exclude }

/-! ## The checks -/

/-- `deadlock-nodes` -/
def deadlockNodes (lts : Lts) : List Nat :=
  let lts := annotateExclude (removeStateLoops lts) [declarativeIllegal]
  ((iotaDistanceSorted lts).filter fun s => !(node lts s).exclude).filter fun s =>
    !(node lts s).edges.any fun e => !(node lts e.toState).exclude

/-- The trace to the first of some nodes. -/
def traceToFirst (lts : Lts) : List Nat → Option (Option (List (Edge String)))
  | [] => some none
  | s :: _ => (trace lts s).map some

/-- `assert-deadlock` -/
def assertDeadlock (lts : Lts) : Option (Option (List (Edge String))) := traceToFirst lts (deadlockNodes lts)

/-- `illegal-nodes` -/
def illegalNodes (lts : Lts) : List Nat :=
  (iotaDistanceSorted lts).filter fun s => illegalLabel ∈ (node lts s).edges.map Edge.label

/-- `assert-illegal` -/
def assertIllegal (lts : Lts) : Option (Option (List (Edge String))) := traceToFirst lts (illegalNodes lts)

/-- The first of some edges that has the canonical label of the one after it. -/
def repeated : List (Edge String) → Option (Edge String)
  | e :: e' :: es => if e.canonicalLabel = e'.canonicalLabel then some e else repeated (e' :: es)
  | _ => none

/-- What `nondeterministic?` colors a state with. -/
def nondeterministicColor (labels : List String) (n : Node) : Option (Edge String) :=
  repeated (n.edges.filter fun e => e.canonicalLabel ∈ labels)

/-- `nondeterministic-nodes`, which colors the nodes it keeps. -/
def nondeterministicNodes (lts : Lts) (labels : List String) : List Nat × Lts :=
  (iotaDistanceSorted lts).foldl (fun r state =>
    match nondeterministicColor labels (node r.2 state) with
    | none => r
    | some e => (r.1 ++ [state], r.2.set state { node r.2 state with color := .edge e })) ([], lts)

/-- `node-nondet-witness` -/
def Node.witness (n : Node) : Option (Edge String) :=
  match n.color with
  | .edge e => some e
  | _ => none

/-- `assert-nondeterministic` -/
def assertNondeterministic (lts : Lts) (labels : List String) : Option (Option (List (Edge String))) :=
  match nondeterministicNodes lts labels with
  | ([], _) => some none
  | (s :: _, lts) => do
    let e ← (node lts s).witness
    let p ← trace lts s
    return some (p ++ if e.canonicalLabel = stateLabel then [] else [e])

/-! ## Which nodes are wrong -/

section
variable (lts : Lts) (s : Nat)

/-- Has an edge `<illegal>`. -/
def IsIllegal : Prop := ∃ e ∈ (node lts s).edges, e.label = illegalLabel

/-- Has an edge `<declarative-illegal>`. -/
def IsExcluded : Prop := ∃ e ∈ (node lts s).edges, e.label = declarativeIllegal

/-- No edge is left without the state self-loops and the edges to excluded nodes. -/
def IsDeadlock : Prop := ¬ IsExcluded lts s ∧
  ∀ e ∈ (node lts s).edges, e.stateLoop = true ∨ IsExcluded lts e.toState

/-- Two edges have one canonical label, of those given. -/
def IsNondeterministic (labels : List String) : Prop := ∃ e e' : Edge String,
  [e, e'].Sublist (node lts s).edges ∧ e.canonicalLabel = e'.canonicalLabel ∧ e.canonicalLabel ∈ labels

end

/-! ## The nearest node -/

section
variable {lts : Lts} {s : Nat} {P : Nat → Bool}

theorem mem_iotaDistanceSorted : s ∈ iotaDistanceSorted lts ↔ s < lts.length := by
  rw [iotaDistanceSorted, (perm_sortBy _ _).mem_iff, List.mem_range]

theorem pairwise_iotaDistanceSorted :
    (iotaDistanceSorted lts).Pairwise fun a b => (node lts a).distance ≤ (node lts b).distance :=
  pairwise_sortBy (fun a => (node lts a).distance) _

theorem filter_iotaDistanceSorted_nil :
    (iotaDistanceSorted lts).filter P = [] ↔ ∀ s, s < lts.length → P s = false := by
  rw [List.filter_eq_nil_iff]
  constructor
  · intro h s hs
    simpa using h s (mem_iotaDistanceSorted.2 hs)
  · intro h s hs
    simp [h s (mem_iotaDistanceSorted.1 hs)]

theorem filter_iotaDistanceSorted_cons {rest : List Nat} (h : (iotaDistanceSorted lts).filter P = s :: rest) :
    s < lts.length ∧ P s = true ∧
      ∀ t, t < lts.length → P t = true → (node lts s).distance ≤ (node lts t).distance := by
  have hs : s ∈ (iotaDistanceSorted lts).filter P := by simp [h]
  obtain ⟨hmem, hP⟩ := List.mem_filter.1 hs
  refine ⟨mem_iotaDistanceSorted.1 hmem, hP, fun t ht hPt => ?_⟩
  have hsorted := pairwise_iotaDistanceSorted.filter P (l := iotaDistanceSorted lts)
  have ht : t ∈ (iotaDistanceSorted lts).filter P := List.mem_filter.2 ⟨mem_iotaDistanceSorted.2 ht, hPt⟩
  rw [h] at hsorted ht
  rcases List.mem_cons.1 ht with rfl | ht
  · exact Int.le_refl _
  · exact (List.pairwise_cons.1 hsorted).1 t ht

end

/-- What a check that looks for the nodes `P` should return: nothing if there is none, and else a walk to
one, as short as that to any other. -/
def Reports (lts : Lts) (P : Nat → Prop) : Option (List (Edge String)) → Prop
  | none => ∀ s, s < lts.length → ¬ P s
  | some p => ∃ s, s < lts.length ∧ P s ∧ Trace lts lts.initial p s ∧
    ∀ t q, t < lts.length → P t → Trace lts lts.initial q t → p.length ≤ q.length

section
variable {lts : Lts} {P : Nat → Bool}

/-- The trace to the nearest node. -/
theorem trace_nearest (ha : Annotated (Step lts) lts) (hr : ∀ s, s < lts.length → Reachable lts s) {s : Nat}
    (hs : s < lts.length)
    (hmin : ∀ t, t < lts.length → P t = true → (node lts s).distance ≤ (node lts t).distance) :
    ∃ p, trace lts s = some p ∧ Trace lts lts.initial p s ∧
      ∀ t q, t < lts.length → P t = true → Trace lts lts.initial q t → p.length ≤ q.length := by
  obtain ⟨w, hw⟩ := hr s hs
  obtain ⟨p, hp, hwalk, hlen⟩ := trace_walk ha (ha.shortest w s hw).1
  refine ⟨p, hp, hwalk, fun t q ht hPt hq => ?_⟩
  have := hmin t ht hPt
  have := (ha.shortest q t hq).2
  omega

theorem traceToFirst_reports (ha : Annotated (Step lts) lts) (hr : ∀ s, s < lts.length → Reachable lts s) :
    ∃ r, traceToFirst lts ((iotaDistanceSorted lts).filter P) = some r ∧ Reports lts (fun s => P s = true) r := by
  cases hl : (iotaDistanceSorted lts).filter P with
  | nil =>
    refine ⟨none, rfl, fun s hs => ?_⟩
    simp [filter_iotaDistanceSorted_nil.1 hl s hs]
  | cons s rest =>
    obtain ⟨hs, hP, hmin⟩ := filter_iotaDistanceSorted_cons hl
    obtain ⟨p, hp, hwalk, hshort⟩ := trace_nearest ha hr hs hmin
    exact ⟨some p, by rw [traceToFirst, hp]; rfl, s, hs, hP, hwalk, hshort⟩

theorem Reports.congr {P Q : Nat → Prop} (h : ∀ s, s < lts.length → (P s ↔ Q s))
    {r : Option (List (Edge String))} (hr : Reports lts P r) : Reports lts Q r := by
  cases r with
  | none => exact fun s hs hQ => hr s hs ((h s hs).2 hQ)
  | some p =>
    obtain ⟨s, hs, hP, hwalk, hmin⟩ := hr
    exact ⟨s, hs, (h s hs).1 hP, hwalk, fun t q ht hQ => hmin t q ht ((h t ht).2 hQ)⟩

end

/-! ## Excluding nodes -/

section
variable {lts : Lts} {excludes : List String}

/-- No node is written over one that is still to be mapped. -/
theorem annotateExclude_eq (h : ∀ i, i < lts.length → (node lts i).state ≤ i) :
    annotateExclude lts excludes = lts.map (excludeLabel excludes) := by
  have hfold : ∀ k, k ≤ lts.length →
      ∃ v : Lts, (List.range k).foldl (fun (r : Lts × Lts) i =>
        let node := excludeLabel excludes (node r.1 i)
        (r.1.set node.state node, r.2 ++ [node])) (lts, []) = (v, (lts.take k).map (excludeLabel excludes)) ∧
        ∀ j, k ≤ j → node v j = node lts j := by
    intro k
    induction k with
    | zero => intro _; exact ⟨lts, rfl, fun _ _ => rfl⟩
    | succ k ih =>
      intro hk
      obtain ⟨v, hv, hj⟩ := ih (by omega)
      have hnode : node v k = lts[k] := by rw [hj k (Nat.le_refl k), node_eq (by omega)]
      have hstate := h k (by omega)
      rw [node_eq (by omega)] at hstate
      refine ⟨v.set lts[k].state (excludeLabel excludes lts[k]), ?_, fun j hkj => ?_⟩
      · rw [List.range_succ, List.foldl_append, hv]
        simp only [List.foldl_cons, List.foldl_nil, hnode]
        rw [List.take_succ_eq_append_getElem (by omega), List.map_append]
        rfl
      · rw [node_set_ne (by omega), hj j (by omega)]
  obtain ⟨v, hv, -⟩ := hfold lts.length (Nat.le_refl _)
  rw [annotateExclude, hv, List.take_length]

theorem exclude_excludeLabel (n : Node) :
    (excludeLabel excludes n).exclude = true ↔ ∃ e ∈ n.edges, e.label ∈ excludes := by
  rw [Node.exclude, excludeLabel]
  cases hfind : (n.edges.map Edge.label).find? (· ∈ excludes) with
  | none =>
    rw [List.find?_eq_none] at hfind
    constructor
    · intro h
      cases h
    · rintro ⟨e, he, hl⟩
      exact absurd hl (by simpa using hfind e.label (List.mem_map_of_mem he))
  | some l =>
    refine ⟨fun _ => ?_, fun _ => rfl⟩
    obtain ⟨e, he, rfl⟩ := List.mem_map.1 (List.mem_of_find?_eq_some hfind)
    exact ⟨e, he, by simpa using List.find?_some hfind⟩

/-- The edges `deadlock-nodes` looks at. -/
theorem mem_removeStateLoops {s : Nat} {e : Edge String} :
    e ∈ (node (removeStateLoops lts) s).edges ↔ e ∈ (node lts s).edges ∧ e.stateLoop = false := by
  by_cases hs : s < lts.length
  · rw [removeStateLoops, node_map _ hs]
    simp [List.mem_filter]
  · rw [node_of_le (by rw [removeStateLoops, List.length_map]; omega), node_of_le (by omega)]
    simp

theorem isExcluded_removeStateLoops {s : Nat} : IsExcluded (removeStateLoops lts) s ↔ IsExcluded lts s := by
  constructor
  · rintro ⟨e, he, hl⟩
    exact ⟨e, (mem_removeStateLoops.1 he).1, hl⟩
  · rintro ⟨e, he, hl⟩
    have hloop : stringContains declarativeIllegal stateLabel = false := by decide
    exact ⟨e, mem_removeStateLoops.2 ⟨he, by rw [Edge.stateLoop, hl, hloop]; rfl⟩, hl⟩

end

/-! ## The three checks -/

section
variable {lts : Lts}

theorem illegalNodes_iff {s : Nat} :
    decide (illegalLabel ∈ (node lts s).edges.map Edge.label) = true ↔ IsIllegal lts s := by
  rw [decide_eq_true_eq, List.mem_map]
  rfl

theorem iotaDistanceSorted_congr {lts' : Lts} (hlen : lts'.length = lts.length)
    (h : ∀ i, (node lts' i).distance = (node lts i).distance) : iotaDistanceSorted lts' = iotaDistanceSorted lts := by
  rw [iotaDistanceSorted, iotaDistanceSorted, hlen]
  congr 1
  funext a b
  rw [h, h]

/-- The nodes of `deadlock-nodes`. -/
theorem deadlockNodes_eq (hstate : ∀ i, i < lts.length → (node lts i).state ≤ i)
    (hto : ∀ s, ∀ e ∈ (node lts s).edges, e.toState < lts.length) :
    ∃ P : Nat → Bool, deadlockNodes lts = (iotaDistanceSorted lts).filter P ∧
      ∀ s, s < lts.length → (P s = true ↔ IsDeadlock lts s) := by
  have hlen : (removeStateLoops lts).length = lts.length := List.length_map _
  have hann : annotateExclude (removeStateLoops lts) [declarativeIllegal] =
      (removeStateLoops lts).map (excludeLabel [declarativeIllegal]) := by
    apply annotateExclude_eq
    intro i hi
    rw [hlen] at hi
    rw [removeStateLoops, node_map _ hi]
    exact hstate i hi
  generalize hx : annotateExclude (removeStateLoops lts) [declarativeIllegal] = lts' at hann
  have hlen' : lts'.length = lts.length := by rw [hann, List.length_map, hlen]
  have hnode : ∀ i, i < lts.length →
      node lts' i = excludeLabel [declarativeIllegal] (node (removeStateLoops lts) i) := by
    intro i hi
    rw [hann, node_map _ (by rw [hlen]; exact hi)]
  have hdist : ∀ i, (node lts' i).distance = (node lts i).distance := by
    intro i
    by_cases hi : i < lts.length
    · rw [hnode i hi, removeStateLoops, node_map _ hi]
      rfl
    · rw [node, node, List.getElem?_eq_none (by omega), List.getElem?_eq_none (by omega)]
  have hexclude : ∀ i, i < lts.length → ((node lts' i).exclude = true ↔ IsExcluded lts i) := by
    intro i hi
    rw [hnode i hi, exclude_excludeLabel, ← isExcluded_removeStateLoops, IsExcluded]
    simp
  refine ⟨fun s => !(node lts' s).edges.any (fun e => !(node lts' e.toState).exclude) && !(node lts' s).exclude,
    ?_, fun s hs => ?_⟩
  · rw [deadlockNodes, hx, List.filter_filter, iotaDistanceSorted_congr hlen' hdist]
  · have hedges : (node lts' s).edges = (node (removeStateLoops lts) s).edges := by
      rw [hnode s hs]
      rfl
    have hany : (node lts' s).edges.any (fun e => !(node lts' e.toState).exclude) = false ↔
        ∀ e ∈ (node lts s).edges, e.stateLoop = true ∨ IsExcluded lts e.toState := by
      rw [hedges, List.any_eq_false]
      constructor
      · intro h e he
        by_cases hl : e.stateLoop = true
        · exact .inl hl
        · have := h e (mem_removeStateLoops.2 ⟨he, by simpa using hl⟩)
          exact .inr ((hexclude _ (hto s e he)).1 (by simpa using this))
      · intro h e he
        obtain ⟨he, hl⟩ := mem_removeStateLoops.1 he
        rcases h e he with h | h
        · rw [hl] at h
          cases h
        · simp [(hexclude _ (hto s e he)).2 h]
    rw [Bool.and_eq_true, Bool.not_eq_true', Bool.not_eq_true', hany, IsDeadlock, ← hexclude s hs, Bool.not_eq_true]
    exact and_comm

/-- Edges of one canonical label are next to each other, when sorted. -/
theorem repeated_eq_none {es : List (Edge String)}
    (hs : es.Pairwise fun a b => a.canonicalLabel ≤ b.canonicalLabel) :
    repeated es = none ↔ ∀ e e', [e, e'].Sublist es → e.canonicalLabel ≠ e'.canonicalLabel := by
  fun_induction repeated es with
  | case1 e e' es heq =>
    simp only [reduceCtorEq, false_iff, not_forall]
    exact ⟨e, e', by simp, fun h => h heq⟩
  | case2 e e' es hne ih =>
    rw [ih (List.pairwise_cons.1 hs).2]
    constructor
    · intro h a b hab
      rcases List.sublist_cons_iff.1 hab with hab | ⟨r, hr, hsub⟩
      · exact h a b hab
      · -- the first edge: what comes after the next is not smaller than it
        obtain ⟨rfl, rfl⟩ := List.cons.inj hr
        have hb := List.singleton_sublist.1 hsub
        obtain ⟨hle, hs⟩ := List.pairwise_cons.1 hs
        rcases List.mem_cons.1 hb with rfl | hb
        · exact hne
        · have h1 := hle e' (by simp)
          have h2 := (List.pairwise_cons.1 hs).1 b hb
          intro heq
          exact hne (le_antisymm h1 (heq ▸ h2))
    · intro h a b hab
      exact h a b (hab.cons _)
  | case3 es hes =>
    simp only [true_iff]
    intro e e' hsub
    match es, hes, hsub with
    | [], _, hsub => cases hsub
    | [_], _, hsub => have := hsub.length_le; simp at this
    | a :: b :: l, hes, _ => exact absurd rfl (hes a b l)

theorem repeated_eq_some {es : List (Edge String)} {e : Edge String} (h : repeated es = some e) :
    ∃ e', [e, e'].Sublist es ∧ e.canonicalLabel = e'.canonicalLabel := by
  fun_induction repeated es with
  | case1 a b es heq =>
    obtain rfl := Option.some.inj h
    exact ⟨b, by simp, heq⟩
  | case2 a b es _ ih =>
    obtain ⟨e', hsub, heq⟩ := ih h
    exact ⟨e', hsub.cons _, heq⟩
  | case3 => cases h

/-- A node but for its color. -/
def Node.uncolored (n : Node) : Node := { n with color := .white }

/-- Coloring the nodes that are kept changes nothing else. -/
theorem nondeterministic_foldl (labels : List String) (l : List Nat) (hl : ∀ s ∈ l, s < lts.length) :
    ∀ r : List Nat × Lts, r.2.length = lts.length → (∀ i, (node r.2 i).uncolored = (node lts i).uncolored) →
      (∀ s ∈ r.1, (node r.2 s).witness.isSome ∧ (node r.2 s).witness = nondeterministicColor labels (node lts s)) →
      ∃ lts' : Lts, l.foldl (fun r state => match nondeterministicColor labels (node r.2 state) with
          | none => r
          | some e => (r.1 ++ [state], r.2.set state { node r.2 state with color := .edge e })) r =
        (r.1 ++ l.filter (fun s => (nondeterministicColor labels (node lts s)).isSome), lts') ∧
        (∀ i, (node lts' i).uncolored = (node lts i).uncolored) ∧
        ∀ s ∈ r.1 ++ l.filter (fun s => (nondeterministicColor labels (node lts s)).isSome),
          (node lts' s).witness = nondeterministicColor labels (node lts s) := by
  induction l with
  | nil =>
    intro r _ hcol hwit
    exact ⟨r.2, by simp, hcol, fun s hs => (hwit s (by simpa using hs)).2⟩
  | cons s l ih =>
    intro r hlen hcol hwit
    have hs : s < lts.length := hl s (by simp)
    have hedges : ∀ i, (node r.2 i).edges = (node lts i).edges := by
      intro i
      have : (node r.2 i).uncolored.edges = (node lts i).uncolored.edges := by rw [hcol]
      exact this
    -- the color is found from the edges, and coloring keeps these
    have hsame : nondeterministicColor labels (node r.2 s) = nondeterministicColor labels (node lts s) := by
      rw [nondeterministicColor, hedges, ← nondeterministicColor]
    have hl' : ∀ t ∈ l, t < lts.length := fun t ht => hl t (by simp [ht])
    rw [List.foldl_cons, hsame, List.filter_cons]
    cases hc : nondeterministicColor labels (node lts s) with
    | none =>
      simp only [Option.isSome_none, Bool.false_eq_true, if_false]
      exact ih hl' r hlen hcol hwit
    | some e =>
      have hself : node (r.2.set s { node r.2 s with color := .edge e }) s = { node r.2 s with color := .edge e } :=
        node_set_self (by rw [hlen]; exact hs) _
      obtain ⟨lts', heq, hcol', hwit'⟩ := ih hl' (r.1 ++ [s], r.2.set s { node r.2 s with color := .edge e })
        (by rw [List.length_set, hlen])
        (by
          intro i
          by_cases hi : s = i
          · subst hi
            rw [hself, ← hcol s]
            rfl
          · rw [node_set_ne hi, hcol])
        (by
          intro t ht
          by_cases hst : s = t
          · subst hst
            rw [hself, hc]
            exact ⟨rfl, rfl⟩
          · rw [node_set_ne hst]
            rcases List.mem_append.1 ht with ht | ht
            · exact hwit t ht
            · exact absurd (List.mem_singleton.1 ht).symm hst)
      simp only [Option.isSome_some, if_true]
      have happ : ∀ rest : List Nat, r.1 ++ [s] ++ rest = r.1 ++ s :: rest := fun rest => by simp
      rw [happ] at heq hwit'
      exact ⟨lts', heq, hcol', hwit'⟩

theorem nondeterministicNodes_eq (lts : Lts) (labels : List String) :
    ∃ lts' : Lts, nondeterministicNodes lts labels =
      ((iotaDistanceSorted lts).filter fun s => (nondeterministicColor labels (node lts s)).isSome, lts') ∧
      (∀ s, trace lts' s = trace lts s) ∧
      ∀ s ∈ (iotaDistanceSorted lts).filter fun s => (nondeterministicColor labels (node lts s)).isSome,
        (node lts' s).witness = nondeterministicColor labels (node lts s) := by
  obtain ⟨lts', heq, hcol, hwit⟩ := nondeterministic_foldl labels (iotaDistanceSorted lts)
    (fun s hs => mem_iotaDistanceSorted.1 hs) ([], lts) rfl (fun _ => rfl) (by simp)
  refine ⟨lts', by rw [nondeterministicNodes, heq, List.nil_append], fun s => ?_, by simpa using hwit⟩
  have hparent : ∀ i, (node lts' i).parent = (node lts i).parent := by
    intro i
    have : (node lts' i).uncolored.parent = (node lts i).uncolored.parent := by rw [hcol]
    exact this
  have hdist : (node lts' s).distance = (node lts s).distance := by
    have : (node lts' s).uncolored.distance = (node lts s).uncolored.distance := by rw [hcol]
    exact this
  have hstep : traceStep lts' = traceStep lts := by
    funext ⟨i, es⟩
    rw [traceStep, traceStep, hparent]
  rw [trace, trace, hstep, hdist]

/-- A state is nondeterministic exactly if it gets a color. -/
theorem nondeterministicColor_isSome (labels : List String) {s : Nat}
    (hs : (node lts s).edges.Pairwise fun a b => a.canonicalLabel ≤ b.canonicalLabel) :
    (nondeterministicColor labels (node lts s)).isSome ↔ IsNondeterministic lts s labels := by
  rw [Option.isSome_iff_ne_none, Ne, nondeterministicColor, repeated_eq_none (hs.filter _)]
  simp only [not_forall]
  constructor
  · rintro ⟨e, e', hsub, heq⟩
    have he : e ∈ (node lts s).edges.filter fun e => e.canonicalLabel ∈ labels := hsub.subset (by simp)
    exact ⟨e, e', hsub.trans List.filter_sublist, by simpa using heq, by simpa using (List.mem_filter.1 he).2⟩
  · rintro ⟨e, e', hsub, heq, hmem⟩
    have hf : [e, e'].filter (fun e => decide (e.canonicalLabel ∈ labels)) = [e, e'] := by
      rw [List.filter_eq_self]
      intro a ha
      rcases List.mem_cons.1 ha with rfl | ha
      · simpa using hmem
      · rw [List.mem_singleton.1 ha, ← heq]
        simpa using hmem
    have := hsub.filter fun e => decide (e.canonicalLabel ∈ labels)
    rw [hf] at this
    exact ⟨e, e', this, by simpa using heq⟩

/-- What `assert-nondeterministic` should return: as the other checks, with one of the edges of one label
after the walk unless that is a state edge. -/
def ReportsNondeterministic (lts : Lts) (labels : List String) : Option (List (Edge String)) → Prop
  | none => ∀ s, s < lts.length → ¬ IsNondeterministic lts s labels
  | some p => ∃ s q e e', s < lts.length ∧ [e, e'].Sublist (node lts s).edges ∧
    e.canonicalLabel = e'.canonicalLabel ∧ e.canonicalLabel ∈ labels ∧
    p = q ++ (if e.canonicalLabel = stateLabel then [] else [e]) ∧ Trace lts lts.initial q s ∧
    ∀ t w, t < lts.length → IsNondeterministic lts t labels → Trace lts lts.initial w t → q.length ≤ w.length

theorem assertNondeterministic_reports (labels : List String) (ha : Annotated (Step lts) lts)
    (hr : ∀ s, s < lts.length → Reachable lts s)
    (hsorted : ∀ s, (node lts s).edges.Pairwise fun a b => a.canonicalLabel ≤ b.canonicalLabel) :
    ∃ r, assertNondeterministic lts labels = some r ∧ ReportsNondeterministic lts labels r := by
  obtain ⟨lts', heq, htrace, hwit⟩ := nondeterministicNodes_eq lts labels
  have hiff := fun s => nondeterministicColor_isSome labels (hsorted s)
  rw [assertNondeterministic, heq]
  cases hl : (iotaDistanceSorted lts).filter fun s => (nondeterministicColor labels (node lts s)).isSome with
  | nil =>
    refine ⟨none, rfl, fun s hs hn => ?_⟩
    have := filter_iotaDistanceSorted_nil.1 hl s hs
    rw [(hiff s).2 hn] at this
    cases this
  | cons s rest =>
    obtain ⟨hs, hP, hmin⟩ := filter_iotaDistanceSorted_cons hl
    obtain ⟨q, hq, hwalk, hshort⟩ := trace_nearest ha hr hs hmin
    obtain ⟨e, he⟩ := Option.isSome_iff_exists.1 hP
    have hw := hwit s (by simp [hl])
    obtain ⟨e', hsub, hcan⟩ := repeated_eq_some he
    have hmem : e ∈ (node lts s).edges.filter fun e => e.canonicalLabel ∈ labels := hsub.subset (by simp)
    refine ⟨some (q ++ if e.canonicalLabel = stateLabel then [] else [e]), ?_, s, q, e, e', hs,
      hsub.trans List.filter_sublist, hcan, by simpa using (List.mem_filter.1 hmem).2, rfl, hwalk, ?_⟩
    · simp only [hw, he, htrace, hq]
      rfl
    · intro t w ht hn hwt
      exact hshort t w ht ((hiff t).2 hn) hwt

end

/-! ## The theorem -/

theorem constructLts_sorted {aut : Aut} {lts : Lts} (h : constructLts aut = some lts) (s : Nat) :
    (node lts s).edges.Pairwise fun a b => a.canonicalLabel ≤ b.canonicalLabel := by
  obtain ⟨lts', he, hlen, -, -, hbare⟩ := constructLts_annotated aut
  obtain rfl := Option.some.inj (he.symm.trans h)
  rw [bare_edges (hbare s)]
  by_cases hs : s < aut.stateCount
  · rw [constructNodes_node hs]
    exact pairwise_sortBy Edge.canonicalLabel _
  · rw [node_of_le (by rw [constructNodes_length]; omega)]
    exact List.Pairwise.nil

/-- The three checks of an LTS whose nodes are all reachable report the nearest node that is wrong, by a
shortest walk to it, and nothing exactly if there is none. -/
theorem assert_reports (aut : Aut) (labels : List String) (lts : Lts) (h : constructLts aut = some lts)
    (hr : ∀ s, s < lts.length → Reachable lts s) :
    (∃ r, assertIllegal lts = some r ∧ Reports lts (IsIllegal lts) r) ∧
    (∃ r, assertDeadlock lts = some r ∧ Reports lts (IsDeadlock lts) r) ∧
    ∃ r, assertNondeterministic lts labels = some r ∧ ReportsNondeterministic lts labels r := by
  obtain ⟨lts', he, hlen, hw, ha, -⟩ := constructLts_annotated aut
  obtain rfl := Option.some.inj (he.symm.trans h)
  refine ⟨?_, ?_, assertNondeterministic_reports labels ha hr (constructLts_sorted h)⟩
  · obtain ⟨r, hrun, hrep⟩ := traceToFirst_reports
      (P := fun s => decide (illegalLabel ∈ (node lts' s).edges.map Edge.label)) ha hr
    exact ⟨r, hrun, hrep.congr fun s _ => illegalNodes_iff⟩
  · obtain ⟨P, heq, hP⟩ := deadlockNodes_eq (fun i hi => Nat.le_of_eq (hw.state i hi)) hw.toState
    obtain ⟨r, hrun, hrep⟩ := traceToFirst_reports (P := P) ha hr
    exact ⟨r, by rw [assertDeadlock, heq, hrun], hrep.congr hP⟩

/-- `0 -a-> 1`, `1 -a-> 0`, `1 -a-> 1`, `1 -<illegal>-> 2` -/
def illegalAut : Aut :=
  ⟨0, 3, [makeEdge 0 "a" 1 false, makeEdge 1 "a" 0 false, makeEdge 1 "a" 1 false, makeEdge 1 illegalLabel 2 false],
    Aut.three_pos, by decide⟩

def illegalLts : Lts := (constructLts illegalAut).getD []

theorem assert_reports_illegal :
    (∃ r, assertIllegal illegalLts = some r ∧ Reports illegalLts (IsIllegal illegalLts) r) ∧
    (∃ r, assertDeadlock illegalLts = some r ∧ Reports illegalLts (IsDeadlock illegalLts) r) ∧
    ∃ r, assertNondeterministic illegalLts ["a"] = some r ∧ ReportsNondeterministic illegalLts ["a"] r := by
  have h : constructLts illegalAut = some illegalLts := by decide
  exact assert_reports illegalAut ["a"] illegalLts h (reachable_of_distance h (by decide))

example : assertIllegal illegalLts = some (some [makeEdge 0 "a" 1 false]) := by decide

end Dezyne
