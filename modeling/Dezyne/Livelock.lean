import Dezyne.Failures
import Dezyne.Lib.DepthFirst
/-!
# Livelocks

`lts-tau-loops` is a depth-first search over the tau edges that writes into a
node the edge it was last entered over, also when that is while the node is
under way. `tau-loop` goes back over these edges. From the node hit last it
comes back to that node only if nothing between was entered a second time.
-/

namespace Dezyne

open Lts DepthFirst

/-! ## The search -/

/-- `detect-loops`: the states that are entered while they are grey, the last one first. -/
def detectLoops : Nat → Nat → Option (Edge String) → Lts → Option (List Nat × Lts)
  | 0, _, _, _ => none
  | fuel + 1, state, entryEdge, lts =>
    match (node lts state).color with
    | .grey => some ([state], lts.set state { node lts state with cycle := entryEdge })
    | .white => do
      let tauEdges := (node lts state).edges.filter Edge.tau
      let (loops, lts) ← tauEdges.foldlM (fun (r : List Nat × Lts) edge => do
          let (loops, lts) ← detectLoops fuel edge.toState (some edge) r.2
          return (loops ++ r.1, lts))
        ([], lts.set state { node lts state with color := .grey, cycle := entryEdge })
      return (loops, lts.set state { node lts state with color := .black })
    | _ => some ([], lts)

/-- `lts-tau-loops`, with the nodes it leaves. -/
def ltsTauLoops (lts : Lts) : Option (List Nat × Lts) := do
  let (loops, lts) ← (List.range lts.length).foldlM (fun (r : List Nat × Lts) state => do
      let (loops, lts') ← detectLoops (lts.length + 1) state none r.2
      return (loops ++ r.1, lts'))
    ([], lts)
  return (loops.eraseDups, lts)

/-- `tau-loop` -/
def tauLoop (state : Nat) (lts : Lts) : Option (List (Edge String)) :=
  unwind (fun s => (node lts s).cycle) Edge.fromState (lts.length + 1) [] state

/-- What `assert-livelock` returns: edges, and the mark `<loop>`, an edge with no ends. -/
inductive LoopItem where
  | edge (e : Edge String)
  | loop
deriving DecidableEq

/-- `edge-label` -/
def LoopItem.label : LoopItem → String
  | .edge e => e.label
  | .loop => "<loop>"

/-- `assert-livelock` -/
def assertLivelock (lts : Lts) : Option (Option (List LoopItem)) := do
  let (livelockNodes, lts) ← ltsTauLoops lts
  match livelockNodes with
  | [] => return none
  | state :: _ => do
    let entry ← trace lts state
    let loop ← tauLoop state lts
    return some (entry.map .edge ++ [.loop] ++ loop.map .edge)

/-! ## It is a depth-first search -/

/-- The edges `detect-loops` follows. -/
def tauEdges (lts : Lts) (s : Nat) : List (Edge String) := (node lts s).edges.filter Edge.tau

/-- A node without what `lts-tau-loops` sets. -/
def Node.unsearched (n : Node) : Node := { n with color := .white, cycle := none }

/-- The colors and cycles of the nodes are those of the search. -/
structure Searched (start : Lts) (stack : List Nat) (r : Search Nat (Edge String)) (lts : Lts) : Prop where
  length : lts.length = start.length
  unsearched : ∀ i, (node lts i).unsearched = (node start i).unsearched
  color : ∀ i, i < start.length →
    (node lts i).color = if i ∈ r.done then .black else if i ∈ stack then .grey else .white
  cycle : ∀ i, i < start.length → (node lts i).cycle = lastEdge r.events i

section
variable {start lts : Lts} {stack : List Nat} {r : Search Nat (Edge String)}

theorem Searched.edges (h : Searched start stack r lts) (i : Nat) :
    (node lts i).edges = (node start i).edges := by
  have : (node lts i).unsearched.edges = (node start i).unsearched.edges := by rw [h.unsearched]
  exact this

/-- Writing a color and a cycle into a node. -/
theorem Searched.set (h : Searched start stack r lts) {stack' : List Nat} {r' : Search Nat (Edge String)}
    {state : Nat} (hs : state < start.length) {n : Node} (hn : n.unsearched = (node lts state).unsearched)
    (hcolor : n.color = if state ∈ r'.done then .black else if state ∈ stack' then .grey else .white)
    (hcycle : n.cycle = lastEdge r'.events state)
    (hdone : ∀ i, i ≠ state → (i ∈ r'.done ↔ i ∈ r.done)) (hstack : ∀ i, i ≠ state → (i ∈ stack' ↔ i ∈ stack))
    (hedge : ∀ i, i ≠ state → lastEdge r'.events i = lastEdge r.events i) :
    Searched start stack' r' (lts.set state n) := by
  have hself : node (lts.set state n) state = n := node_set_self (by rw [h.length]; exact hs) n
  have hother : ∀ i, i ≠ state → node (lts.set state n) i = node lts i := fun i hi => node_set_ne (Ne.symm hi) n
  refine ⟨by rw [List.length_set, h.length], fun i => ?_, fun i hi => ?_, fun i hi => ?_⟩
  · by_cases hi : i = state
    · subst hi
      rw [hself, hn, h.unsearched]
    · rw [hother i hi, h.unsearched]
  · by_cases his : i = state
    · subst his
      rw [hself, hcolor]
    · rw [hother i his, h.color i hi]
      simp only [hdone i his, hstack i his]
  · by_cases his : i = state
    · subst his
      rw [hself, hcycle]
    · rw [hother i his, h.cycle i hi, hedge i his]

/-- `detect-loops` does what entering a state does, and returns the new hits. -/
theorem detectLoops_visit (hw : WellFormed start) : ∀ fuel stack entry state r r' lts,
    Searched start stack r lts → state < start.length →
    visit (tauEdges start) Edge.toState fuel stack entry state r = some r' →
    ∃ loops lts', detectLoops fuel state entry lts = some (loops, lts') ∧ Searched start stack r' lts' ∧
      (hits r'.events).map Event.state = loops ++ (hits r.events).map Event.state := by
  intro fuel
  induction fuel with
  | zero => intro stack entry state r r' lts _ _ hv; cases hv
  | succ fuel ih =>
    intro stack entry state r r' lts h hs hv
    have hcolor := h.color state hs
    rw [visit] at hv
    by_cases hdone : state ∈ r.done
    · rw [if_pos hdone] at hv hcolor
      obtain rfl := Option.some.inj hv
      exact ⟨[], lts, by rw [detectLoops, hcolor], h, rfl⟩
    rw [if_neg hdone] at hv hcolor
    have hself : lastEdge (⟨stack, entry, state⟩ :: r.events) state = entry :=
      lastEdge_cons_self (v := ⟨stack, entry, state⟩)
    have hother : ∀ i, i ≠ state → lastEdge (⟨stack, entry, state⟩ :: r.events) i = lastEdge r.events i :=
      fun i hi => lastEdge_cons_ne (Ne.symm hi)
    -- a grey state is a hit, a white one is searched
    by_cases hstack : state ∈ stack
    · rw [if_pos hstack] at hv hcolor
      obtain rfl := Option.some.inj hv
      have hhit : hits (⟨stack, entry, state⟩ :: r.events) = ⟨stack, entry, state⟩ :: hits r.events :=
        List.filter_cons_of_pos (by simpa [Event.hit] using hstack)
      refine ⟨[state], _, by rw [detectLoops, hcolor], ?_, by simp [hhit]⟩
      exact h.set hs rfl (by simp [hdone, hstack, hcolor]) hself.symm (fun _ _ => Iff.rfl) (fun _ _ => Iff.rfl) hother
    · rw [if_neg hstack] at hv hcolor
      obtain ⟨r₁, hr₁, hv⟩ := Option.bind_eq_some_iff.1 hv
      obtain rfl := Option.some.inj hv
      have hnohit : hits (⟨stack, entry, state⟩ :: r.events) = hits r.events :=
        List.filter_cons_of_neg (by simpa [Event.hit] using hstack)
      have hgrey : Searched start (state :: stack) { r with events := ⟨stack, entry, state⟩ :: r.events }
          (lts.set state { node lts state with color := .grey, cycle := entry }) :=
        h.set hs rfl (by simp [hdone]) hself.symm (fun _ _ => Iff.rfl)
          (fun i hi => by simp [hi]) hother
      -- the edges, one after the other
      have hfold : ∀ (es : List (Edge String)), (∀ e ∈ es, e.toState < start.length) →
          ∀ r r' lts loops, Searched start (state :: stack) r lts →
          es.foldlM (fun r e => visit (tauEdges start) Edge.toState fuel (state :: stack) (some e) e.toState r) r = some r' →
          ∃ loops' lts', es.foldlM (fun (r : List Nat × Lts) edge => do
              let (loops, lts) ← detectLoops fuel edge.toState (some edge) r.2
              return (loops ++ r.1, lts)) (loops, lts) = some (loops' ++ loops, lts') ∧
            Searched start (state :: stack) r' lts' ∧
            (hits r'.events).map Event.state = loops' ++ (hits r.events).map Event.state := by
        intro es
        induction es with
        | nil =>
          intro _ r r' lts loops h hv
          obtain rfl := Option.some.inj hv
          exact ⟨[], lts, rfl, h, rfl⟩
        | cons e es ihes =>
          intro hes r r' lts loops h hv
          rw [List.foldlM_cons] at hv
          obtain ⟨r₂, hr₂, hv⟩ := Option.bind_eq_some_iff.1 hv
          obtain ⟨l, lts₂, hd, h₂, hl⟩ := ih _ _ _ _ _ _ h (hes e (by simp)) hr₂
          obtain ⟨l', lts', hd', h', hl'⟩ := ihes (fun e he => hes e (by simp [he])) r₂ r' lts₂ (l ++ loops) h₂ hv
          refine ⟨l' ++ l, lts', ?_, h', by rw [hl', hl, List.append_assoc]⟩
          rw [List.foldlM_cons, hd, List.append_assoc]
          exact hd'
      have hto : ∀ e ∈ tauEdges start state, e.toState < start.length :=
        fun e he => hw.toState state e (List.mem_filter.1 he).1
      obtain ⟨loops, lts₁, hd, h₁, hl⟩ := hfold _ hto _ _ _ [] hgrey hr₁
      refine ⟨loops, lts₁.set state { node lts₁ state with color := .black }, ?_, ?_, by rw [hl, hnohit]⟩
      · rw [detectLoops, hcolor]
        rw [List.append_nil] at hd
        have hes : (node lts state).edges.filter Edge.tau = tauEdges start state := by rw [h.edges]; rfl
        rw [← hes] at hd
        exact congrArg (fun x => x >>= fun r : List Nat × Lts =>
          some (r.1, r.2.set state { node r.2 state with color := .black })) hd
      · refine h₁.set hs rfl (by simp) (h₁.cycle state hs) (fun i hi => by simp [hi]) (fun i hi => by simp [hi])
          fun _ _ => rfl

/-- `lts-tau-loops` is the search from all the nodes, and returns the nodes that are hit. -/
theorem ltsTauLoops_search (hw : WellFormed start)
    (hfresh : ∀ i, i < start.length → (node start i).color = .white ∧ (node start i).cycle = none)
    (h : search (tauEdges start) Edge.toState (List.range start.length) = some r) :
    ∃ lts, ltsTauLoops start = some (((hits r.events).map Event.state).eraseDups, lts) ∧
      Searched start [] r lts := by
  have hfold : ∀ (l : List Nat), (∀ s ∈ l, s < start.length) → ∀ r r' lts loops, Searched start [] r lts →
      l.foldlM (fun r s => visit (tauEdges start) Edge.toState (start.length + 1) [] none s r) r = some r' →
      ∃ loops' lts', l.foldlM (fun (r : List Nat × Lts) state => do
          let (loops, lts') ← detectLoops (start.length + 1) state none r.2
          return (loops ++ r.1, lts')) (loops, lts) = some (loops' ++ loops, lts') ∧ Searched start [] r' lts' ∧
        (hits r'.events).map Event.state = loops' ++ (hits r.events).map Event.state := by
    intro l
    induction l with
    | nil =>
      intro _ r r' lts loops h hv
      obtain rfl := Option.some.inj hv
      exact ⟨[], lts, rfl, h, rfl⟩
    | cons s l ih =>
      intro hl r r' lts loops h hv
      rw [List.foldlM_cons] at hv
      obtain ⟨r₁, hr₁, hv⟩ := Option.bind_eq_some_iff.1 hv
      obtain ⟨new, lts₁, hd, h₁, hnew⟩ := detectLoops_visit hw _ _ _ _ _ _ _ h (hl s (by simp)) hr₁
      obtain ⟨new', lts', hd', h', hnew'⟩ := ih (fun s hs => hl s (by simp [hs])) r₁ r' lts₁ (new ++ loops) h₁ hv
      refine ⟨new' ++ new, lts', ?_, h', by rw [hnew', hnew, List.append_assoc]⟩
      rw [List.foldlM_cons, hd, List.append_assoc]
      exact hd'
  have hstart : Searched start [] ⟨[], []⟩ start := by
    refine ⟨rfl, fun _ => rfl, fun i hi => ?_, fun i hi => ?_⟩
    · rw [(hfresh i hi).1]
      rfl
    · rw [(hfresh i hi).2]
      rfl
  rw [search, List.length_range] at h
  obtain ⟨loops, lts, hd, hs, hl⟩ := hfold _ (fun s hs => List.mem_range.1 hs) _ _ _ [] hstart h
  rw [List.append_nil] at hd
  have hl : (hits r.events).map Event.state = loops := by simpa [hits] using hl
  refine ⟨lts, ?_, hs⟩
  rw [hl]
  exact congrArg (fun x => x >>= fun r : List Nat × Lts => some (r.1.eraseDups, r.2)) hd

end

/-! ## The systems the check runs on -/

/-- The LTS of an AUT file, with labels hidden. -/
inductive Hidden : Lts → Prop
  | construct {aut : Aut} {lts : Lts} : constructLts aut = some lts → Hidden lts
  | hide {lts : Lts} (tau excludeTau : List String) : Hidden lts → Hidden (ltsHide lts tau excludeTau)

/-- An edge of a node as it is, but that it may be hidden. -/
def LabelStep (lts : Lts) (s : Nat) (e : Edge String) (t : Nat) : Prop :=
  ∃ e' ∈ (node lts s).edges, e'.toState = t ∧ e'.label = e.label

/-- A hidden edge of a node. -/
def TauStep (lts : Lts) (s : Nat) (e : Edge String) (t : Nat) : Prop :=
  e ∈ (node lts s).edges ∧ e.tau = true ∧ e.toState = t

section
variable {lts : Lts} {s t : Nat} {p : List (Edge String)}

theorem Hidden.wellFormed (h : Hidden lts) : WellFormed lts := by
  induction h with
  | construct h => exact (Built.construct h).wellFormed
  | hide tau excludeTau _ ih =>
    rw [ltsHide_eq]
    exact mapEdges_wellFormed (fun _ => ⟨rfl, rfl⟩) ih

theorem Hidden.annotated (h : Hidden lts) : Annotated (LabelStep lts) lts := by
  induction h with
  | @construct aut lts h =>
    obtain ⟨lts', he, -, -, ha, -⟩ := constructLts_annotated aut
    obtain rfl := Option.some.inj (he.symm.trans h)
    exact ha.mono fun s e t he => ⟨e, he.1, he.2, rfl⟩
  | @hide lts tau excludeTau _ ih =>
    rw [ltsHide_eq]
    refine mapEdges_annotated (fun _ => rfl) (fun s e t _ he => ?_) ih
    obtain ⟨e', he', ht, hl⟩ := he
    refine ⟨setEdgeTau tau excludeTau e', ?_, ht, hl⟩
    rw [mapEdges_node]
    exact List.mem_map_of_mem (List.mem_filter.2 ⟨he', rfl⟩)

/-- No node has been searched. -/
theorem Hidden.fresh (h : Hidden lts) :
    ∀ i, i < lts.length → (node lts i).color = .white ∧ (node lts i).cycle = none := by
  induction h with
  | @construct aut lts h =>
    obtain ⟨lts', he, hlen, -, -, hbare⟩ := constructLts_annotated aut
    obtain rfl := Option.some.inj (he.symm.trans h)
    intro i hi
    have hnode := hbare i
    rw [constructNodes_node (by omega)] at hnode
    exact ⟨congrArg Node.color hnode, congrArg Node.cycle hnode⟩
  | hide tau excludeTau _ ih =>
    intro i hi
    rw [ltsHide_eq, mapEdges_node]
    rw [ltsHide, List.length_map] at hi
    exact ih i hi

/-- A walk by labels is one with the labels of a walk. -/
theorem trace_of_labelStep (h : Walk (LabelStep lts) s p t) :
    ∃ q, Trace lts s q t ∧ q.map Edge.label = p.map Edge.label := by
  induction h with
  | nil s => exact ⟨[], .nil s, rfl⟩
  | cons he _ ih =>
    obtain ⟨e', he', ht, hl⟩ := he
    obtain ⟨q, hq, hlabels⟩ := ih
    exact ⟨e' :: q, .cons ⟨he', ht⟩ hq, by rw [List.map_cons, List.map_cons, hl, hlabels]⟩

/-- A node that got a distance is reachable. -/
theorem Hidden.reachable (h : Hidden lts) (hd : ∀ s, s < lts.length → 0 ≤ (node lts s).distance) :
    ∀ s, s < lts.length → Reachable lts s := by
  intro s hs
  obtain ⟨p, -, hp, -⟩ := trace_walk h.annotated (hd s hs)
  obtain ⟨q, hq, -⟩ := trace_of_labelStep hp
  exact ⟨q, hq⟩

theorem mem_tauEdges {e : Edge String} : e ∈ tauEdges lts s ↔ e ∈ (node lts s).edges ∧ e.tau = true := by
  rw [tauEdges, List.mem_filter]

theorem tauStep_iff : Walk (fun a e b => e ∈ tauEdges lts a ∧ e.toState = b) s p t ↔
    Walk (TauStep lts) s p t := by
  constructor
  · exact Walk.mono fun a e b h => ⟨(mem_tauEdges.1 h.1).1, (mem_tauEdges.1 h.1).2, h.2⟩
  · exact Walk.mono fun a e b h => ⟨mem_tauEdges.2 ⟨h.1, h.2.1⟩, h.2.2⟩

end

/-! ## What is reported -/

/-- A cycle of hidden edges. -/
def HasTauLoop (lts : Lts) : Prop := ∃ s c, s < lts.length ∧ c ≠ [] ∧ Walk (TauStep lts) s c s

/-- The edges of a walk to a state, `<loop>`, and hidden edges from the state back to it. -/
def IsLivelock (lts : Lts) (items : List LoopItem) : Prop := ∃ s p c, c ≠ [] ∧
  items = p.map .edge ++ [.loop] ++ c.map .edge ∧ Walk (LabelStep lts) lts.initial p s ∧ Walk (TauStep lts) s c s

/-- The labels of such. -/
def LivelockLabels (lts : Lts) (labels : List String) : Prop := ∃ s p c, c ≠ [] ∧
  labels = p.map Edge.label ++ ["<loop>"] ++ c.map Edge.label ∧ Trace lts lts.initial p s ∧ Walk (TauStep lts) s c s

theorem IsLivelock.labels {lts : Lts} {items : List LoopItem} (h : IsLivelock lts items) :
    LivelockLabels lts (items.map LoopItem.label) := by
  obtain ⟨s, p, c, hc, rfl, hp, hloop⟩ := h
  obtain ⟨q, hq, hl⟩ := trace_of_labelStep hp
  refine ⟨s, q, c, hc, ?_, hq, hloop⟩
  rw [hl, List.map_append, List.map_append, List.map_map, List.map_map]
  rfl

/-- The search over the hidden edges from every state, in the order of `lts-tau-loops`. -/
def tauSearch (lts : Lts) : Option (Search Nat (Edge String)) :=
  search (tauEdges lts) Edge.toState (List.range lts.length)

/-- Of the states that are under way where the search last comes back to one, none after that one is come
back to. -/
def LoopIntact (lts : Lts) : Prop := ∀ r ∈ tauSearch lts, Undisturbed r.events

theorem loopItems_inj : ∀ {p p' c c' : List (Edge String)},
    p.map LoopItem.edge ++ [.loop] ++ c.map .edge = p'.map .edge ++ [.loop] ++ c'.map .edge → p = p' ∧ c = c' := by
  intro p
  induction p with
  | nil =>
    intro p' c c' h
    cases p' with
    | nil =>
      have hc := (List.cons.inj h).2
      exact ⟨rfl, (List.map_injective_iff.2 fun _ _ => LoopItem.edge.inj) hc⟩
    | cons e p' => cases (List.cons.inj h).1
  | cons e p ih =>
    intro p' c c' h
    cases p' with
    | nil => cases (List.cons.inj h).1
    | cons e' p' =>
      obtain ⟨he, h⟩ := List.cons.inj h
      obtain ⟨rfl, rfl⟩ := ih h
      exact ⟨by rw [LoopItem.edge.inj he], rfl⟩

section
variable {lts : Lts} {r : Search Nat (Edge String)}

/-- Without hits there is no cycle of hidden edges. -/
theorem hasTauLoop_iff (hlog : Log (tauEdges lts) Edge.toState r.events)
    (hin : ∀ v ∈ r.events, v.state ∈ List.range lts.length)
    (hacc : hits r.events = [] → ∀ s ∈ List.range lts.length, Acc (Leads (tauEdges lts) Edge.toState) s) :
    HasTauLoop lts ↔ hits r.events ≠ [] := by
  constructor
  · rintro ⟨s, c, hs, hc, hw⟩ hnone
    have hs := hacc hnone s (List.mem_range.2 hs)
    exact Walk.not_closed_of_acc hs c hc (tauStep_iff.2 hw)
  · intro hne
    obtain ⟨v, hv⟩ := List.exists_mem_of_ne_nil _ hne
    obtain ⟨c, hc, hw⟩ := hlog.cycle_of_hit hv
    exact ⟨v.state, c, List.mem_range.1 (hin v (List.mem_filter.1 hv).1), hc, tauStep_iff.1 hw⟩

/-- `tau-loop` goes back over hidden edges, from the state hit last to one from which it would come up again. -/
theorem tauLoop_walk (hw : WellFormed lts) (hlog : Log (tauEdges lts) Edge.toState r.events)
    (hin : ∀ v ∈ r.events, v.state ∈ List.range lts.length) {last : Event Nat (Edge String)}
    {rest : List (Event Nat (Edge String))} (hlast : hits r.events = last :: rest) :
    ∃ c x, unwind (lastEdge r.events) Edge.fromState (lts.length + 1) [] last.state = some c ∧ c ≠ [] ∧
      Walk (TauStep lts) x c last.state ∧ (x = last.state ↔ Undisturbed r.events) := by
  have hsource : ∀ s, ∀ e ∈ tauEdges lts s, e.fromState = s := fun s e he => hw.fromState s e (mem_tauEdges.1 he).1
  have hmem : last ∈ hits r.events := by simp [hlast]
  have hback : ∀ s, Below r.events last.state s → ∃ e, lastEdge r.events s = some e ∧
      e ∈ tauEdges lts e.fromState ∧ e.toState = s ∧ Below r.events last.state e.fromState :=
    fun s hs => hlog.back_below hsource ⟨last, hmem, rfl⟩ hs
  have hP : ∀ s, Below r.events last.state s → s ∈ List.range lts.length ∧
      ∃ e, lastEdge r.events s = some e ∧ Below r.events last.state e.fromState := by
    intro s hs
    obtain ⟨e, he, -, -, hb⟩ := hback s hs
    obtain ⟨stack, hst, -⟩ := hs
    have hsome : ¬ ∀ v ∈ r.events, v.state ≠ s := by
      rw [← firstStack_eq_none, hst]
      simp
    obtain ⟨v, hv⟩ := not_forall.1 hsome
    obtain ⟨hv, hvs⟩ := Classical.not_imp.1 hv
    exact ⟨not_not.1 hvs ▸ hin v hv, e, he, hb⟩
  have hself : Below r.events last.state last.state := by
    obtain ⟨e, top, -, -, -, hb⟩ := hlog.lastEdge_of_hit last hmem
    obtain ⟨stack, hst, hs⟩ := hb
    rcases List.mem_cons.1 hs with heq | hs
    · rw [← heq] at hst
      exact ⟨stack, hst, by simp⟩
    · obtain ⟨above, below, rfl⟩ := List.append_of_mem hs
      exact ⟨below, hlog.firstStack_suffix hst rfl, by simp⟩
  obtain ⟨c, x, hc, hne, hwalk, hiff⟩ := unwind_spec hP hself
  rw [List.length_range] at hc
  refine ⟨c, x, hc, hne, ?_, hiff.trans (hlog.back_closes_iff hsource hlast)⟩
  -- the states the walk passes are all below the last one
  have hsteps : ∀ {c x t}, Walk (LastStep (lastEdge r.events) Edge.fromState) x c t → Below r.events last.state t →
      Below r.events last.state x ∧ Walk (TauStep lts) x c t := by
    intro c x t hwalk ht
    induction hwalk with
    | nil s => exact ⟨ht, .nil s⟩
    | @cons x u t e c he _ ih =>
      obtain ⟨hu, hwalk⟩ := ih ht
      obtain ⟨hl, rfl⟩ := he
      obtain ⟨e', hl', hmem, hto, hb⟩ := hback u hu
      obtain rfl := Option.some.inj (hl'.symm.trans hl)
      exact ⟨hb, .cons ⟨(mem_tauEdges.1 hmem).1, (mem_tauEdges.1 hmem).2, hto⟩ hwalk⟩
  exact (hsteps hwalk hself).2

end

/-- `assert-livelock` returns nothing exactly if there is no cycle of hidden edges. Else it returns a walk
and a cycle exactly if the search comes back to none of the states it goes back over. -/
theorem assertLivelock_isLivelock_iff {lts : Lts} (h : Hidden lts)
    (hr : ∀ s, s < lts.length → Reachable lts s) :
    ∃ r, assertLivelock lts = some r ∧ (r = none ↔ ¬ HasTauLoop lts) ∧
      ∀ items, r = some items → (IsLivelock lts items ↔ LoopIntact lts) ∧
        (LoopIntact lts → LivelockLabels lts (items.map LoopItem.label)) := by
  have hw := h.wellFormed
  have ha := h.annotated
  have hroots : ∀ s ∈ List.range lts.length, ∀ e ∈ tauEdges lts s, e.toState ∈ List.range lts.length :=
    fun s _ e he => List.mem_range.2 (hw.toState s e (mem_tauEdges.1 he).1)
  obtain ⟨r, hsearch, hlog, hin, hacc⟩ := search_spec hroots
  have hintact : LoopIntact lts ↔ Undisturbed r.events := by
    rw [LoopIntact, tauSearch, hsearch]
    simp
  have hloop := hasTauLoop_iff hlog hin hacc
  obtain ⟨lts', hloops, hs⟩ := ltsTauLoops_search hw h.fresh hsearch
  rw [assertLivelock]
  simp only [hloops, Option.bind_eq_bind, Option.bind_some]
  -- without hits there is no cycle, and nothing is returned
  cases hhits : hits r.events with
  | nil =>
    refine ⟨none, rfl, ⟨fun _ hl => hloop.1 hl hhits, fun _ => rfl⟩, fun items hi => by cases hi⟩
  | cons last rest =>
    have hmem : last ∈ hits r.events := by simp [hhits]
    have hlt : last.state < lts.length := List.mem_range.1 (hin last (List.mem_filter.1 hmem).1)
    -- the walk to the state
    obtain ⟨w, hwalk⟩ := hr _ hlt
    obtain ⟨p, hp, hentry, -⟩ := trace_walk ha (ha.shortest w _ hwalk).1
    have hsame : ∀ i, (node lts' i).parent = (node lts i).parent ∧ (node lts' i).distance = (node lts i).distance := by
      intro i
      have hn := hs.unsearched i
      constructor
      · have : (node lts' i).unsearched.parent = (node lts i).unsearched.parent := by rw [hn]
        exact this
      · have : (node lts' i).unsearched.distance = (node lts i).unsearched.distance := by rw [hn]
        exact this
    have hfrom : ∀ s e, (node lts s).parent = some e → e.fromState < lts.length := by
      intro s e he
      obtain ⟨-, h0, -⟩ := ha.parent s e he
      by_contra hge
      rw [node, List.getElem?_eq_none (by omega)] at h0
      exact absurd h0 (by simp)
    have htrace : trace lts' last.state = some p := by
      rw [trace_congr hfrom (fun s _ => (hsame s).1) (hsame _).1 (hsame _).2, hp]
    -- the cycle
    obtain ⟨c, x, hc, hne, hcycle, hiff⟩ := tauLoop_walk hw hlog hin hhits
    have hlastEdge : (fun s => (node lts' s).cycle) = lastEdge r.events := by
      funext i
      by_cases hi : i < lts.length
      · exact hs.cycle i hi
      · have hnone : r.events.find? (fun v => decide (v.state = i)) = none := by
          rw [List.find?_eq_none]
          intro v hv
          have := List.mem_range.1 (hin v hv)
          simp only [decide_eq_true_eq]
          omega
        rw [node, List.getElem?_eq_none (by rw [hs.length]; omega), lastEdge, hnone]
        rfl
    have htauLoop : tauLoop last.state lts' = some c := by
      rw [tauLoop, hlastEdge, hs.length]
      exact hc
    have hcons : (List.map Event.state (last :: rest)).eraseDups =
        last.state :: ((rest.map Event.state).filter fun b => !b == last.state).eraseDups := by
      rw [List.map_cons, List.eraseDups_cons]
    rw [hcons]
    simp only [htrace, htauLoop, Option.bind_some]
    refine ⟨_, rfl, ⟨fun hn => (by cases hn), fun hn => absurd (hloop.2 (by simp [hhits])) hn⟩, fun items hi => ?_⟩
    obtain rfl := Option.some.inj hi
    have hlive : LoopIntact lts → IsLivelock lts (p.map .edge ++ [.loop] ++ c.map .edge) := by
      intro hl
      obtain rfl := hiff.2 (hintact.1 hl)
      exact ⟨_, p, c, hne, rfl, hentry, hcycle⟩
    refine ⟨⟨fun hl => ?_, hlive⟩, fun hl => (hlive hl).labels⟩
    obtain ⟨s, p', c', -, heq, -, hclosed⟩ := hl
    obtain ⟨rfl, rfl⟩ := loopItems_inj heq
    -- the edges of a walk have their ends in them, so a closed walk starts and ends at the hit
    have hends : ∀ s e t s' t', TauStep lts s e t → TauStep lts s' e t' → s = s' ∧ t = t' := by
      rintro s e t s' t' ⟨he, -, rfl⟩ ⟨he', -, rfl⟩
      exact ⟨(hw.fromState s e he).symm.trans (hw.fromState s' e he'), rfl⟩
    obtain ⟨rfl, rfl⟩ := Walk.ends_unique hends hcycle hclosed hne
    exact hintact.2 (hiff.1 rfl)

/-- `0 -x-> 1`, `1 -a-> 2`, `1 -b-> 0`, `2 -c-> 1`, all hidden: `1` is come back to twice. -/
def crossedAut : Aut :=
  ⟨0, 3, [makeEdge 0 "x" 1 false, makeEdge 1 "a" 2 false, makeEdge 1 "b" 0 false, makeEdge 2 "c" 1 false],
    Aut.three_pos, by decide⟩

def crossedLts : Lts := ltsHide ((constructLts crossedAut).getD []) ["x", "a", "b", "c"] []

theorem hidden_crossedLts : Hidden crossedLts ∧ ∀ s, s < crossedLts.length → Reachable crossedLts s := by
  have h : constructLts crossedAut = some ((constructLts crossedAut).getD []) := by decide
  have h : Hidden crossedLts := .hide _ _ (.construct h)
  exact ⟨h, h.reachable (by decide)⟩

theorem assertLivelock_isLivelock_iff_crossed :
    ∃ r, assertLivelock crossedLts = some r ∧ (r = none ↔ ¬ HasTauLoop crossedLts) ∧
      ∀ items, r = some items → (IsLivelock crossedLts items ↔ LoopIntact crossedLts) ∧
        (LoopIntact crossedLts → LivelockLabels crossedLts (items.map LoopItem.label)) :=
  assertLivelock_isLivelock_iff hidden_crossedLts.1 hidden_crossedLts.2

/-- The result `<loop>`, `c`, `b` is no cycle at the initial node. -/
theorem assertLivelock_crossed : Hidden crossedLts ∧ (∀ s, s < crossedLts.length → Reachable crossedLts s) ∧
    ∃ items, assertLivelock crossedLts = some (some items) ∧
      ¬ LivelockLabels crossedLts (items.map LoopItem.label) := by
  refine ⟨hidden_crossedLts.1, hidden_crossedLts.2,
    [.loop, .edge (makeEdge 2 "c" 1 true), .edge (makeEdge 1 "b" 0 true)], by decide, ?_⟩
  rintro ⟨s, p, c, -, heq, hp, hc⟩
  have hlabel : ∀ e ∈ (node crossedLts 0).edges, e.label ≠ "<loop>" ∧ e.label ≠ "c" := by decide
  have hinitial : crossedLts.initial = 0 := by decide
  rw [hinitial] at hp
  cases hp with
  | nil =>
    cases hc with
    | nil => simp at heq
    | @cons _ t _ e c he _ =>
      have hc : ["c", "b"] = e.label :: c.map Edge.label := (List.cons.inj heq).2
      exact (hlabel e he.1).2 (List.cons.inj hc).1.symm
  | cons he _ => exact (hlabel _ he.1).1 (List.cons.inj heq).1.symm

end Dezyne
