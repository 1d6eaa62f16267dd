import Dezyne.Construct
/-!
# Run to completion

`lts->rtc-lts` leaves of an LTS the states that have a state event, and makes
one edge of every path between two of them, labelled with what is visible of
it. It goes along the paths without remembering where it has been.
-/

namespace Dezyne

open Lts

/-! ## The transformation -/

/-- `illegal?` -/
def illegalEvent (label : String) : Bool :=
  label = "<illegal>" || label = "<declarative-illegal>" || label = "illegal" || label = "declarative_illegal"

/-- `state?` -/
def stateEvent (label : String) : Bool := stringContains label "'state("

/-- `rtc?` -/
def Node.rtc (n : Node) : Bool := (n.edges.map Edge.label).any stateEvent

/-- `extend` keeps a label. -/
def visibleLabel (label : String) : Bool := !(label = tauLabel || stringSuffix "<flush>" label)

/-- `extend` -/
def extendTrail (trail : List String) (label : String) : List String :=
  if visibleLabel label then label :: trail else trail

/-- A node of the result, whose edges are labelled with lists. -/
structure RtcNode where
  node : Node
  edges : List (Edge (List String))

abbrev RtcLts := List RtcNode

/-- `clear-node-edges` -/
def clearNodeEdges (n : Node) : RtcNode := ⟨{ n with edges := [] }, []⟩

/-- `add` -/
def addRtcEdge (state toState : Nat) (trail : List String) (result : RtcLts) : RtcLts :=
  result.modify state fun n => { n with edges := ⟨n.node.state, trail.reverse, toState, false⟩ :: n.edges }

/-- The end of a step: something is visible, and the state is one of the result or the last label is illegal. -/
def rtcEnd (lts : Lts) (toState : Nat) (trail : List String) : Bool :=
  match trail with
  | [] => false
  | label :: _ => (node lts toState).rtc || illegalEvent label

/-- `step`; no path without an end is longer than twice the number of states. -/
def rtcStep (lts : Lts) (state : Nat) : Nat → Nat → List String → RtcLts → Option RtcLts
  | 0, _, _, _ => none
  | fuel + 1, toState, trail, result =>
    if rtcEnd lts toState trail then some (addRtcEdge state toState trail result)
    else (node lts toState).edges.foldlM
      (fun result edge => rtcStep lts state fuel edge.toState (extendTrail trail edge.label) result) result

/-- `lts->rtc-lts` -/
def ltsRtc (lts : Lts) : Option RtcLts :=
  (List.range lts.length).foldlM (fun result i =>
    if (node lts i).rtc then rtcStep lts (node lts i).state (2 * lts.length + 1) i [] result else some result)
    (lts.map clearNodeEdges)

/-! ## Paths -/

/-- The visible labels of a path. -/
def visible (p : List (Edge String)) : List String := (p.map Edge.label).filter visibleLabel

/-- A path to `j` ends a step. -/
def EndsStep (lts : Lts) (p : List (Edge String)) (j : Nat) : Prop :=
  visible p ≠ [] ∧ ((node lts j).rtc = true ∨ ∃ l ∈ (visible p).getLast?, illegalEvent l = true)

/-- A path from `i` to `j` with the visible labels `w` that is one step, none of whose beginnings is. -/
def RtcPath (lts : Lts) (i : Nat) (w : List String) (j : Nat) : Prop :=
  ∃ p, Trace lts i p j ∧ visible p = w ∧ EndsStep lts p j ∧
    ∀ q k, q <+: p → q ≠ p → Trace lts i q k → ¬ EndsStep lts q k

/-- Every cycle has a visible label and a state of the result. -/
def RtcCycles (lts : Lts) : Prop := ∀ s c, c ≠ [] → Trace lts s c s →
  (∃ e ∈ c, visibleLabel e.label = true) ∧ ∃ e ∈ c, (node lts e.fromState).rtc = true

section
variable {lts : Lts} {s t : Nat} {e : Edge String} {p q : List (Edge String)} {trail w : List String}

theorem visible_append : visible (p ++ q) = visible p ++ visible q := by
  rw [visible, List.map_append, List.filter_append, visible, visible]

theorem extendTrail_eq : extendTrail trail e.label = (visible [e]).reverse ++ trail := by
  unfold extendTrail visible
  by_cases h : visibleLabel e.label = true <;> simp [h]

/-- The ends of steps, by the trail so far. -/
theorem rtcEnd_iff : rtcEnd lts t (visible p).reverse = true ↔ EndsStep lts p t := by
  unfold EndsStep
  rcases List.eq_nil_or_concat' (visible p) with h | ⟨init, l, h⟩
  · simp [h, rtcEnd]
  · rw [h, List.reverse_append]
    simp [rtcEnd]

/-- The walk that is left of a step. -/
inductive RtcWord (lts : Lts) : Nat → List String → List String → Nat → Prop
  | stop {s : Nat} {trail : List String} : rtcEnd lts s trail = true → RtcWord lts s trail trail s
  | step {s : Nat} {trail w : List String} {e : Edge String} {j : Nat} : rtcEnd lts s trail = false →
      e ∈ (node lts s).edges → RtcWord lts e.toState (extendTrail trail e.label) w j → RtcWord lts s trail w j

theorem trace_end {t' : Nat} (h : Trace lts s p t) (h' : Trace lts s p t') : t = t' := by
  induction h with
  | nil => cases h'; rfl
  | cons he _ ih =>
    cases h' with
    | cons he' h' => exact ih (he.2.symm.trans he'.2 ▸ h')

theorem RtcWord.path {i j : Nat} (h : RtcWord lts s trail w j) : ∀ {p}, Trace lts i p s →
    trail = (visible p).reverse → (∀ q k, q <+: p → q ≠ p → Trace lts i q k → ¬ EndsStep lts q k) →
    RtcPath lts i w.reverse j := by
  induction h with
  | @stop s trail hend =>
    intro p hp htrail hbefore
    subst htrail
    exact ⟨p, hp, by rw [List.reverse_reverse], rtcEnd_iff.1 hend, hbefore⟩
  | @step s trail w e j hend he _ ih =>
    intro p hp htrail hbefore
    subst htrail
    refine ih (p := p ++ [e]) (hp.snoc ⟨he, rfl⟩) ?_ ?_
    · rw [visible_append, List.reverse_append, extendTrail_eq]
    · intro q k hq hne hk hends
      rcases List.prefix_concat_iff.1 hq with rfl | hq
      · exact hne rfl
      · by_cases heq : q = p
        · subst heq
          obtain rfl := trace_end hp hk
          rw [← rtcEnd_iff, hend] at hends
          cases hends
        · exact hbefore q k hq heq hk hends

/-- The words of a step are those of its paths. -/
theorem rtcWord_iff {i j : Nat} : RtcWord lts i [] w j ↔ RtcPath lts i w.reverse j := by
  constructor
  · intro h
    refine h.path (.nil i) rfl fun q k hq hne => ?_
    exact absurd (List.prefix_nil.1 hq) hne
  · rintro ⟨p, hp, hw, hends, hbefore⟩
    -- along the path, from any state of it
    have hrest : ∀ r q u, p = q ++ r → Trace lts i q u → Trace lts u r j → RtcWord lts u (visible q).reverse w j := by
      intro r
      induction r with
      | nil =>
        intro q u heq hq hr
        cases hr
        rw [List.append_nil] at heq
        subst heq
        rw [hw, List.reverse_reverse]
        refine .stop ?_
        rw [← List.reverse_reverse w, ← hw, rtcEnd_iff]
        exact hends
      | cons e r ih =>
        intro q u heq hq hr
        cases hr with
        | cons he hr =>
          obtain ⟨he, rfl⟩ := he
          have hend : rtcEnd lts u (visible q).reverse = false := by
            rw [Bool.eq_false_iff, Ne, rtcEnd_iff]
            refine hbefore q u ⟨e :: r, heq.symm⟩ ?_ hq
            rintro rfl
            simp at heq
          refine .step hend he ?_
          rw [extendTrail_eq, ← List.reverse_append, ← visible_append]
          exact ih (q ++ [e]) _ (by rw [heq, List.append_assoc]; rfl) (hq.snoc ⟨he, rfl⟩) hr
    exact hrest p [] i rfl (.nil i) hp

/-! ## What a step adds -/

/-- Edges in front of those of a node. -/
def prependEdges (state : Nat) (new : List (Edge (List String))) (result : RtcLts) : RtcLts :=
  result.modify state fun n => { n with edges := new ++ n.edges }

theorem prependEdges_append (state : Nat) (new new' : List (Edge (List String))) (result : RtcLts) :
    prependEdges state new' (prependEdges state new result) = prependEdges state (new' ++ new) result := by
  rw [prependEdges, prependEdges, prependEdges, List.modify_modify_eq]
  congr 1
  funext n
  simp

theorem prependEdges_nil (state : Nat) (result : RtcLts) : prependEdges state [] result = result := by
  rw [prependEdges]
  exact List.modify_id state result

/-- The node of a state knows the state. -/
def KnowsState (state : Nat) (result : RtcLts) : Prop := ∀ n ∈ result[state]?, n.node.state = state

theorem KnowsState.prepend {state : Nat} {result : RtcLts} (h : KnowsState state result)
    (new : List (Edge (List String))) : KnowsState state (prependEdges state new result) := by
  intro n hn
  rw [prependEdges, List.getElem?_modify_eq] at hn
  obtain ⟨n', hn', rfl⟩ := Option.map_eq_some_iff.1 hn
  exact h n' hn'

theorem addRtcEdge_eq {state : Nat} {result : RtcLts} (h : KnowsState state result) :
    addRtcEdge state t trail result = prependEdges state [⟨state, trail.reverse, t, false⟩] result := by
  apply List.ext_getElem?
  intro i
  unfold addRtcEdge prependEdges
  by_cases hi : state = i
  · subst hi
    rw [List.getElem?_modify_eq, List.getElem?_modify_eq]
    cases hn : result[state]? with
    | none => rfl
    | some n => simp [h n hn]
  · rw [List.getElem?_modify_ne _ _ hi, List.getElem?_modify_ne _ _ hi]

/-- A step adds an edge for each of its words. -/
theorem rtcStep_adds {state : Nat} : ∀ {fuel s trail result result'}, KnowsState state result →
    rtcStep lts state fuel s trail result = some result' → ∃ new, result' = prependEdges state new result ∧
      ∀ x, x ∈ new ↔ ∃ w j, RtcWord lts s trail w j ∧ x = ⟨state, w.reverse, j, false⟩ := by
  intro fuel
  induction fuel with
  | zero => intro s trail result result' _ h; cases h
  | succ fuel ih =>
    intro s trail result result' hk h
    rw [rtcStep] at h
    by_cases hend : rtcEnd lts s trail = true
    · rw [if_pos hend] at h
      obtain rfl := Option.some.inj h
      refine ⟨_, addRtcEdge_eq hk, fun x => ?_⟩
      rw [List.mem_singleton]
      constructor
      · intro hx
        exact ⟨trail, s, .stop hend, hx⟩
      · rintro ⟨w, j, hw, rfl⟩
        cases hw with
        | stop => rfl
        | step hnot => rw [hnot] at hend; cases hend
    · rw [if_neg hend] at h
      have hfold : ∀ (es : List (Edge String)) (result result' : RtcLts), KnowsState state result →
          es.foldlM (fun result edge => rtcStep lts state fuel edge.toState (extendTrail trail edge.label) result)
            result = some result' → ∃ new, result' = prependEdges state new result ∧
          ∀ x, x ∈ new ↔ ∃ e ∈ es, ∃ w j, RtcWord lts e.toState (extendTrail trail e.label) w j ∧
            x = ⟨state, w.reverse, j, false⟩ := by
        intro es
        induction es with
        | nil =>
          intro result result' _ h
          obtain rfl := Option.some.inj h
          exact ⟨[], (prependEdges_nil _ _).symm, by simp⟩
        | cons e es ihes =>
          intro result result' hk h
          rw [List.foldlM_cons] at h
          obtain ⟨result₁, h₁, h⟩ := Option.bind_eq_some_iff.1 h
          obtain ⟨new, rfl, hnew⟩ := ih hk h₁
          obtain ⟨new', rfl, hnew'⟩ := ihes _ result' (hk.prepend new) h
          refine ⟨new' ++ new, prependEdges_append _ _ _ _, fun x => ?_⟩
          rw [List.mem_append, hnew, hnew', List.exists_mem_cons_iff, or_comm]
      obtain ⟨new, hresult, hnew⟩ := hfold _ result result' hk h
      refine ⟨new, hresult, fun x => (hnew x).trans ?_⟩
      constructor
      · rintro ⟨e, he, w, j, hw, hx⟩
        exact ⟨w, j, .step (by simpa using hend) he hw, hx⟩
      · rintro ⟨w, j, hw, hx⟩
        cases hw with
        | stop hstop => exact absurd hstop hend
        | step _ he hw => exact ⟨_, he, w, j, hw, hx⟩

/-! ## No step goes on for ever -/

/-- Where a step runs out of fuel there is a path of that length none of whose beginnings ends it. -/
theorem rtcStep_none {state : Nat} : ∀ {fuel s trail result}, rtcStep lts state fuel s trail result = none →
    ∃ p t, Trace lts s p t ∧ p.length = fuel ∧ ∀ a b u, p = a ++ b → b ≠ [] → Trace lts s a u →
      rtcEnd lts u ((visible a).reverse ++ trail) = false := by
  intro fuel
  induction fuel with
  | zero =>
    intro s trail result _
    refine ⟨[], s, .nil s, rfl, fun a b u heq hb => ?_⟩
    exact absurd (List.append_eq_nil_iff.1 heq.symm).2 hb
  | succ fuel ih =>
    intro s trail result h
    rw [rtcStep] at h
    by_cases hend : rtcEnd lts s trail = true
    · rw [if_pos hend] at h
      cases h
    · rw [if_neg hend] at h
      have hfold : ∀ (es : List (Edge String)) (result : RtcLts),
          es.foldlM (fun result edge => rtcStep lts state fuel edge.toState (extendTrail trail edge.label) result)
            result = none → ∃ e ∈ es, ∃ result,
          rtcStep lts state fuel e.toState (extendTrail trail e.label) result = none := by
        intro es
        induction es with
        | nil => intro result h; cases h
        | cons e es ihes =>
          intro result h
          rw [List.foldlM_cons] at h
          cases h₁ : rtcStep lts state fuel e.toState (extendTrail trail e.label) result with
          | none => exact ⟨e, by simp, result, h₁⟩
          | some result₁ =>
            rw [h₁] at h
            obtain ⟨e', he', hnone⟩ := ihes result₁ h
            exact ⟨e', by simp [he'], hnone⟩
      obtain ⟨e, he, result₁, h₁⟩ := hfold _ _ h
      obtain ⟨p, t, hp, hlen, hnot⟩ := ih h₁
      refine ⟨e :: p, t, .cons ⟨he, rfl⟩ hp, by rw [List.length_cons, hlen], fun a b u heq hb ha => ?_⟩
      cases ha with
      | nil => simpa [visible] using hend
      | @cons _ v _ d a hd ha =>
        obtain ⟨rfl, hrest⟩ := List.cons.inj heq
        obtain ⟨-, rfl⟩ := hd
        have := hnot a b u hrest hb ha
        rwa [extendTrail_eq, ← List.append_assoc, ← List.reverse_append, ← visible_append] at this

/-- A path up to its first visible label. -/
theorem split_visible : ∀ p : List (Edge String), ∃ a b, p = a ++ b ∧
    (∀ e ∈ a, visibleLabel e.label = false) ∧ ∀ e ∈ b.head?, visibleLabel e.label = true := by
  intro p
  induction p with
  | nil => exact ⟨[], [], rfl, by simp, by simp⟩
  | cons e p ih =>
    by_cases hvis : visibleLabel e.label = true
    · exact ⟨[], e :: p, rfl, by simp, by simpa using hvis⟩
    · obtain ⟨a, b, rfl, ha, hb⟩ := ih
      exact ⟨e :: a, b, rfl, by simpa [hvis] using ha, hb⟩

/-- The states of a path are those of the vector. -/
theorem mem_range_of_trace (hw : WellFormed lts) (hs : s < lts.length) (h : Trace lts s p t) :
    t ∈ List.range lts.length :=
  List.mem_range.2 (h.closed (P := fun s => s < lts.length) (fun _ _ _ he _ => hw.lt_of_step he) hs)

theorem rtcStep_ends (hw : WellFormed lts) (hc : RtcCycles lts) (state : Nat) (hs : s < lts.length)
    (result : RtcLts) : ∃ result', rtcStep lts state (2 * lts.length + 1) s [] result = some result' := by
  cases h : rtcStep lts state (2 * lts.length + 1) s [] result with
  | some result' => exact ⟨result', rfl⟩
  | none =>
    exfalso
    obtain ⟨p, t, hp, hlen, hnot⟩ := rtcStep_none h
    -- the path up to the first visible label, and what comes after
    obtain ⟨a, b, hsplit, hhidden, hfirst⟩ := split_visible p
    subst hsplit
    obtain ⟨u, ha, hb⟩ := hp.of_append
    rw [List.length_append] at hlen
    by_cases hlong : lts.length ≤ a.length
    · -- a cycle without a visible label
      obtain ⟨x, c, y, v, rfl, hne, -, hcycle, -⟩ := ha.exists_cycle (U := List.range lts.length)
        (fun a' b' v heq hv _ => mem_range_of_trace hw hs hv) (by simpa using hlong)
      obtain ⟨e, he, hvis⟩ := (hc v c hne hcycle).1
      rw [hhidden e (by simp [he])] at hvis
      cases hvis
    · cases hb with
      | nil => rw [List.length_nil] at hlen; omega
      | @cons _ v _ e b he hb =>
        rw [List.length_cons] at hlen
        -- a cycle without a state of the result
        have hd : b = b.take lts.length ++ b.drop lts.length := (List.take_append_drop _ _).symm
        have hdlen : (b.take lts.length).length = lts.length := by rw [List.length_take]; omega
        have hrest : b.drop lts.length ≠ [] := by
          intro hnil
          have := congrArg List.length hnil
          rw [List.length_drop, List.length_nil] at this
          omega
        have hvis := hfirst e rfl
        generalize b.take lts.length = d at hd hdlen
        generalize b.drop lts.length = r at hd hrest
        subst hd
        obtain ⟨v', hd, -⟩ := hb.of_append
        have hv : v < lts.length := hw.lt_of_step he
        obtain ⟨x, c, y, w, rfl, hne, hx, hcycle, -⟩ := hd.exists_cycle (U := List.range lts.length)
          (fun a' b' v heq hv' _ => mem_range_of_trace hw hv hv') (by simp [hdlen])
        obtain ⟨f, hf, hrtc⟩ := (hc w c hne hcycle).2
        obtain ⟨c₁, c₂, rfl⟩ := List.append_of_mem hf
        obtain ⟨z, hc₁, hc₂⟩ := hcycle.of_append
        have hz : f.fromState = z := by
          cases hc₂ with
          | cons hf _ => exact hw.fromState z f hf.1
        rw [hz] at hrtc
        have hend := hnot (a ++ e :: (x ++ c₁)) (f :: c₂ ++ y ++ r) z (by simp) (by simp)
          (ha.append (.cons he (hx.append hc₁)))
        rw [List.append_nil] at hend
        have hne : visible (a ++ e :: (x ++ c₁)) ≠ [] := by
          have : e.label ∈ visible (a ++ e :: (x ++ c₁)) := by
            rw [visible, List.mem_filter]
            exact ⟨by simp, hvis⟩
          exact List.ne_nil_of_mem this
        rw [Bool.eq_false_iff, Ne, rtcEnd_iff] at hend
        exact hend ⟨hne, .inl hrtc⟩

/-! ## The result -/

/-- `node-edges` of a node of the result. -/
def RtcLts.edges (result : RtcLts) (i : Nat) : List (Edge (List String)) :=
  (result[i]?.map RtcNode.edges).getD []

/-- The nodes one after the other: each gets the edges of its words, the others stay. -/
theorem foldlM_rtcStep (hw : WellFormed lts) (hc : RtcCycles lts) : ∀ (l : List Nat), l.Nodup →
    (∀ i ∈ l, i < lts.length) → ∀ result : RtcLts,
    (∀ i ∈ l, result[i]? = some (clearNodeEdges (node lts i))) → ∃ result' : RtcLts,
    l.foldlM (fun result i =>
      if (node lts i).rtc then rtcStep lts (node lts i).state (2 * lts.length + 1) i [] result else some result)
      result = some result' ∧ (∀ i, i ∉ l → result'[i]? = result[i]?) ∧
    ∀ i ∈ l, ∃ es, result'[i]? = some ⟨(clearNodeEdges (node lts i)).node, es⟩ ∧
      ∀ x, x ∈ es ↔ (node lts i).rtc = true ∧ ∃ w j, RtcWord lts i [] w j ∧ x = ⟨i, w.reverse, j, false⟩ := by
  intro l
  induction l with
  | nil =>
    intro _ _ result _
    exact ⟨result, rfl, fun _ _ => rfl, fun i hi => by cases hi⟩
  | cons i l ih =>
    intro hnodup hl result hresult
    obtain ⟨hi, hnodup⟩ := List.nodup_cons.1 hnodup
    have hlt : i < lts.length := hl i (by simp)
    have hstate : (node lts i).state = i := hw.state i hlt
    -- the node itself
    have hone : ∃ result₁ : RtcLts, (if (node lts i).rtc then
        rtcStep lts (node lts i).state (2 * lts.length + 1) i [] result else some result) = some result₁ ∧
        (∀ k, k ≠ i → result₁[k]? = result[k]?) ∧
        ∃ es, result₁[i]? = some ⟨(clearNodeEdges (node lts i)).node, es⟩ ∧
          ∀ x, x ∈ es ↔ (node lts i).rtc = true ∧ ∃ w j, RtcWord lts i [] w j ∧ x = ⟨i, w.reverse, j, false⟩ := by
      by_cases hrtc : (node lts i).rtc = true
      · obtain ⟨result₁, h₁⟩ := rtcStep_ends hw hc (node lts i).state hlt result
        -- the node is in the result under its own number
        have hk : KnowsState (node lts i).state result := by
          intro n hn
          rw [hstate, hresult i (by simp)] at hn
          obtain rfl := Option.some.inj hn
          rfl
        obtain ⟨new, heq, hnew⟩ := rtcStep_adds hk h₁
        rw [hstate] at heq hnew
        refine ⟨result₁, by rw [if_pos hrtc, h₁], fun k hki => ?_, new, ?_, fun x => ?_⟩
        · rw [heq, prependEdges, List.getElem?_modify_ne _ _ (Ne.symm hki)]
        · rw [heq, prependEdges, List.getElem?_modify_eq, hresult i (by simp)]
          simp [clearNodeEdges]
        · rw [hnew]
          simp [hrtc]
      · exact ⟨result, by rw [if_neg hrtc], fun _ _ => rfl, [], hresult i (by simp), by simp [hrtc]⟩
    obtain ⟨result₁, h₁, hother, es, hes, hmem⟩ := hone
    obtain ⟨result', h', hrest, hl'⟩ := ih hnodup (fun k hk => hl k (by simp [hk])) result₁ fun k hk => by
      have hki : k ≠ i := by
        rintro rfl
        exact hi hk
      rw [hother k hki]
      exact hresult k (by simp [hk])
    refine ⟨result', by rw [List.foldlM_cons, h₁]; exact h', fun k hk => ?_, fun k hk => ?_⟩
    · rw [List.mem_cons, not_or] at hk
      rw [hrest k hk.2, hother k hk.1]
    · rcases List.mem_cons.1 hk with rfl | hk
      · exact ⟨es, by rw [hrest k hi, hes], hmem⟩
      · exact hl' k hk

/-- `lts->rtc-lts` ends, and a state of its result has an edge for every path that is one step. -/
theorem ltsRtc_edges (hw : WellFormed lts) (hc : RtcCycles lts) : ∃ result, ltsRtc lts = some result ∧
    (∀ i, i < lts.length → ∃ n ∈ result[i]?, n.node = (clearNodeEdges (node lts i)).node) ∧
    (∀ i, ∀ e ∈ result.edges i, e.fromState = i) ∧
    ∀ i j w, (∃ e ∈ result.edges i, e.label = w ∧ e.toState = j) ↔
      (node lts i).rtc = true ∧ RtcPath lts i w j := by
  obtain ⟨result, hresult, hother, hnodes⟩ := foldlM_rtcStep hw hc (List.range lts.length) List.nodup_range
    (fun i hi => List.mem_range.1 hi) (lts.map clearNodeEdges) fun i hi => by
      have hi := List.mem_range.1 hi
      rw [List.getElem?_map, List.getElem?_eq_getElem hi, node_eq hi]
      rfl
  have hedges : ∀ i x, x ∈ result.edges i ↔
      (node lts i).rtc = true ∧ ∃ w j, RtcWord lts i [] w j ∧ x = ⟨i, w.reverse, j, false⟩ := by
    intro i x
    by_cases hi : i < lts.length
    · obtain ⟨es, hes, hmem⟩ := hnodes i (List.mem_range.2 hi)
      rw [RtcLts.edges, hes]
      exact hmem x
    · have hnone : (lts.map clearNodeEdges)[i]? = none := List.getElem?_eq_none (by simpa using hi)
      have hrtc : (node lts i).rtc = false := by rw [Node.rtc, node_of_le (by omega)]; rfl
      rw [RtcLts.edges, hother i (by simpa using hi), hnone, hrtc]
      simp
  refine ⟨result, hresult, fun i hi => ?_, fun i e he => ?_, fun i j w => ?_⟩
  · obtain ⟨es, hes, -⟩ := hnodes i (List.mem_range.2 hi)
    exact ⟨_, hes, rfl⟩
  · obtain ⟨-, w, j, -, rfl⟩ := (hedges i e).1 he
    rfl
  · constructor
    · rintro ⟨e, he, rfl, rfl⟩
      obtain ⟨hrtc, w, j, hword, rfl⟩ := (hedges i e).1 he
      exact ⟨hrtc, rtcWord_iff.1 hword⟩
    · rintro ⟨hrtc, hpath⟩
      rw [← List.reverse_reverse w] at hpath
      refine ⟨⟨i, w, j, false⟩, (hedges i _).2 ⟨hrtc, w.reverse, j, rtcWord_iff.2 hpath, ?_⟩, rfl, rfl⟩
      rw [List.reverse_reverse]

end

/-- `0 -'state(0)-> 0`, `0 -a-> 1`, `1 -tau-> 2`, `2 -b-> 0`: one step from `0` has the labels `a` and `b`. -/
def stepsAut : Aut :=
  ⟨0, 3, [makeEdge 0 "p'state(0)" 0 false, makeEdge 0 "a" 1 false, makeEdge 1 "tau" 2 false,
    makeEdge 2 "b" 0 false], Aut.three_pos, by decide⟩

def stepsLts : Lts := (constructLts stepsAut).getD []

theorem rtcCycles_steps : WellFormed stepsLts ∧ RtcCycles stepsLts := by
  obtain ⟨lts, h, -, hw, -⟩ := constructLts_annotated stepsAut
  obtain rfl : stepsLts = lts := by rw [stepsLts, h]; rfl
  refine ⟨hw, ?_⟩
  have hlen : stepsLts.length = 3 := by decide
  have hrank : ∀ s, s < 3 → ∀ e ∈ (node stepsLts s).edges, visibleLabel e.label = true ∧
      (node stepsLts e.fromState).rtc = true ∨ (3 - e.toState) % 3 < (3 - s) % 3 := by decide
  have hcycle : ∀ s e t, Step stepsLts s e t →
      ¬ (visibleLabel e.label = true ∧ (node stepsLts e.fromState).rtc = true) → (3 - t) % 3 < (3 - s) % 3 := by
    rintro s e t ⟨he, rfl⟩ hnot
    by_cases hs : s < 3
    · exact (hrank s hs e he).resolve_left hnot
    · rw [node_of_le (by omega)] at he
      cases he
  intro s c hne hc
  obtain ⟨e, he, hvis, hrtc⟩ := hc.exists_of_rank _ hcycle hne
  exact ⟨⟨e, he, hvis⟩, e, he, hrtc⟩

theorem ltsRtc_edges_steps : ∃ result, ltsRtc stepsLts = some result ∧
    (∀ i, i < stepsLts.length → ∃ n ∈ result[i]?, n.node = (clearNodeEdges (node stepsLts i)).node) ∧
    (∀ i, ∀ e ∈ result.edges i, e.fromState = i) ∧
    ∀ i j w, (∃ e ∈ result.edges i, e.label = w ∧ e.toState = j) ↔
      (node stepsLts i).rtc = true ∧ RtcPath stepsLts i w j :=
  ltsRtc_edges rtcCycles_steps.1 rtcCycles_steps.2

example : (ltsRtc stepsLts).map (fun result => (result.edges 0).map fun e => (e.label, e.toState)) =
    some [(["p'state(0)"], 0), (["a", "b"], 0)] := by decide

end Dezyne
