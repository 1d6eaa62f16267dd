import Dezyne.PortLabel
import Dezyne.Shared
/-!
# Running the switch

The generated struct of an interface has a state and the variables of the
interface. After each event the runtime has it look up the event and the state
in the switch, which assigns them. Along a path of the LTS the state is that of
the path, and the variables are those of the last state that shows them.
-/

namespace Dezyne

open Lts

/-! ## The generated code -/

/-- `string-trim` -/
def stringTrim (s : List Char) : List Char := stringTrimRight (s.dropWhile charWhitespace)

/-- `<shared-state>`, with the variables and the values of its assigns. -/
structure SharedState where
  state : Nat
  assign : List (List Char × List Char)

/-- `state?` of `code:shared-state` -/
def sharedStateText (label : List Char) : Option (List Char) := (stateRegexp1 label).or (stateRegexp2 label)

/-- `edge->assign` -/
def edgeAssign (variableNames : List (List Char)) (edge : Edge String) : Option SharedState :=
  if variableNames = [] then none
  else (sharedStateText edge.label.toList).map fun state =>
    let values := ((variableValueRegexp state).map fun values => values.splitOn ',').getD []
    ⟨edge.fromState, variableNames.zip (values.map stringTrim)⟩

/-- `code:shared-state` -/
def codeSharedState (variableNames : List (List Char)) (lts : Lts) : List SharedState :=
  (lts.flatMap Node.edges).filterMap (edgeAssign variableNames)

/-- `code:shared-value`, where the type infix is that of C++. -/
def codeSharedValue (value : List Char) : List Char :=
  value.flatMap fun c => if c = '\'' then [':', ':'] else [c]

/-- A case of the switch: its label, what it assigns to the state, and to variables. -/
structure SwitchCase where
  label : Int
  state : Int32
  assignments : List (List Char × List Char)

/-- `event->sm:switch-case` -/
def eventSwitchCase (interfaceShared : List SharedState) (transition : Edge String) : SwitchCase :=
  let assignments := (interfaceShared.find? fun shared => shared.state = transition.toState).map SharedState.assign
  ⟨caseLabel transition, Int32.ofNat transition.toState,
    (assignments.getD []).map fun a => (a.1, codeSharedValue a.2)⟩

/-- An interface: its name, its events and its variables. -/
structure PortInterface where
  name : FullName
  inEvents : List Name
  outEvents : List Name
  vars : List Name

/-- The names of the events. -/
def PortInterface.events (i : PortInterface) : List String :=
  (i.inEvents ++ i.outEvents).map fun n => String.ofList n.val

/-- The names of the variables. -/
def PortInterface.variableNames (i : PortInterface) : List (List Char) := i.vars.map Name.val

/-- The cases of the switch in `dzn_update_state`; `none` is an error of the generator. -/
def interfaceCases (i : PortInterface) (lts : Lts) : Option (List SwitchCase) :=
  (eventTransitions i.events lts).map fun transitions =>
    (switchTransitions transitions).map (eventSwitchCase (codeSharedState i.variableNames lts))

/-! ## The runtime -/

/-- The members of the generated struct, and whether the illegal handler was called. -/
structure PortState where
  dznShareP : Bool
  dznLabel : Option String
  dznState : Int32
  vars : List (List Char × List Char)
  illegalHandled : Bool

/-- An assignment to a member. -/
def assignVariable (vars : List (List Char × List Char)) (a : List Char × List Char) :
    List (List Char × List Char) :=
  vars.map fun v => if v.1 = a.1 then a else v

/-- `dzn_event` -/
def PortState.dznEvent (event : String) (p : PortState) : PortState :=
  if p.dznShareP then { p with dznLabel := some event } else p

/-- `dzn_update_state` -/
def PortState.dznUpdateState (cases : List SwitchCase) (p : PortState) : PortState :=
  match p.dznShareP, p.dznLabel with
  | true, some label =>
    match cases.find? fun c => c.label = ((Runtime.hash label p.dznState.toUInt32).toNat : Int) with
    | some c => { p with dznState := c.state, vars := c.assignments.foldl assignVariable p.vars }
    | none => { p with illegalHandled := true }
  | _, _ => p

/-- What happens at a label of a path. -/
def PortState.runLabel (cases : List SwitchCase) (p : PortState) (label : PortLabel) : PortState :=
  match label.runtime with
  | some event => (p.dznEvent (String.ofList event)).dznUpdateState cases
  | none => p

/-- What happens along the labels of a path. -/
def PortState.run (cases : List SwitchCase) (p : PortState) (labels : List PortLabel) : PortState :=
  labels.foldl (PortState.runLabel cases) p

/-! ## The LTS of an interface -/

/-- A label in the LTS. -/
def PortInterface.label (i : PortInterface) (l : PortLabel) : String := String.ofList (l.text i.name)

/-- The label is one of the interface. -/
def PortInterface.Has (i : PortInterface) : PortLabel → Prop
  | .event (.trigger n) => n ∈ i.inEvents
  | .event (.action n) => n ∈ i.outEvents
  | .state values => values.length = i.vars.length
  | _ => True

/-- The values of the variables, as C++ has them. -/
def PortInterface.values (i : PortInterface) (values : List PortValue) : List (List Char × List Char) :=
  i.variableNames.zip (values.map fun v => codeSharedValue v.text)

/-- An LTS of an interface. -/
structure InterfaceLts (i : PortInterface) (lts : Lts) : Prop where
  wellFormed : WellFormed lts
  events : i.inEvents ++ i.outEvents ≠ []
  disjoint : ∀ n ∈ i.inEvents, ∀ m ∈ i.outEvents, n.val ≠ m.val
  vars : i.variableNames.Nodup
  label : ∀ s, ∀ e ∈ (node lts s).edges, ∃ l, e.label = i.label l ∧ i.Has l
  -- what leaves a state are replies of one type
  reply : ∀ s, ∀ e ∈ (node lts s).edges, ∀ e' ∈ (node lts s).edges, ∀ a a' : PortEvent,
    e.label = i.label (.event a) → e'.label = i.label (.event a') → a.kind = a'.kind →
    a.constructor i.name = a'.constructor i.name

/-- A state shows values of the variables. -/
def ShowsState (i : PortInterface) (lts : Lts) (s : Nat) (values : List PortValue) : Prop :=
  ∃ e ∈ (node lts s).edges, e.label = i.label (.state values) ∧ i.Has (.state values)

/-- The values of the last state of a path that shows values. -/
inductive LastShown (i : PortInterface) (lts : Lts) : List (Edge String) → List PortValue → Prop where
  | init {values : List PortValue} (h : ShowsState i lts lts.initial values) : LastShown i lts [] values
  | shown {path : List (Edge String)} {e : Edge String} {values : List PortValue} (h : ShowsState i lts e.toState values) :
    LastShown i lts (path ++ [e]) values
  | kept {path : List (Edge String)} {e : Edge String} {values : List PortValue} (h : LastShown i lts path values)
    (hno : ∀ values', ¬ ShowsState i lts e.toState values') : LastShown i lts (path ++ [e]) values

/-- A state that can be kept: its number is an `int`, and it shows its values once. -/
def Kept (i : PortInterface) (lts : Lts) (s : Nat) : Prop :=
  s < 2 ^ 31 ∧ ∀ values values', ShowsState i lts s values → ShowsState i lts s values' →
    values.map PortValue.text = values'.map PortValue.text

/-- Nothing in the payload of an event is taken for a flush. -/
def FlushFree (i : PortInterface) (label : String) : Prop :=
  ∀ a : PortEvent, label = i.label (.event a) → flushRegexp (a.payload i.name) = none

/-- A step that the switch follows. -/
structure Followed (i : PortInterface) (lts : Lts) (e : Edge String) : Prop where
  kept : Kept i lts e.toState
  -- showing a state does not leave it
  state : ∀ values, e.label = i.label (.state values) → e.toState = e.fromState
  event : FlushFree i e.label
  -- a flush is not mixed up with another edge
  flush : e.label = i.label .flush → ∀ e' ∈ (node lts e.fromState).edges, FlushFree i e'.label

/-- A step that does not enter an illegal state. -/
def LegalEdge (lts : Lts) (e : Edge String) : Prop :=
  e.label ≠ "declarative_illegal" ∧ e.toState ∉ illegalNodeIds (lts.flatMap Node.edges)

/-- The values with which the struct starts: those of the initial state, when it shows values. -/
def StartsWith (i : PortInterface) (lts : Lts) (vars : List (List Char × List Char)) : Prop :=
  vars.map Prod.fst = i.variableNames ∧ ∀ values, ShowsState i lts lts.initial values → vars = i.values values

/-- The struct after its constructor, with the values of its variables. -/
def initialPort (lts : Lts) (vars : List (List Char × List Char)) : PortState :=
  ⟨true, some "", Int32.ofNat lts.initial, vars, false⟩

/-! ## The edges -/

section
variable {i : PortInterface} {lts : Lts} {e : Edge String} {l : PortLabel} {a : PortEvent} {s : Nat}

theorem toList_label (i : PortInterface) (l : PortLabel) : (i.label l).toList = l.text i.name :=
  String.toList_ofList

theorem label_illegal (i : PortInterface) : i.label .illegal = "declarative_illegal" := rfl

theorem mem_edges (h : WellFormed lts) : e ∈ lts.flatMap Node.edges ↔ e ∈ (node lts e.fromState).edges := by
  rw [flatMap_edges, List.mem_flatMap]
  constructor
  · rintro ⟨s, -, he⟩
    rw [h.fromState s e he]
    exact he
  · intro he
    refine ⟨e.fromState, List.mem_range.2 (Nat.lt_of_not_le fun hle => ?_), he⟩
    rw [node_of_le hle] at he
    cases he

theorem sharedStateText_state (i : PortInterface) (values : List PortValue) :
    sharedStateText (i.label (.state values)).toList = some (statePayload i.name values) := by
  rw [toList_label]
  exact stateRegexp_state i.name values

theorem sharedStateText_event (i : PortInterface) (a : PortEvent) :
    stateRegexp1 (i.label (.event a)).toList = none ∧ stateRegexp2 (i.label (.event a)).toList = none := by
  rw [toList_label, stateRegexp1_eq, stateRegexp2_eq, stateRegexp_event, stateRegexp_event]
  exact ⟨rfl, rfl⟩

theorem stateRegexp_no_paren {t : List Char}
    (ht : '(' ∉ t) : stateRegexp1 t = none ∧ stateRegexp2 t = none := by
  rw [stateRegexp1_eq, stateRegexp2_eq, regexpGroup_no_paren ht, regexpGroup_no_paren ht]
  exact ⟨rfl, rfl⟩

/-- Only a state label has a state. -/
theorem stateRegexp_of_not_state (i : PortInterface) (hl : ∀ values, l ≠ .state values) :
    stateRegexp1 (i.label l).toList = none ∧ stateRegexp2 (i.label l).toList = none := by
  cases l with
  | event a => exact sharedStateText_event i a
  | flush =>
    rw [toList_label]
    exact stateRegexp_no_paren (not_mem_flushText (by decide) (by decide))
  | state values => exact absurd rfl (hl values)
  | illegal =>
    rw [label_illegal]
    exact stateRegexp_no_paren (by decide)

theorem sharedStateLabel_label (i : PortInterface) (l : PortLabel) :
    sharedStateLabel (i.label l) = true ↔ ∃ values, l = .state values := by
  constructor
  · intro h
    by_contra hno
    obtain ⟨h1, h2⟩ := stateRegexp_of_not_state (l := l) i (not_exists.1 hno)
    rw [sharedStateLabel, h1, h2] at h
    cases h
  · rintro ⟨values, rfl⟩
    have h := sharedStateText_state i values
    unfold sharedStateText at h
    unfold sharedStateLabel
    obtain h | ⟨-, h⟩ := Option.or_eq_some_iff.1 h
    · rw [h]
      simp
    · rw [h]
      rfl

theorem edgeTransition_event (hl : e.label = i.label (.event a))
    (hflush : flushRegexp (a.payload i.name) = none) :
    edgeTransition e = some { e with label := String.ofList a.runtime } := by
  unfold edgeTransition
  rw [hl, toList_label, labelEvent_event, Option.bind_eq_bind, Option.bind_some, eventPrefix_event _ _ hflush]
  rfl

/-- What the generator calls a flush. -/
def flushTransition : String := String.ofList ['<', 'f', 'l', 'u', 's', 'h', '>']

theorem edgeTransition_taken (hl : e.label = i.label (.event a))
    (hflush : flushRegexp (a.payload i.name) ≠ none) :
    edgeTransition e = some { e with label := flushTransition } := by
  unfold edgeTransition
  rw [hl, toList_label, labelEvent_event, Option.bind_eq_bind, Option.bind_some, eventPrefix_of_flush hflush]
  rfl

theorem edgeTransition_flush (hl : e.label = i.label .flush) :
    edgeTransition e = some { e with label := flushTransition } := by
  have hflush : flushRegexp "'flush".toList ≠ none := by decide
  unfold edgeTransition
  rw [hl, toList_label, labelEvent_flush, Option.bind_eq_bind, Option.bind_some, eventPrefix_of_flush hflush]
  rfl

/-! ## The transitions -/

theorem mem_sharedEdges (h : WellFormed lts) : e ∈ sharedEdges lts ↔ e ∈ (node lts e.fromState).edges ∧
    e.toState ∉ illegalNodeIds (lts.flatMap Node.edges) ∧ sharedStateLabel e.label = false ∧
    e.label ≠ "declarative_illegal" := by
  unfold sharedEdges
  rw [List.mem_filter, List.mem_filter, mem_edges h]
  simp [and_assoc]

/-- The edges that a transition is made of have events. -/
theorem edgeTransition_shared (h : InterfaceLts i lts) (he : e ∈ sharedEdges lts) :
    (∃ a, e.label = i.label (.event a) ∧ i.Has (.event a)) ∨ e.label = i.label .flush := by
  obtain ⟨hmem, -, hstate, hillegal⟩ := (mem_sharedEdges h.wellFormed).1 he
  obtain ⟨l, hl, hhas⟩ := h.label _ e hmem
  rw [hl] at hstate hillegal
  cases l with
  | event a => exact .inl ⟨a, hl, hhas⟩
  | flush => exact .inr hl
  | state values =>
    rw [(sharedStateLabel_label i (.state values)).2 ⟨values, rfl⟩] at hstate
    cases hstate
  | illegal => exact absurd rfl hillegal

/-- A transition of an event has what the runtime calls it, unless it is taken for a flush. -/
theorem label_of_edgeTransition {t : Edge String} (h : InterfaceLts i lts) (he : e ∈ sharedEdges lts)
    (ht : edgeTransition e = some t) : t.fromState = e.fromState ∧ t.toState = e.toState ∧
      ((∃ a, e.label = i.label (.event a) ∧ i.Has (.event a) ∧ t.label = String.ofList a.runtime) ∨
        t.label = flushTransition ∧ (e.label = i.label .flush ∨ ¬ FlushFree i e.label)) := by
  obtain ⟨a, ha, hhas⟩ | hflush := edgeTransition_shared h he
  · by_cases hfree : flushRegexp (a.payload i.name) = none
    · rw [edgeTransition_event ha hfree] at ht
      obtain rfl := Option.some.inj ht
      exact ⟨rfl, rfl, .inl ⟨a, ha, hhas, rfl⟩⟩
    · rw [edgeTransition_taken ha hfree] at ht
      obtain rfl := Option.some.inj ht
      exact ⟨rfl, rfl, .inr ⟨rfl, .inr fun hall => hfree (hall a ha)⟩⟩
  · rw [edgeTransition_flush hflush] at ht
    obtain rfl := Option.some.inj ht
    exact ⟨rfl, rfl, .inr ⟨rfl, .inl hflush⟩⟩

/-- The transitions are those of the edges. -/
theorem mem_eventTransitions {transitions : List (Edge String)} (h : InterfaceLts i lts)
    (ht : eventTransitions i.events lts = some transitions) (t : Edge String) :
    t ∈ transitions ↔ ∃ e ∈ sharedEdges lts, edgeTransition e = some t := by
  unfold eventTransitions at ht
  obtain ⟨ls, hls, rfl⟩ := Option.map_eq_some_iff.1 ht
  have hmem := SharedComponent.mem_of_mapM hls
  rw [List.mem_flatten]
  constructor
  · rintro ⟨l, hl, htl⟩
    obtain ⟨-, -, hshared⟩ := (hmem l).1 hl
    exact (SharedComponent.mem_of_mapM hshared t).1 htl
  · rintro ⟨e, he, het⟩
    have hevents : i.events ≠ [] := by
      unfold PortInterface.events
      rw [Ne, List.map_eq_nil_iff]
      exact h.events
    obtain ⟨name, hname⟩ := List.exists_mem_of_ne_nil _ hevents
    obtain ⟨name', rest, hcons⟩ := List.exists_cons_of_ne_nil hevents
    rw [hcons, List.mapM_cons] at hls
    obtain ⟨l, hl, -⟩ := Option.bind_eq_some_iff.1 hls
    exact ⟨l, (hmem l).2 ⟨name, hname, hl⟩, (SharedComponent.mem_of_mapM hl t).2 ⟨e, he, het⟩⟩

/-- The generator has no error for an LTS of an interface. -/
theorem exists_interfaceCases (h : InterfaceLts i lts) : ∃ cases, interfaceCases i lts = some cases := by
  have hsome : ∀ l : List (Edge String), l ⊆ sharedEdges lts → ∃ ts, l.mapM edgeTransition = some ts := by
    intro l
    induction l with
    | nil => exact fun _ => ⟨[], rfl⟩
    | cons e l ih =>
      intro hsub
      rw [List.cons_subset] at hsub
      obtain ⟨ts, hts⟩ := ih hsub.2
      have hedge : ∃ t, edgeTransition e = some t := by
        obtain ⟨a, ha, -⟩ | hflush := edgeTransition_shared h hsub.1
        · by_cases hfree : flushRegexp (a.payload i.name) = none
          · exact ⟨_, edgeTransition_event ha hfree⟩
          · exact ⟨_, edgeTransition_taken ha hfree⟩
        · exact ⟨_, edgeTransition_flush hflush⟩
      obtain ⟨t, ht⟩ := hedge
      exact ⟨t :: ts, by rw [List.mapM_cons, ht, hts]; rfl⟩
  obtain ⟨ts, hts⟩ := hsome (sharedEdges lts) (List.Subset.refl _)
  have hevents : ∀ events : List String, ∃ ls, (events.mapM fun _ => codeShared lts) = some ls := by
    intro events
    induction events with
    | nil => exact ⟨[], rfl⟩
    | cons name events ih =>
      obtain ⟨ls, hls⟩ := ih
      exact ⟨ts :: ls, by rw [List.mapM_cons, codeShared, hts]; rw [codeShared, hts] at hls; rw [hls]; rfl⟩
  obtain ⟨ls, hls⟩ := hevents i.events
  exact ⟨_, by rw [interfaceCases, eventTransitions, hls]; rfl⟩

end

/-! ## The values of a state -/

section
variable {i : PortInterface} {lts : Lts} {e : Edge String} {s : Nat}

theorem toNat_of_isAlpha {c : Char} (h : c.isAlpha = true) :
    (65 ≤ c.toNat ∧ c.toNat ≤ 90) ∨ (97 ≤ c.toNat ∧ c.toNat ≤ 122) := by
  rcases Bool.or_eq_true_iff.1 h with hupper | hlower
  · exact .inl (of_decide_eq_true hupper)
  · obtain ⟨hlow, hhigh⟩ := Bool.and_eq_true_iff.1 hlower
    exact .inr ⟨of_decide_eq_true hlow, of_decide_eq_true hhigh⟩

theorem toNat_of_identifierRest {c : Char} (h : identifierRest c = true) : 48 ≤ c.toNat ∧ c.toNat ≤ 122 := by
  simp only [identifierRest, Char.isAlphanum, Bool.or_eq_true, decide_eq_true_eq] at h
  rcases h with (halpha | hdigit) | rfl
  · have := toNat_of_isAlpha halpha
    omega
  · obtain ⟨hlow, hhigh⟩ : 48 ≤ c.toNat ∧ c.toNat ≤ 57 := Char.isDigit_iff_toNat.1 hdigit
    omega
  · decide

theorem charWhitespace_of_text {c : Char} {v : PortValue} (hc : c ∈ v.text) : charWhitespace c = false := by
  by_contra hspace
  rw [Bool.not_eq_false] at hspace
  have hrange : c.toNat ≤ 32 ∨ 160 ≤ c.toNat := by
    simp only [charWhitespace, decide_eq_true_eq, List.mem_cons, List.not_mem_nil, or_false] at hspace
    omega
  refine not_mem_valueText ?_ ?_ ?_ hc
  · by_contra hrest
    rw [Bool.not_eq_false] at hrest
    have h := toNat_of_identifierRest hrest
    omega
  · rintro rfl
    exact absurd hspace (by decide)
  · rintro rfl
    exact absurd hspace (by decide)

theorem stringTrim_text {w : List Char} (hw : ∀ c ∈ w, charWhitespace c = true) (v : PortValue) :
    stringTrim (w ++ v.text) = v.text := by
  have hno : ∀ c ∈ v.text, ¬ charWhitespace c = true := fun c hc => by
    rw [charWhitespace_of_text hc]
    exact Bool.false_ne_true
  have hleft : v.text.dropWhile charWhitespace = v.text := by
    cases ht : v.text with
    | nil => rfl
    | cons c t => exact List.dropWhile_cons_of_neg (hno c (by rw [ht]; exact List.mem_cons_self))
  unfold stringTrim stringTrimRight
  rw [List.dropWhile_append_of_pos hw, hleft, List.rdropWhile_eq_self_iff]
  exact fun hne => hno _ (List.getLast_mem hne)

/-- The values are read back. -/
theorem splitOn_valuesText {w : List Char} (hw : (∀ c ∈ w, charWhitespace c = true) ∧ ',' ∉ w) (v : PortValue)
    (values : List PortValue) : ((w ++ valuesText (v :: values)).splitOn ',').map stringTrim =
      (v :: values).map PortValue.text := by
  induction values generalizing w v with
  | nil =>
    have hcomma : ',' ∉ w ++ v.text := by
      rw [List.mem_append, not_or]
      exact ⟨hw.2, not_mem_valueText (by decide) (by decide) (by decide)⟩
    have htext : valuesText [v] = v.text := by simp [valuesText]
    rw [htext, List.splitOn_eq_singleton hcomma, List.map_singleton, stringTrim_text hw.1]
    rfl
  | cons v' values ih =>
    have hcomma : ',' ∉ w ++ v.text := by
      rw [List.mem_append, not_or]
      exact ⟨hw.2, not_mem_valueText (by decide) (by decide) (by decide)⟩
    have hsplit : w ++ valuesText (v :: v' :: values) = (w ++ v.text) ++ ',' :: ([' '] ++ valuesText (v' :: values)) := by
      simp [valuesText, List.intercalate_cons_cons]
    have hrest := ih (w := [' ']) ⟨by decide, by decide⟩ v'
    rw [hsplit, List.splitOn_append_cons_self, List.map_append, hrest, List.splitOn_eq_singleton hcomma,
      List.map_singleton, stringTrim_text hw.1]
    rfl

/-- What a state label assigns. -/
theorem edgeAssign_state {names : List (List Char)} (hne : names ≠ []) {values : List PortValue}
    (hl : e.label = i.label (.state values)) :
    edgeAssign names e = some ⟨e.fromState, names.zip (values.map PortValue.text)⟩ := by
  unfold edgeAssign
  rw [if_neg hne, hl, sharedStateText_state, Option.map_some]
  simp only [variableValueRegexp_state]
  cases values with
  | nil => simp
  | cons v values =>
    have hread := splitOn_valuesText (w := []) ⟨by simp, by simp⟩ v values
    rw [List.nil_append] at hread
    simp only [if_neg (List.cons_ne_nil v values), Option.map_some, Option.getD_some, hread]

theorem edgeAssign_of_not_state {names : List (List Char)} {l : PortLabel} (hl : e.label = i.label l)
    (hno : ∀ values, l ≠ .state values) : edgeAssign names e = none := by
  obtain ⟨h1, h2⟩ := stateRegexp_of_not_state i hno
  unfold edgeAssign sharedStateText
  rw [hl, h1, h2]
  split <;> rfl

/-- The shared state that is found for a state has its values. -/
theorem find_codeSharedState (h : InterfaceLts i lts) (hne : i.variableNames ≠ []) (hkept : Kept i lts s) :
    (∀ values, ShowsState i lts s values → ((codeSharedState i.variableNames lts).find? fun shared => shared.state = s).map
      SharedState.assign = some (i.variableNames.zip (values.map PortValue.text))) ∧
    ((∀ values, ¬ ShowsState i lts s values) →
      ((codeSharedState i.variableNames lts).find? fun shared => shared.state = s) = none) := by
  have hof : ∀ shared ∈ codeSharedState i.variableNames lts, shared.state = s →
      ∃ values, ShowsState i lts s values ∧ shared.assign = i.variableNames.zip (values.map PortValue.text) := by
    intro shared hmem hstate
    obtain ⟨e, he, hassign⟩ := List.mem_filterMap.1 hmem
    have hnode := (mem_edges h.wellFormed).1 he
    obtain ⟨l, hl, hhas⟩ := h.label _ e hnode
    by_cases hl' : ∃ values, l = .state values
    · obtain ⟨values, rfl⟩ := hl'
      rw [edgeAssign_state hne hl] at hassign
      obtain rfl := Option.some.inj hassign
      obtain rfl : e.fromState = s := hstate
      exact ⟨values, ⟨e, hnode, hl, hhas⟩, rfl⟩
    · rw [edgeAssign_of_not_state hl (not_exists.1 hl')] at hassign
      cases hassign
  constructor
  · rintro values ⟨e, he, hl, hhas⟩
    have hfrom := h.wellFormed.fromState s e he
    have hmem : ⟨e.fromState, i.variableNames.zip (values.map PortValue.text)⟩ ∈ codeSharedState i.variableNames lts := by
      refine List.mem_filterMap.2 ⟨e, (mem_edges h.wellFormed).2 ?_, edgeAssign_state hne hl⟩
      rw [hfrom]
      exact he
    cases hfind : (codeSharedState i.variableNames lts).find? fun shared => shared.state = s with
    | none => exact absurd hfrom (by simpa using List.find?_eq_none.1 hfind _ hmem)
    | some shared =>
      have hstate := List.find?_some hfind
      obtain ⟨values', hshows, hassign⟩ := hof shared (List.mem_of_find?_eq_some hfind) (by simpa using hstate)
      rw [Option.map_some, hassign, hkept.2 values' values hshows ⟨e, he, hl, hhas⟩]
  · intro hno
    rw [List.find?_eq_none]
    intro shared hmem hstate
    obtain ⟨values, hshows, -⟩ := hof shared hmem (by simpa using hstate)
    exact hno values hshows

end

/-! ## What the runtime calls an event -/

section
variable {i : PortInterface} {lts : Lts} {e : Edge String} {a a' : PortEvent} {v : PortValue} {n m : Name} {s : Nat}

theorem isDigit_of_mem_integerText {c : Char} {k : Int} (hc : c ∈ integerText k) :
    c.isDigit = true ∨ c = '-' := by
  cases k with
  | ofNat k => exact .inl (isDigit_of_mem_numberString hc)
  | negSucc k =>
    obtain rfl | hc := List.mem_cons.1 hc
    · exact .inr rfl
    · exact .inl (isDigit_of_mem_numberString hc)

theorem identifierRest_of_isDigit {c : Char} (hc : c.isDigit = true) : identifierRest c = true := by
  unfold identifierRest Char.isAlphanum
  rw [hc]
  simp

/-- The characters of what the runtime calls an event. -/
theorem mem_runtime {c : Char} (hc : c ∈ a.runtime) : identifierRest c = true ∨ c = ':' ∨ c = '-' := by
  cases a with
  | trigger n => exact .inl (identifierRest_of_mem hc)
  | action n => exact .inl (identifierRest_of_mem hc)
  | void =>
    have hall : ∀ d ∈ PortEvent.void.runtime, identifierRest d = true := by decide
    exact .inl (hall c hc)
  | value v =>
    cases v with
    | bool b =>
      have hall : ∀ d ∈ (PortEvent.value (.bool b)).runtime, identifierRest d = true := by cases b <;> decide
      exact .inl (hall c hc)
    | int k =>
      obtain hc | rfl := isDigit_of_mem_integerText hc
      · exact .inl (identifierRest_of_isDigit hc)
      · exact .inr (.inr rfl)
    | enum type field =>
      obtain hc | hc := List.mem_append.1 hc
      · exact .inl (identifierRest_of_mem hc)
      · obtain rfl | hc := List.mem_cons.1 hc
        · exact .inr (.inl rfl)
        · exact .inl (identifierRest_of_mem hc)

theorem runtime_ascii (a : PortEvent) : AsciiText (String.ofList a.runtime) ∧
    '\x00' ∉ (String.ofList a.runtime).toList := by
  rw [AsciiText, String.toList_ofList]
  constructor
  · intro c hc
    obtain h | rfl | rfl := mem_runtime hc
    · have hrange := toNat_of_identifierRest h
      unfold IsAscii
      omega
    · unfold IsAscii
      decide
    · unfold IsAscii
      decide
  · intro hc
    obtain h | h | h := mem_runtime hc
    · exact absurd h (by decide)
    · exact absurd h (by decide)
    · exact absurd h (by decide)

theorem runtime_ne_flush (a : PortEvent) : String.ofList a.runtime ≠ flushTransition := by
  intro heq
  have hlist : a.runtime = ['<', 'f', 'l', 'u', 's', 'h', '>'] := String.ofList_injective heq
  have hmem : '<' ∈ a.runtime := by rw [hlist]; exact List.mem_cons_self
  obtain h | h | h := mem_runtime hmem
  · exact absurd h (by decide)
  · exact absurd h (by decide)
  · exact absurd h (by decide)

theorem Name.eq_of_val (h : n.val = m.val) : n = m := by
  cases n
  cases m
  cases h
  rfl

theorem toNat_of_identifierStart {c : Char} (h : identifierStart c = true) : 65 ≤ c.toNat := by
  rw [identifierStart, Bool.or_eq_true, decide_eq_true_eq] at h
  rcases h with halpha | rfl
  · have := toNat_of_isAlpha halpha
    omega
  · decide

/-- What is replied is not called like an event. -/
theorem value_ne_name (v : PortValue) (n : Name) : v.runtime ≠ n.val := by
  cases v with
  | bool b =>
    cases b with
    | false => exact Name.not_keyword (by decide)
    | true => exact Name.not_keyword (by decide)
  | int k =>
    intro heq
    obtain ⟨t, ht⟩ := n
    cases t with
    | nil => cases ht
    | cons c rest =>
      simp only [isIdentifier, Bool.and_eq_true] at ht
      have hlist : integerText k = c :: rest := heq
      have hmem : c ∈ integerText k := by
        rw [hlist]
        exact List.mem_cons_self
      have hstart := toNat_of_identifierStart ht.1.1
      obtain hdigit | rfl := isDigit_of_mem_integerText hmem
      · have hrange := Char.isDigit_iff_toNat.1 hdigit
        have h9 : '9'.toNat = 57 := rfl
        omega
      · exact absurd hstart (by decide)
  | enum type field =>
    intro heq
    have hcolon : ':' ∈ n.val := heq ▸ List.mem_append_right _ List.mem_cons_self
    exact Name.not_mem (by decide) hcolon

theorem modelPrefix_inj {f : FullName} {w w' : List Char} (h : modelPrefix f w = modelPrefix f w') : w = w' :=
  List.append_cancel_left h

/-- A constructor of the interface does not end with a tick. -/
theorem modelPrefix_ne_fullName {f type : FullName} {w : List Char} (hw : mismatch w ['\''] = true) :
    modelPrefix f w ≠ makreelFullName type := by
  intro heq
  refine not_suffix_fullName hw type ?_
  rw [← heq]
  exact List.suffix_append _ _

theorem last_of_fullName {type type' : FullName} (h : makreelFullName type = makreelFullName type') :
    type.last = type'.last := by
  have hsplit := splitOn_fullName type (s := []) List.not_mem_nil
  rw [h, splitOn_fullName type' List.not_mem_nil] at hsplit
  have hnames := List.append_cancel_right hsplit
  apply Name.eq_of_val
  unfold FullName.last
  rw [← List.getLast_map (f := Name.val) (by simpa using type.ne_nil),
    ← List.getLast_map (f := Name.val) (by simpa using type'.ne_nil)]
  simp only [hnames]

/-- Replies of one type that the runtime calls the same are the same. -/
theorem value_text_inj {v' : PortValue}
    (hconstructor : (PortEvent.value v).constructor i.name = (PortEvent.value v').constructor i.name)
    (hr : v.runtime = v'.runtime) : v.text = v'.text := by
  cases v with
  | bool b =>
    cases v' with
    | bool b' => exact hr
    | int k => exact absurd (modelPrefix_inj hconstructor) (by decide)
    | enum => exact absurd hconstructor (modelPrefix_ne_fullName (by decide))
  | int k =>
    cases v' with
    | bool b' => exact absurd (modelPrefix_inj hconstructor) (by decide)
    | int k' => exact hr
    | enum => exact absurd hconstructor (modelPrefix_ne_fullName (by decide))
  | enum type field =>
    cases v' with
    | bool b' => exact absurd hconstructor.symm (modelPrefix_ne_fullName (by decide))
    | int k' => exact absurd hconstructor.symm (modelPrefix_ne_fullName (by decide))
    | enum type' field' =>
      have htype : makreelFullName type = makreelFullName type' := hconstructor
      have hr' : type.last.val ++ ':' :: field.val = type'.last.val ++ ':' :: field'.val := hr
      rw [last_of_fullName htype] at hr'
      have hfield := (List.cons.inj (List.append_cancel_left hr')).2
      unfold PortValue.text
      simp only [htype, hfield]

/-- A void reply is no other reply. -/
theorem void_ne_value (v : PortValue) : PortEvent.void.constructor i.name ≠ (PortEvent.value v).constructor i.name := by
  intro heq
  cases v with
  | bool => exact absurd (modelPrefix_inj heq) (by decide)
  | int => exact absurd (modelPrefix_inj heq) (by decide)
  | enum => exact absurd heq (modelPrefix_ne_fullName (by decide))

/-- Events that leave a state have different names for the runtime. -/
theorem label_eq_of_runtime (h : InterfaceLts i lts) {e' : Edge String} (he : e ∈ (node lts s).edges)
    (he' : e' ∈ (node lts s).edges) (hl : e.label = i.label (.event a)) (hl' : e'.label = i.label (.event a'))
    (hhas : i.Has (.event a)) (hhas' : i.Has (.event a')) (hr : a.runtime = a'.runtime) : e.label = e'.label := by
  have hreply := h.reply s e he e' he' a a' hl hl'
  rw [hl, hl']
  cases a with
  | trigger n =>
    cases a' with
    | trigger n' => rw [Name.eq_of_val hr]
    | action n' => exact absurd hr (h.disjoint n hhas n' hhas')
    | void => exact absurd hr.symm (Name.not_keyword (by decide))
    | value v => exact absurd hr.symm (value_ne_name v n)
  | action n =>
    cases a' with
    | trigger n' => exact absurd hr.symm (h.disjoint n' hhas' n hhas)
    | action n' => rw [Name.eq_of_val hr]
    | void => exact absurd hr.symm (Name.not_keyword (by decide))
    | value v => exact absurd hr.symm (value_ne_name v n)
  | void =>
    cases a' with
    | trigger n' => exact absurd hr (Name.not_keyword (by decide))
    | action n' => exact absurd hr (Name.not_keyword (by decide))
    | void => rfl
    | value v => exact absurd (hreply rfl) (void_ne_value v)
  | value v =>
    cases a' with
    | trigger n' => exact absurd hr (value_ne_name v n')
    | action n' => exact absurd hr (value_ne_name v n')
    | void => exact absurd (hreply rfl).symm (void_ne_value v)
    | value v' =>
      have hconstructor := hreply rfl
      have htext := value_text_inj hconstructor hr
      unfold PortInterface.label PortLabel.text PortEvent.payload PortEvent.kind PortEvent.argument
      simp only [hconstructor, htext]

end

/-! ## A step -/

section
variable {i : PortInterface} {lts : Lts} {e : Edge String} {l : PortLabel} {s t : Nat} {cases : List SwitchCase}
  {p : PortState} {path : List (Edge String)} {values : List PortValue} {r : List Char}

theorem find_case (hnodup : (cases.map SwitchCase.label).Nodup) {c : SwitchCase} (hc : c ∈ cases) :
    (cases.find? fun d => d.label = c.label) = some c := by
  cases hfind : cases.find? fun d => d.label = c.label with
  | none =>
    have hno := List.find?_eq_none.1 hfind c hc
    simp at hno
  | some d =>
    have hlabel := List.find?_some hfind
    rw [List.inj_on_of_nodup_map hnodup (List.mem_of_find?_eq_some hfind) hc (by simpa using hlabel)]

/-- The edge has a transition with what the runtime calls it. -/
theorem edgeTransition_runtime (hl : e.label = i.label l) (hr : l.runtime = some r) (hf : Followed i lts e) :
    edgeTransition e = some { e with label := String.ofList r } := by
  cases l with
  | event a =>
    cases hr
    exact edgeTransition_event hl (hf.event a hl)
  | flush =>
    cases hr
    exact edgeTransition_flush hl
  | state => cases hr
  | illegal => cases hr

/-- No other edge has it. -/
theorem eq_of_edgeTransition (h : InterfaceLts i lts) (hd : Deterministic lts) (he : e ∈ (node lts s).edges)
    (hl : e.label = i.label l) (hhas : i.Has l) (hr : l.runtime = some r) (hf : Followed i lts e) {e' u : Edge String}
    (he' : e' ∈ sharedEdges lts) (hu : edgeTransition e' = some u) (hfrom : u.fromState = s)
    (hlabel : u.label = String.ofList r) : e' = e := by
  obtain ⟨hfrom', -, hcall⟩ := label_of_edgeTransition h he' hu
  have hmem := ((mem_sharedEdges h.wellFormed).1 he').1
  have hsame : e'.fromState = s := hfrom'.symm.trans hfrom
  rw [hsame] at hmem
  refine hd s e' hmem e he ?_
  cases l with
  | event a =>
    cases hr
    obtain ⟨a', ha', hhas', hu'⟩ | ⟨hu', -⟩ := hcall
    · exact label_eq_of_runtime h hmem he ha' hl hhas' hhas (String.ofList_injective (hu'.symm.trans hlabel))
    · exact absurd (hlabel.symm.trans hu') (runtime_ne_flush a)
  | flush =>
    cases hr
    obtain ⟨a', -, -, hu'⟩ | ⟨-, hflush | hfree⟩ := hcall
    · exact absurd (hu'.symm.trans hlabel) (runtime_ne_flush a')
    · rw [hflush, hl]
    · have hfrom := h.wellFormed.fromState s e he
      exact absurd (hf.flush hl e' (hfrom.symm ▸ hmem)) hfree
  | state => cases hr
  | illegal => cases hr

theorem ascii_of_runtime (hr : l.runtime = some r) :
    AsciiText (String.ofList r) ∧ '\x00' ∉ (String.ofList r).toList := by
  cases l with
  | event a =>
    cases hr
    exact runtime_ascii a
  | flush =>
    cases hr
    rw [AsciiText, String.toList_ofList]
    exact ⟨by unfold IsAscii; decide, by decide⟩
  | state => cases hr
  | illegal => cases hr

/-- What the case of a transition assigns to the variables. -/
def caseAssignments (i : PortInterface) (lts : Lts) (s : Nat) : List (List Char × List Char) :=
  let assignments := ((codeSharedState i.variableNames lts).find? fun shared => shared.state = s).map SharedState.assign
  (assignments.getD []).map fun a => (a.1, codeSharedValue a.2)

/-- The switch follows an edge with an event. -/
theorem runLabel_event (h : InterfaceLts i lts) (hd : Deterministic lts)
    (hcases : interfaceCases i lts = some cases)
    (hnodup : (cases.map SwitchCase.label).Nodup) (he : e ∈ (node lts s).edges) (hl : e.label = i.label l)
    (hhas : i.Has l) (hr : l.runtime = some r) (hlegal : LegalEdge lts e) (hf : Followed i lts e) (hs : s < 2 ^ 31)
    (hshare : p.dznShareP = true) (hstate : p.dznState = Int32.ofNat s) :
    p.runLabel cases l = { p with
      dznLabel := some (String.ofList r)
      dznState := Int32.ofNat e.toState
      vars := (caseAssignments i lts e.toState).foldl assignVariable p.vars } := by
  obtain ⟨transitions, htransitions, rfl⟩ := Option.map_eq_some_iff.1 hcases
  have hfrom := h.wellFormed.fromState s e he
  have hshared : e ∈ sharedEdges lts := by
    rw [mem_sharedEdges h.wellFormed]
    refine ⟨hfrom.symm ▸ he, hlegal.2, ?_, hlegal.1⟩
    rw [Bool.eq_false_iff, hl, Ne, sharedStateLabel_label]
    rintro ⟨values, rfl⟩
    cases hr
  have ht := (mem_eventTransitions h htransitions _).2 ⟨e, hshared, edgeTransition_runtime hl hr hf⟩
  obtain ⟨u, hu, hkey⟩ := exists_mem_switchTransitions ht
  obtain ⟨hufrom, hulabel⟩ := transitionKey_eq.1 hkey
  obtain ⟨e', he', hue'⟩ := (mem_eventTransitions h htransitions u).1 (switchTransitions_subset hu)
  have heq := eq_of_edgeTransition h hd he hl hhas hr hf he' hue' (hufrom.trans hfrom) hulabel
  subst heq
  have hto := (label_of_edgeTransition h he' hue').2.1
  have hlabel : caseLabel u = ((Runtime.hash (String.ofList r) (UInt32.ofNat s)).toNat : Int) := by
    obtain ⟨hascii, hnul⟩ := ascii_of_runtime hr
    have hufrom' : u.fromState = s := hufrom.trans hfrom
    have hulabel' : u.label = String.ofList r := hulabel
    rw [caseLabel, hufrom', hulabel', dznHash_toNat hascii hnul (Nat.lt_trans hs (by decide))]
  have hfind := find_case hnodup (List.mem_map_of_mem (f := eventSwitchCase (codeSharedState i.variableNames lts)) hu)
  have hcase : (eventSwitchCase (codeSharedState i.variableNames lts) u).label =
      ((Runtime.hash (String.ofList r) (UInt32.ofNat s)).toNat : Int) := hlabel
  rw [hcase] at hfind
  unfold PortState.runLabel
  rw [hr]
  simp only [PortState.dznEvent, hshare, if_true]
  unfold PortState.dznUpdateState
  simp only [hstate, Int32.toUInt32_ofNat', hfind]
  unfold eventSwitchCase caseAssignments
  rw [hto]

end

/-! ## The variables -/

theorem foldl_assignVariable_cons {v : List Char × List Char} {vars as : List (List Char × List Char)}
    (hno : ∀ a ∈ as, a.1 ≠ v.1) : as.foldl assignVariable (v :: vars) = v :: as.foldl assignVariable vars := by
  induction as generalizing vars with
  | nil => rfl
  | cons a as ih =>
    have hhead : assignVariable (v :: vars) a = v :: assignVariable vars a := by
      unfold assignVariable
      rw [List.map_cons, if_neg fun heq => hno a List.mem_cons_self heq.symm]
    rw [List.foldl_cons, List.foldl_cons, hhead]
    exact ih fun a' ha' => hno a' (List.mem_cons_of_mem a ha')

theorem assignVariable_not_mem {vars : List (List Char × List Char)} {a : List Char × List Char}
    (hno : a.1 ∉ vars.map Prod.fst) : assignVariable vars a = vars := by
  have hkeep : ∀ v ∈ vars, (if v.1 = a.1 then a else v) = id v := by
    intro v hv
    have hmem : v.1 ∈ vars.map Prod.fst := List.mem_map_of_mem hv
    have hne : ¬ v.1 = a.1 := fun heq => hno (heq ▸ hmem)
    rw [if_neg hne]
    rfl
  unfold assignVariable
  rw [List.map_congr_left hkeep, List.map_id]

/-- An assignment of every variable leaves none of the values there were. -/
theorem foldl_assignVariable {names : List (List Char)} (hnodup : names.Nodup)
    {vars : List (List Char × List Char)}
    (hvars : vars.map Prod.fst = names) {vals : List (List Char)} (hlen : vals.length = names.length) :
    (names.zip vals).foldl assignVariable vars = names.zip vals := by
  induction names generalizing vars vals with
  | nil =>
    rw [List.map_eq_nil_iff] at hvars
    subst hvars
    rfl
  | cons n names ih =>
    cases vals with
    | nil => cases hlen
    | cons x vals =>
      cases vars with
      | nil => cases hvars
      | cons v vars =>
        rw [List.map_cons, List.cons.injEq] at hvars
        obtain ⟨rfl, hrest⟩ := hvars
        obtain ⟨hnot, hnodup⟩ := List.nodup_cons.1 hnodup
        have hhead : assignVariable (v :: vars) (v.1, x) = (v.1, x) :: vars := by
          have hkeep : assignVariable vars (v.1, x) = vars := assignVariable_not_mem (hrest ▸ hnot)
          unfold assignVariable at hkeep ⊢
          rw [List.map_cons, if_pos rfl, hkeep]
        have hno : ∀ a ∈ names.zip vals, a.1 ≠ (v.1, x).1 := fun a ha heq => hnot (heq ▸ (List.of_mem_zip ha).1)
        rw [List.zip_cons_cons, List.foldl_cons, hhead, foldl_assignVariable_cons hno,
          ih hnodup hrest (Nat.succ.inj hlen)]

theorem values_fst {i : PortInterface} {values : List PortValue} (hlen : values.length = i.vars.length) :
    (i.values values).map Prod.fst = i.variableNames := by
  unfold PortInterface.values PortInterface.variableNames
  rw [List.map_fst_zip]
  simp [hlen]

section
variable {i : PortInterface} {lts : Lts} {s : Nat} {vars : List (List Char × List Char)} {values : List PortValue}

/-- Without variables there is nothing to share. -/
theorem find_codeSharedState_nil (hne : i.variableNames = []) :
    ((codeSharedState i.variableNames lts).find? fun shared => shared.state = s) = none := by
  rw [List.find?_eq_none]
  intro shared hmem
  obtain ⟨e, -, hassign⟩ := List.mem_filterMap.1 hmem
  rw [edgeAssign, if_pos hne] at hassign
  cases hassign

/-- The case of a state that shows values assigns them. -/
theorem caseAssignments_shows (h : InterfaceLts i lts) (hkept : Kept i lts s)
    (hshows : ShowsState i lts s values) (hvars : vars.map Prod.fst = i.variableNames) :
    (caseAssignments i lts s).foldl assignVariable vars = i.values values := by
  obtain ⟨-, -, -, hlen⟩ := id hshows
  have hlength : (values.map fun v => codeSharedValue v.text).length = i.variableNames.length := by
    rw [List.length_map, PortInterface.variableNames, List.length_map]
    exact hlen
  have hassign : caseAssignments i lts s = i.variableNames.zip (values.map fun v => codeSharedValue v.text) := by
    unfold caseAssignments
    by_cases hne : i.variableNames = []
    · rw [find_codeSharedState_nil hne, hne]
      rfl
    · simp only [(find_codeSharedState h hne hkept).1 values hshows, Option.getD_some]
      rw [List.zip_map_right, List.zip_map_right, List.map_map]
      rfl
  rw [hassign, foldl_assignVariable h.vars hvars hlength]
  rfl

/-- The case of a state that shows none assigns none. -/
theorem caseAssignments_kept (h : InterfaceLts i lts) (hkept : Kept i lts s)
    (hno : ∀ values, ¬ ShowsState i lts s values) : (caseAssignments i lts s).foldl assignVariable vars = vars := by
  have hnone : ((codeSharedState i.variableNames lts).find? fun shared => shared.state = s) = none := by
    by_cases hne : i.variableNames = []
    · exact find_codeSharedState_nil hne
    · exact (find_codeSharedState h hne hkept).2 hno
  unfold caseAssignments
  rw [hnone]
  rfl

end

/-! ## A run -/

section
variable {i : PortInterface} {lts : Lts} {e : Edge String} {l : PortLabel} {s t : Nat} {cases : List SwitchCase}
  {p : PortState} {path : List (Edge String)} {values : List PortValue} {vars : List (List Char × List Char)}

theorem lastShown_nil (h : LastShown i lts [] values) : ShowsState i lts lts.initial values := by
  generalize hpath : ([] : List (Edge String)) = path at h
  cases h with
  | init h => exact h
  | shown h => simp at hpath
  | kept h hno => simp at hpath

theorem lastShown_snoc (h : LastShown i lts (path ++ [e]) values) : ShowsState i lts e.toState values ∨
    LastShown i lts path values ∧ ∀ values', ¬ ShowsState i lts e.toState values' := by
  generalize hpath : path ++ [e] = whole at h
  cases h with
  | init h => simp at hpath
  | shown h =>
    obtain ⟨-, heq⟩ := List.append_inj' hpath rfl
    cases heq
    exact .inl h
  | kept h hno =>
    obtain ⟨rfl, heq⟩ := List.append_inj' hpath rfl
    cases heq
    exact .inr ⟨h, hno⟩

/-- The struct at a state of a path. -/
structure Tracks (i : PortInterface) (lts : Lts) (path : List (Edge String)) (s : Nat) (p : PortState) : Prop where
  share : p.dznShareP = true
  state : p.dznState = Int32.ofNat s
  bound : s < 2 ^ 31
  names : p.vars.map Prod.fst = i.variableNames
  -- also where the path has come to a state whose values are shown
  shown : ∀ values, LastShown i lts path values ∨ ShowsState i lts s values → p.vars = i.values values
  illegal : p.illegalHandled = false

theorem Tracks.init (hbound : lts.initial < 2 ^ 31) (hvars : StartsWith i lts vars) :
    Tracks i lts [] lts.initial (initialPort lts vars) where
  share := rfl
  state := rfl
  bound := hbound
  names := hvars.1
  shown := by
    rintro values (h | h)
    · exact hvars.2 values (lastShown_nil h)
    · exact hvars.2 values h
  illegal := rfl

/-- An edge that shows a state keeps the struct. -/
theorem Tracks.step_state (h : InterfaceLts i lts) (hp : Tracks i lts path s p) (hstep : Step lts s e t)
    (hl : e.label = i.label (.state values)) (hf : Followed i lts e) :
    Tracks i lts (path ++ [e]) t (p.runLabel cases (.state values)) := by
  have hto : e.toState = s := (hf.state values hl).trans (h.wellFormed.fromState s e hstep.1)
  obtain rfl : t = s := hstep.2.symm.trans hto
  refine ⟨hp.share, hp.state, hp.bound, hp.names, ?_, hp.illegal⟩
  rintro values' (hshown | hshows)
  · obtain hshows | ⟨hshown, -⟩ := lastShown_snoc hshown
    · exact hp.shown values' (.inr (hto ▸ hshows))
    · exact hp.shown values' (.inl hshown)
  · exact hp.shown values' (.inr hshows)

/-- An edge with an event takes the struct to its state. -/
theorem Tracks.step_event (h : InterfaceLts i lts) (hd : Deterministic lts)
    (hcases : interfaceCases i lts = some cases)
    (hnodup : (cases.map SwitchCase.label).Nodup) (hp : Tracks i lts path s p) (hstep : Step lts s e t)
    (hl : e.label = i.label l) (hhas : i.Has l) {r : List Char} (hr : l.runtime = some r) (hlegal : LegalEdge lts e)
    (hf : Followed i lts e) : Tracks i lts (path ++ [e]) t (p.runLabel cases l) := by
  obtain ⟨he, rfl⟩ := hstep
  rw [runLabel_event h hd hcases hnodup he hl hhas hr hlegal hf hp.bound hp.share hp.state]
  have hshows : ∀ values, ShowsState i lts e.toState values →
      (caseAssignments i lts e.toState).foldl assignVariable p.vars = i.values values :=
    fun values hshows => caseAssignments_shows h hf.kept hshows hp.names
  refine ⟨hp.share, rfl, hf.kept.1, ?_, ?_, hp.illegal⟩
  · by_cases hany : ∃ values, ShowsState i lts e.toState values
    · obtain ⟨values, hvalues⟩ := hany
      obtain ⟨-, -, -, hlen⟩ := id hvalues
      exact (congrArg (List.map Prod.fst) (hshows values hvalues)).trans (values_fst hlen)
    · simp only [caseAssignments_kept h hf.kept (not_exists.1 hany)]
      exact hp.names
  · rintro values (hshown | hvalues)
    · obtain hvalues | ⟨hshown, hno⟩ := lastShown_snoc hshown
      · exact hshows values hvalues
      · simp only [caseAssignments_kept h hf.kept hno]
        exact hp.shown values (.inl hshown)
    · exact hshows values hvalues

theorem Tracks.step (h : InterfaceLts i lts) (hd : Deterministic lts)
    (hcases : interfaceCases i lts = some cases)
    (hnodup : (cases.map SwitchCase.label).Nodup) (hp : Tracks i lts path s p) (hstep : Step lts s e t)
    (hl : e.label = i.label l) (hhas : i.Has l) (hlegal : LegalEdge lts e) (hf : Followed i lts e) :
    Tracks i lts (path ++ [e]) t (p.runLabel cases l) := by
  cases l with
  | event a => exact hp.step_event h hd hcases hnodup hstep hl hhas rfl hlegal hf
  | flush => exact hp.step_event h hd hcases hnodup hstep hl hhas rfl hlegal hf
  | state values => exact hp.step_state h hstep hl hf
  | illegal => exact absurd (hl.trans (label_illegal i)) hlegal.1

/-- A path whose labels are labels of the interface, each with what the switch follows. -/
def FollowedPath (i : PortInterface) (lts : Lts) (path : List (Edge String × PortLabel)) : Prop :=
  ∀ x ∈ path, x.1.label = i.label x.2 ∧ i.Has x.2 ∧ Followed i lts x.1

theorem tracks_run (h : InterfaceLts i lts) (hd : Deterministic lts)
    (hcases : interfaceCases i lts = some cases)
    (hnodup : (cases.map SwitchCase.label).Nodup) (hbound : lts.initial < 2 ^ 31) (hvars : StartsWith i lts vars)
    (path : List (Edge String × PortLabel)) (hpath : Trace lts lts.initial (path.map Prod.fst) t)
    (hlegal : ∀ x ∈ path, LegalEdge lts x.1) (hfollowed : FollowedPath i lts path) :
    Tracks i lts (path.map Prod.fst) t ((initialPort lts vars).run cases (path.map Prod.snd)) := by
  induction path using List.reverseRecOn generalizing t with
  | nil =>
    cases hpath
    exact Tracks.init hbound hvars
  | append_singleton path x ih =>
    rw [List.map_append, List.map_singleton] at hpath
    obtain ⟨u, hpath, hstep⟩ := hpath.of_snoc
    have hsub : ∀ y ∈ path, y ∈ path ++ [x] := fun y hy => List.mem_append_left _ hy
    have hp := ih hpath (fun y hy => hlegal y (hsub y hy)) fun y hy => hfollowed y (hsub y hy)
    have hmem : x ∈ path ++ [x] := List.mem_append_right _ (List.mem_singleton.2 rfl)
    obtain ⟨hl, hhas, hf⟩ := hfollowed x hmem
    unfold PortState.run at hp ⊢
    rw [List.map_append, List.map_append, List.foldl_append]
    exact hp.step h hd hcases hnodup hstep hl hhas (hlegal x hmem) hf

/-- Along a path the state and the variables of the struct are those of the LTS, and nothing is illegal, when each
step is one that the switch follows. -/
theorem run_follows (h : InterfaceLts i lts) (hd : Deterministic lts)
    (hcases : interfaceCases i lts = some cases)
    (hnodup : (cases.map SwitchCase.label).Nodup) (hbound : lts.initial < 2 ^ 31) (hvars : StartsWith i lts vars)
    (path : List (Edge String × PortLabel)) (hpath : Trace lts lts.initial (path.map Prod.fst) t)
    (hlegal : ∀ x ∈ path, LegalEdge lts x.1) (hfollowed : FollowedPath i lts path) :
    ((initialPort lts vars).run cases (path.map Prod.snd)).dznState.toInt = t ∧
    (∀ values, LastShown i lts (path.map Prod.fst) values →
      ((initialPort lts vars).run cases (path.map Prod.snd)).vars = i.values values) ∧
    ((initialPort lts vars).run cases (path.map Prod.snd)).illegalHandled = false := by
  have hp := tracks_run h hd hcases hnodup hbound hvars path hpath hlegal hfollowed
  refine ⟨?_, fun values hvalues => hp.shown values (.inl hvalues), hp.illegal⟩
  rw [hp.state]
  exact Int32.toInt_ofNat_of_lt hp.bound

end

/-! ## An interface with one event -/

section
variable {i : PortInterface} {lts : Lts} {e : Edge String} {a a' : PortEvent} {s : Nat}

theorem label_event_injective (h : i.label (.event a) = i.label (.event a')) (hkind : a.kind = a'.kind) :
    a.constructor i.name = a'.constructor i.name := by
  have htext : modelPrefix i.name a.kind ++ '(' :: (a.payload i.name ++ [')']) =
      modelPrefix i.name a'.kind ++ '(' :: (a'.payload i.name ++ [')']) := String.ofList_injective h
  rw [hkind] at htext
  have hpayload := List.append_cancel_right (List.cons.inj (List.append_cancel_left htext)).2
  have hopen : ∀ b : PortEvent, '(' ∉ b.constructor i.name := fun b => not_mem_constructor (by decide) (by decide)
  refine (marker_first (r := a'.argument i.name ++ [')']) (hopen a) (hopen a')).1 ?_
  unfold PortEvent.payload at hpayload
  rw [← hpayload]
  exact ⟨a.argument i.name ++ [')'], by simp⟩

/-- The values are those of the label. -/
theorem label_state_injective {values values' : List PortValue}
    (h : i.label (.state values) = i.label (.state values')) :
    values.map PortValue.text = values'.map PortValue.text := by
  have hpayload : statePayload i.name values = statePayload i.name values' := by
    have htext := sharedStateText_state i values
    rw [h, sharedStateText_state] at htext
    exact (Option.some.inj htext).symm
  have hvalues := variableValueRegexp_state i.name values
  rw [hpayload, variableValueRegexp_state] at hvalues
  cases values with
  | nil =>
    cases values' with
    | nil => rfl
    | cons v' values' => simp at hvalues
  | cons v values =>
    cases values' with
    | nil => simp at hvalues
    | cons v' values' =>
      simp only [reduceCtorEq, if_false, Option.some.injEq] at hvalues
      have hread := splitOn_valuesText (w := []) ⟨by simp, by simp⟩ v values
      have hread' := splitOn_valuesText (w := []) ⟨by simp, by simp⟩ v' values'
      rw [← hread, ← hread', hvalues]

theorem flushFree_of_label {label : String} (h : flushRegexp label.toList = none) : FlushFree i label := by
  rintro a rfl
  unfold flushRegexp at h ⊢
  rw [ite_eq_right_iff] at h ⊢
  intro hany
  refine h ?_
  -- what is found in the payload is found in the label
  generalize "'flush".toList = flush at hany ⊢
  rw [List.any_eq_true] at hany ⊢
  obtain ⟨t, ht, hprefix⟩ := hany
  rw [List.isPrefixOf_iff_prefix] at hprefix
  obtain ⟨u, hu⟩ := (List.mem_tails _ _).1 ht
  have htext : (i.label (.event a)).toList = modelPrefix i.name a.kind ++ '(' :: (a.payload i.name ++ [')']) :=
    toList_label i (.event a)
  have htail : t ++ [')'] ∈ (i.label (.event a)).toList.tails := by
    rw [List.mem_tails, htext, ← hu]
    exact ⟨modelPrefix i.name a.kind ++ '(' :: u, by simp only [List.append_assoc, List.cons_append]⟩
  refine ⟨t ++ [')'], htail, ?_⟩
  rw [List.isPrefixOf_iff_prefix]
  exact hprefix.trans (List.prefix_append t _)

end

/-- An interface with an in event and a variable. -/
def eventPort (event : Name) : PortInterface :=
  ⟨⟨[⟨['I'], rfl⟩], List.cons_ne_nil _ _⟩, [event], [], [⟨['b'], rfl⟩]⟩

def eventPortEdge (event : Name) (s : Nat) (l : PortLabel) (t : Nat) : Edge String :=
  ⟨s, (eventPort event).label l, t, false⟩

/-- The event occurs once, and sets the variable. -/
def eventPortLts (event : Name) : Lts :=
  let edge := eventPortEdge event
  [⟨0, [edge 0 (.state [.bool false]) 0, edge 0 (.event (.trigger event)) 1], [], true, .white, none, -1, none⟩,
    ⟨1, [edge 1 (.event .void) 2], [], false, .white, none, -1, none⟩,
    ⟨2, [edge 2 (.state [.bool true]) 2], [], false, .white, none, -1, none⟩]

section
variable {event : Name} {e e' : Edge String} {s : Nat}

theorem mem_eventPortLts : e ∈ (node (eventPortLts event) s).edges ↔
    e = eventPortEdge event 0 (.state [.bool false]) 0 ∧ s = 0 ∨ e = eventPortEdge event 0 (.event (.trigger event)) 1 ∧ s = 0 ∨
    e = eventPortEdge event 1 (.event .void) 2 ∧ s = 1 ∨ e = eventPortEdge event 2 (.state [.bool true]) 2 ∧ s = 2 := by
  have hnode : (node (eventPortLts event) s).edges = match s with
      | 0 => [eventPortEdge event 0 (.state [.bool false]) 0, eventPortEdge event 0 (.event (.trigger event)) 1]
      | 1 => [eventPortEdge event 1 (.event .void) 2]
      | 2 => [eventPortEdge event 2 (.state [.bool true]) 2]
      | _ => [] := by
    match s with
    | 0 => rfl
    | 1 => rfl
    | 2 => rfl
    | s + 3 => rfl
  rw [hnode]
  match s with
  | 0 => simp only [List.mem_cons, List.not_mem_nil, or_false, and_true, zero_ne_one, OfNat.zero_ne_ofNat, and_false]
  | 1 => simp only [List.mem_cons, List.not_mem_nil, or_false, and_true, one_ne_zero, OfNat.one_ne_ofNat, and_false,
      false_or]
  | 2 => simp only [List.mem_cons, List.not_mem_nil, or_false, and_true, OfNat.ofNat_ne_zero, OfNat.ofNat_ne_one,
      and_false, false_or]
  | s + 3 => simp only [List.not_mem_nil, and_false, Nat.reduceEqDiff, Nat.succ_ne_zero, or_false]

theorem label_state_ne (i : PortInterface) (values : List PortValue) (a : PortEvent) :
    i.label (.state values) ≠ i.label (.event a) := by
  intro heq
  obtain ⟨h1, h2⟩ := sharedStateText_event i a
  have hstate := sharedStateText_state i values
  rw [heq, sharedStateText, h1, h2] at hstate
  cases hstate

/-- Of two edges that leave a state one shows it. -/
theorem eventPortLts_edges (he : e ∈ (node (eventPortLts event) s).edges)
    (he' : e' ∈ (node (eventPortLts event) s).edges) :
    e = e' ∨ ∃ values a, e.label = (eventPort event).label (.state values) ∧ e'.label = (eventPort event).label (.event a) ∨
      e'.label = (eventPort event).label (.state values) ∧ e.label = (eventPort event).label (.event a) := by
  have he := mem_eventPortLts.1 he
  have he' := mem_eventPortLts.1 he'
  obtain ⟨rfl, rfl⟩ | ⟨rfl, rfl⟩ | ⟨rfl, rfl⟩ | ⟨rfl, rfl⟩ := he
  · obtain ⟨rfl, -⟩ | ⟨rfl, -⟩ | ⟨-, hs⟩ | ⟨-, hs⟩ := he'
    · exact .inl rfl
    · exact .inr ⟨_, _, .inl ⟨rfl, rfl⟩⟩
    · cases hs
    · cases hs
  · obtain ⟨rfl, -⟩ | ⟨rfl, -⟩ | ⟨-, hs⟩ | ⟨-, hs⟩ := he'
    · exact .inr ⟨_, _, .inr ⟨rfl, rfl⟩⟩
    · exact .inl rfl
    · cases hs
    · cases hs
  · obtain ⟨-, hs⟩ | ⟨-, hs⟩ | ⟨rfl, -⟩ | ⟨-, hs⟩ := he'
    · cases hs
    · cases hs
    · exact .inl rfl
    · cases hs
  · obtain ⟨-, hs⟩ | ⟨-, hs⟩ | ⟨-, hs⟩ | ⟨rfl, -⟩ := he'
    · cases hs
    · cases hs
    · cases hs
    · exact .inl rfl

theorem eventPortLts_deterministic : Deterministic (eventPortLts event) := by
  intro s e he e' he' hlabel
  obtain rfl | ⟨values, a, ⟨hl, hl'⟩ | ⟨hl', hl⟩⟩ := eventPortLts_edges he he'
  · rfl
  · exact absurd (hl.symm.trans (hlabel.trans hl')) (label_state_ne _ _ _)
  · exact absurd (hl'.symm.trans (hlabel.symm.trans hl)) (label_state_ne _ _ _)

theorem eventPortLts_wellFormed : WellFormed (eventPortLts event) where
  initial := Nat.zero_lt_succ 2
  state := by
    intro s hs
    match s with
    | 0 => rfl
    | 1 => rfl
    | 2 => rfl
    | s + 3 => exact absurd hs (by simp [eventPortLts])
  fromState := by
    intro s e he
    obtain ⟨rfl, rfl⟩ | ⟨rfl, rfl⟩ | ⟨rfl, rfl⟩ | ⟨rfl, rfl⟩ := mem_eventPortLts.1 he <;> rfl
  toState := by
    intro s e he
    have hlength : (eventPortLts event).length = 3 := rfl
    rw [hlength]
    obtain ⟨rfl, -⟩ | ⟨rfl, -⟩ | ⟨rfl, -⟩ | ⟨rfl, -⟩ := mem_eventPortLts.1 he
    · exact Nat.zero_lt_succ 2
    · exact Nat.lt_of_sub_eq_succ rfl
    · exact Nat.lt_succ_self 2
    · exact Nat.lt_succ_self 2

theorem eventPortLts_interface : InterfaceLts (eventPort event) (eventPortLts event) where
  wellFormed := eventPortLts_wellFormed
  events := List.cons_ne_nil _ _
  disjoint := fun n _ m hm => absurd hm List.not_mem_nil
  vars := List.nodup_singleton _
  label := by
    intro s e he
    obtain ⟨rfl, -⟩ | ⟨rfl, -⟩ | ⟨rfl, -⟩ | ⟨rfl, -⟩ := mem_eventPortLts.1 he
    · exact ⟨.state [.bool false], rfl, rfl⟩
    · exact ⟨.event (.trigger event), rfl, List.mem_singleton.2 rfl⟩
    · exact ⟨.event .void, rfl, trivial⟩
    · exact ⟨.state [.bool true], rfl, rfl⟩
  reply := by
    intro s e he e' he' a a' hl hl' hkind
    obtain rfl | ⟨values, b, ⟨hstate, -⟩ | ⟨hstate, -⟩⟩ := eventPortLts_edges he he'
    · exact label_event_injective (hl.symm.trans hl') hkind
    · exact absurd (hstate.symm.trans hl) (label_state_ne _ _ _)
    · exact absurd (hstate.symm.trans hl') (label_state_ne _ _ _)

theorem eventPortLts_startsWith :
    StartsWith (eventPort event) (eventPortLts event) ((eventPort event).values [.bool false]) := by
  refine ⟨rfl, ?_⟩
  rintro values ⟨e, he, hl, -⟩
  have htext : [PortValue.bool false].map PortValue.text = values.map PortValue.text := by
    obtain ⟨rfl, -⟩ | ⟨rfl, -⟩ | ⟨rfl, hs⟩ | ⟨rfl, hs⟩ := mem_eventPortLts.1 he
    · exact label_state_injective hl
    · exact absurd hl.symm (label_state_ne _ _ _)
    · cases hs
    · cases hs
  have hvalues : ([PortValue.bool false].map PortValue.text).map codeSharedValue =
      (values.map PortValue.text).map codeSharedValue := congrArg _ htext
  rw [List.map_map, List.map_map] at hvalues
  exact congrArg (List.zip _) hvalues

theorem eventPortLts_kept : s < 2 ^ 31 → Kept (eventPort event) (eventPortLts event) s := by
  intro hs
  refine ⟨hs, ?_⟩
  rintro values values' ⟨e, he, hl, -⟩ ⟨e', he', hl', -⟩
  obtain rfl | ⟨values'', a, ⟨-, hevent⟩ | ⟨-, hevent⟩⟩ := eventPortLts_edges he he'
  · exact label_state_injective (hl.symm.trans hl')
  · exact absurd (hl'.symm.trans hevent) (label_state_ne _ _ _)
  · exact absurd (hl.symm.trans hevent) (label_state_ne _ _ _)

end

/-- An event `e`. -/
def plainEvent : Name := ⟨['e'], rfl⟩

/-- The steps of its LTS, each with its label. -/
def plainPath : List (Edge String × PortLabel) :=
  [(eventPortEdge plainEvent 0 (.state [.bool false]) 0, .state [.bool false]),
    (eventPortEdge plainEvent 0 (.event (.trigger plainEvent)) 1, .event (.trigger plainEvent)),
    (eventPortEdge plainEvent 1 (.event .void) 2, .event .void)]

/-- The cases of the switch. -/
def eventPortCases (event : Name) : List SwitchCase :=
  (interfaceCases (eventPort event) (eventPortLts event)).getD []

theorem interfaceCases_eventPort (event : Name) :
    interfaceCases (eventPort event) (eventPortLts event) = some (eventPortCases event) := by
  have h : InterfaceLts (eventPort event) (eventPortLts event) := eventPortLts_interface
  obtain ⟨cases, hcases⟩ := exists_interfaceCases h
  rw [eventPortCases, hcases]
  rfl

theorem plainPath_followed : FollowedPath (eventPort plainEvent) (eventPortLts plainEvent) plainPath := by
  have hkept : ∀ x ∈ plainPath, Kept (eventPort plainEvent) (eventPortLts plainEvent) x.1.toState := by
    intro x hx
    have hbound : ∀ x ∈ plainPath, x.1.toState < 2 ^ 31 := by decide
    exact eventPortLts_kept (hbound x hx)
  have hfree : ∀ s, ∀ e ∈ (node (eventPortLts plainEvent) s).edges, FlushFree (eventPort plainEvent) e.label := by
    intro s e he
    apply flushFree_of_label
    obtain ⟨rfl, -⟩ | ⟨rfl, -⟩ | ⟨rfl, -⟩ | ⟨rfl, -⟩ := mem_eventPortLts.1 he <;> decide
  have hevent : ∀ x ∈ plainPath, FlushFree (eventPort plainEvent) x.1.label := by
    intro x hx
    apply flushFree_of_label
    revert x
    decide
  have hlabels : ∀ x ∈ plainPath, x.1.label = (eventPort plainEvent).label x.2 := by decide
  have hself : ∀ x ∈ plainPath, sharedStateLabel x.1.label = true → x.1.toState = x.1.fromState := by decide
  intro x hx
  refine ⟨hlabels x hx, ?_, hkept x hx, ?_, hevent x hx, fun _ e he => hfree _ e he⟩
  · rw [plainPath, List.mem_cons, List.mem_cons, List.mem_singleton] at hx
    obtain rfl | rfl | rfl := hx
    · rfl
    · exact List.mem_singleton.2 rfl
    · trivial
  · intro values hl
    refine hself x hx ?_
    rw [hl]
    exact (sharedStateLabel_label _ _).2 ⟨values, rfl⟩

set_option maxRecDepth 4096 in
/-- After the event and its reply the variable is true. -/
theorem run_follows_plainPath :
    ((initialPort (eventPortLts plainEvent) ((eventPort plainEvent).values [.bool false])).run
      (eventPortCases plainEvent) (plainPath.map Prod.snd)).dznState.toInt = 2 ∧
    (∀ values, LastShown (eventPort plainEvent) (eventPortLts plainEvent) (plainPath.map Prod.fst) values →
      ((initialPort (eventPortLts plainEvent) ((eventPort plainEvent).values [.bool false])).run
        (eventPortCases plainEvent) (plainPath.map Prod.snd)).vars = (eventPort plainEvent).values values) ∧
    ((initialPort (eventPortLts plainEvent) ((eventPort plainEvent).values [.bool false])).run
      (eventPortCases plainEvent) (plainPath.map Prod.snd)).illegalHandled = false := by
  have hedge : ∀ {e : Edge String} {s : Nat}, e ∈ (node (eventPortLts plainEvent) s).edges →
      Step (eventPortLts plainEvent) s e e.toState := fun he => ⟨he, rfl⟩
  have hpath : Trace (eventPortLts plainEvent) 0 (plainPath.map Prod.fst) 2 :=
    .cons (hedge (mem_eventPortLts.2 (.inl ⟨rfl, rfl⟩)))
      (.cons (hedge (mem_eventPortLts.2 (.inr (.inl ⟨rfl, rfl⟩))))
        (.cons (hedge (mem_eventPortLts.2 (.inr (.inr (.inl ⟨rfl, rfl⟩))))) (.nil 2)))
  exact run_follows eventPortLts_interface eventPortLts_deterministic (interfaceCases_eventPort plainEvent) (by decide)
    (by decide) eventPortLts_startsWith plainPath hpath (by unfold LegalEdge; decide) plainPath_followed

/-! ## An event that is taken for a flush -/

def takenEvent : Name := ⟨['f', 'l', 'u', 's', 'h'], rfl⟩

set_option maxRecDepth 4096 in
/-- The case of an event `flush` is that of a flush, and the event is illegal. -/
theorem run_of_flush : ¬ ∀ (i : PortInterface) (lts : Lts) (cases : List SwitchCase)
    (vars : List (List Char × List Char)) (path : List (Edge String × PortLabel)) (t : Nat),
    InterfaceLts i lts → Deterministic lts → interfaceCases i lts = some cases →
    (cases.map SwitchCase.label).Nodup → (∀ s < lts.length, Kept i lts s) → StartsWith i lts vars →
    Trace lts lts.initial (path.map Prod.fst) t → (∀ x ∈ path, x.1.label = i.label x.2 ∧ i.Has x.2) →
    (∀ x ∈ path, LegalEdge lts x.1) →
    ((initialPort lts vars).run cases (path.map Prod.snd)).dznState.toInt = t ∧
    (∀ values, LastShown i lts (path.map Prod.fst) values →
      ((initialPort lts vars).run cases (path.map Prod.snd)).vars = i.values values) ∧
    ((initialPort lts vars).run cases (path.map Prod.snd)).illegalHandled = false := by
  intro h
  let path : List (Edge String × PortLabel) :=
    [(eventPortEdge takenEvent 0 (.event (.trigger takenEvent)) 1, .event (.trigger takenEvent))]
  have hpath : Trace (eventPortLts takenEvent) 0 (path.map Prod.fst) 1 :=
    .single ⟨mem_eventPortLts.2 (.inr (.inl ⟨rfl, rfl⟩)), rfl⟩
  have hlabels : ∀ x ∈ path, x.1.label = (eventPort takenEvent).label x.2 ∧ (eventPort takenEvent).Has x.2 := by
    intro x hx
    obtain rfl := List.mem_singleton.1 hx
    exact ⟨rfl, List.mem_singleton.2 rfl⟩
  have hkept : ∀ s < (eventPortLts takenEvent).length, Kept (eventPort takenEvent) (eventPortLts takenEvent) s :=
    fun s hs => eventPortLts_kept (Nat.lt_trans hs (by decide))
  have hrun := h (eventPort takenEvent) (eventPortLts takenEvent) (eventPortCases takenEvent) _ path 1
    eventPortLts_interface eventPortLts_deterministic (interfaceCases_eventPort takenEvent) (by decide) hkept
    eventPortLts_startsWith hpath hlabels (by unfold LegalEdge; decide)
  exact absurd hrun.2.2 (by decide)

end Dezyne
