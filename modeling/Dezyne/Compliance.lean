import Dezyne.Constraint
/-!
# What the constraint process allows

Without its markers the process that `lts->makreel` prints has the label
sequences of the LTS, but for errors and for the edges from which an illegal
can be reached before the next state of the result. Where the LTS has an
action or a reply the others lead to `Non_Compliance`; at the start and in the
states of the result these are the other actions only.
-/

namespace Dezyne

open Lts Process

/-- The processes that are printed. -/
def definitions (ps : List (Nat × List Printed)) : ProcessName → Option (List Printed)
  | .constraint i => (ps.find? fun p => p.1 = i).map Prod.snd
  | _ => none

/-- A step over an edge that is no error and from which no illegal can be reached. -/
def LegalStep (lts : Lts) (s : Nat) (e : Edge String) (t : Nat) : Prop :=
  Step lts s e t ∧ errorEvent e.label = false ∧ ¬ IllegalAhead lts e

section
variable {lts : Lts} {actions replies : List String} {ps : List (Nat × List Printed)} {a : Act} {u : Printed} {s : Nat}

/-! ## The processes -/

/-- What `lts->makreel` prints, for any actions and replies. -/
def printNodes (lts : Lts) (actions replies : List String) : Option (List (Nat × List Printed)) :=
  ((List.range lts.length).mapM (printNode lts actions replies)).map List.flatten

theorem printTransitions_ends (hw : WellFormed lts) (hc : RtcPasses lts) :
    ∃ body, printTransitions lts actions replies (node lts s).edges = some body := by
  obtain ⟨illegals, transitions, hp⟩ := partitionEnds_ends fun e he => transitionIllegal_ends hw hc (s := s) he
  have hmem := (partitionEnds_spec hp).2
  have htree : ∃ tree, printRest transitions (printTree lts actions replies (lts.length + 1) true transitions) = some tree := by
    rw [printRest]
    split
    · exact ⟨[], rfl⟩
    · rename_i hne
      obtain ⟨t, ht⟩ := Option.ne_none_iff_exists'.1
        (printTree_ends actions replies true hw hc hne fun e he => ((hmem e).1 he).1)
      exact ⟨[t], by rw [ht]; rfl⟩
  obtain ⟨tree, htree⟩ := htree
  rw [printTransitions, hp]
  simp only [Option.bind_eq_bind, Option.bind_some, htree]
  exact ⟨_, rfl⟩

/-- A state at which a process is printed. -/
def Printed.at (lts : Lts) (s : Nat) : Prop := s = lts.initial ∨ (node lts s).rtc = true

theorem printNode_ends (actions replies : List String) (hw : WellFormed lts) (hc : RtcPasses lts)
    (hs : s < lts.length) : ∃ bodies, printNode lts actions replies s = some bodies ∧
      (Printed.at lts s → ∃ body, bodies = [(s, body)]) ∧ (¬ Printed.at lts s → bodies = []) := by
  rw [printNode]
  split
  · rename_i hat
    have hbody : ∃ body, printBody lts actions replies (node lts s).edges = some body := by
      rw [printBody]
      split
      · exact ⟨[], rfl⟩
      · exact printTransitions_ends hw hc
    obtain ⟨body, hbody⟩ := hbody
    rw [hw.state s hs, hbody]
    exact ⟨_, rfl, fun _ => ⟨_, rfl⟩, fun h => absurd hat h⟩
  · rename_i hat
    exact ⟨[], rfl, fun h => absurd h hat, fun _ => rfl⟩

/-- `lts->makreel` ends, with a process for each of these states and no others. -/
theorem printNodes_spec (actions replies : List String) (hw : WellFormed lts) (hc : RtcPasses lts) :
    ∃ ps, printNodes lts actions replies = some ps ∧ ∀ s body, definitions ps (.constraint s) = some body ↔
      s < lts.length ∧ printNode lts actions replies s = some [(s, body)] := by
  have hall : ∀ l : List Nat, (∀ s ∈ l, s < lts.length) → ∃ bs, l.mapM (printNode lts actions replies) = some bs ∧
      ∀ s body, ((bs.flatten.find? fun p => p.1 = s).map Prod.snd) = some body ↔
        s ∈ l ∧ printNode lts actions replies s = some [(s, body)] := by
    intro l
    induction l with
    | nil => intro _; exact ⟨[], rfl, by simp⟩
    | cons i l ih =>
      intro hl
      obtain ⟨bs, hbs, hspec⟩ := ih fun s hs => hl s (by simp [hs])
      obtain ⟨bodies, hb, hat, hnot⟩ := printNode_ends actions replies hw hc (hl i (by simp))
      refine ⟨bodies :: bs, by rw [List.mapM_cons, hb, hbs]; rfl, fun s body => ?_⟩
      by_cases hi : Printed.at lts i
      · obtain ⟨body', rfl⟩ := hat hi
        rw [List.flatten_cons, List.singleton_append, List.find?_cons]
        by_cases hs : i = s
        · subst hs
          simp [hb, eq_comm]
        · simp only [hs, decide_false, hspec, List.mem_cons]
          simp [Ne.symm hs]
      · obtain rfl := hnot hi
        rw [List.flatten_cons, List.nil_append, hspec]
        by_cases hs : i = s
        · subst hs
          simp [hb]
        · simp [Ne.symm hs]
  obtain ⟨bs, hbs, hspec⟩ := hall (List.range lts.length) fun s hs => List.mem_range.1 hs
  refine ⟨bs.flatten, by rw [printNodes, hbs]; rfl, fun s body => ?_⟩
  rw [← List.mem_range]
  exact hspec s body

/-! ## Where a run is -/

/-- The term for a state: a process, or the tree of its edges, none of which leads to an illegal. -/
inductive Shows (lts : Lts) (actions replies : List String) : Nat → Printed → Prop
  | process {s : Nat} : (node lts s).rtc = true ∨ (node lts s).edges = [] →
      Shows lts actions replies s (.process (.constraint s))
  | tree {s fuel : Nat} {t : Printed} : (node lts s).rtc = false → (node lts s).edges ≠ [] →
      (∀ e ∈ (node lts s).edges, ¬ IllegalAhead lts e) →
      printTree lts actions replies fuel false (node lts s).edges = some t → Shows lts actions replies s t

/-- No tree is a process name. -/
theorem printSiblings_ne {next : Edge String → Option Printed} {first : Bool} {l : List (Edge String)}
    {seen : List String} {t : Printed} (h : printSiblings actions replies next first l seen = some t) (name : ProcessName) :
    t ≠ .process name := by
  cases l with
  | nil => cases h
  | cons e l =>
    rw [printSiblings] at h
    obtain ⟨branch, hb, h⟩ := Option.bind_eq_some_iff.1 h
    obtain ⟨rest, -, h⟩ := Option.bind_eq_some_iff.1 h
    obtain rfl := Option.some.inj h
    split
    · simp
    · rw [printBranch] at hb
      split at hb
      · obtain rfl := Option.some.inj hb
        simp
      · obtain ⟨c, -, rfl⟩ := Option.map_eq_some_iff.1 hb
        simp

theorem Shows.ne {t : Printed} (h : Shows lts actions replies s t) :
    t ≠ .process .nonCompliance ∧ t ≠ .process .constrainedIllegal := by
  cases h with
  | process => simp
  | @tree fuel t _ _ _ h =>
    cases fuel with
    | zero => cases h
    | succ fuel => exact ⟨printSiblings_ne h _, printSiblings_ne h _⟩

/-- What is printed after an edge shows the state it leads to. -/
theorem shows_printNext {fuel : Nat} {e : Edge String} {t : Printed} (hill : ¬ IllegalAhead lts e)
    (h : printNext lts (printTree lts actions replies fuel false) e = some t) :
    Shows lts actions replies e.toState t := by
  rw [printNext, nextEdges] at h
  cases hrtc : (node lts e.toState).rtc with
  | true =>
    simp only [hrtc, if_true] at h
    obtain rfl := Option.some.inj h
    exact .process (.inl hrtc)
  | false =>
    simp only [hrtc, Bool.false_eq_true, if_false] at h
    by_cases hnil : (node lts e.toState).edges = []
    · rw [if_pos hnil] at h
      obtain rfl := Option.some.inj h
      exact .process (.inr hnil)
    · rw [if_neg hnil] at h
      exact .tree hrtc hnil (fun d hd hahead => hill (.later (mem_nextEdges.2 ⟨hrtc, hd⟩) hahead)) h

/-- The term after an event of a legal step. -/
def ShowsAfter (lts : Lts) (actions replies : List String) (s : Nat) (t : Printed) : Prop :=
  ∃ first event c, Shows lts actions replies s c ∧ t = after (markers first event) c

/-! ## Steps -/

/-- The steps of the body of a process. -/
theorem step_body (defs : ProcessName → Option (List Printed)) {body : List Printed}
    (hw : WellFormed lts) (hs : s < lts.length) (h : printNode lts actions replies s = some [(s, body)]) :
    (∃ t ∈ body, Process.Step defs t a u) ↔
      (∃ e ∈ (node lts s).edges, IllegalAhead lts e ∧ a = .label e.label ∧ u = .process .constrainedIllegal) ∨
      (∃ e ∈ (node lts s).edges, ¬ IllegalAhead lts e ∧ errorEvent e.label = false ∧ a = .label e.label ∧
        ∃ c, printNext lts (printTree lts actions replies lts.length false) e = some c ∧
          u = after (markers true e.label) c) ∨
      (node lts s).edges ≠ [] ∧ ∃ b ∈ actions, a = .label b ∧ u = .process .nonCompliance ∧
        ∀ e ∈ (node lts s).edges, ¬ IllegalAhead lts e → actionEvent e.label = true → e.label ≠ b := by
  rw [printNode, hw.state s hs] at h
  split at h
  swap
  · cases h
  obtain ⟨body', hbody, h⟩ := Option.map_eq_some_iff.1 h
  obtain ⟨-, rfl⟩ := Prod.mk.inj (List.cons.inj h).1
  rw [List.exists_mem_cons_iff, or_iff_right step_delta]
  rw [printBody] at hbody
  split at hbody
  · rename_i hnil
    obtain rfl := Option.some.inj hbody
    simp [hnil]
  rename_i hne
  obtain ⟨⟨illegals, transitions⟩, hp, hbody⟩ := Option.bind_eq_some_iff.1 hbody
  obtain ⟨tree, htree, hbody⟩ := Option.bind_eq_some_iff.1 hbody
  obtain rfl := Option.some.inj hbody
  obtain ⟨hyes, hno⟩ := partitionEnds_spec hp
  -- the partition is by what the edge leads to
  have hill : ∀ e, e ∈ illegals ↔ e ∈ (node lts s).edges ∧ IllegalAhead lts e := by
    intro e
    constructor
    · intro he
      obtain ⟨he, h⟩ := (hyes e).1 he
      exact ⟨he, (transitionIllegal_iff h).1 rfl⟩
    · rintro ⟨he, hahead⟩
      refine (mem_partitionEnds hp e he).resolve_right fun hmem => ?_
      cases (transitionIllegal_iff ((hno e).1 hmem).2).2 hahead
  have hlegal : ∀ e, e ∈ transitions ↔ e ∈ (node lts s).edges ∧ ¬ IllegalAhead lts e := by
    intro e
    constructor
    · intro he
      obtain ⟨he, h⟩ := (hno e).1 he
      refine ⟨he, fun hahead => ?_⟩
      cases (transitionIllegal_iff h).2 hahead
    · rintro ⟨he, hahead⟩
      refine (mem_partitionEnds hp e he).resolve_left fun hmem => hahead ?_
      exact (transitionIllegal_iff ((hyes e).1 hmem).2).1 rfl
  have hills : (∃ t ∈ illegals.map (fun e => (Term.seq (.label e.label) (.process .constrainedIllegal) : Printed)),
      Process.Step defs t a u) ↔ ∃ e ∈ (node lts s).edges, IllegalAhead lts e ∧ a = .label e.label ∧
        u = .process .constrainedIllegal := by
    constructor
    · rintro ⟨t, ht, h⟩
      obtain ⟨e, he, rfl⟩ := List.mem_map.1 ht
      obtain ⟨he, hahead⟩ := (hill e).1 he
      exact ⟨e, he, hahead, step_seq.1 h⟩
    · rintro ⟨e, he, hahead, h⟩
      exact ⟨_, List.mem_map_of_mem ((hill e).2 ⟨he, hahead⟩), step_seq.2 h⟩
  have htrees : (∃ t ∈ tree, Process.Step defs t a u) ↔ ∃ e ∈ (node lts s).edges, ¬ IllegalAhead lts e ∧
      errorEvent e.label = false ∧ a = .label e.label ∧
      ∃ c, printNext lts (printTree lts actions replies lts.length false) e = some c ∧ u = after (markers true e.label) c := by
    rw [printRest] at htree
    split at htree
    · rename_i hnil
      obtain rfl := Option.some.inj htree
      constructor
      · rintro ⟨t, ht, -⟩
        cases ht
      · rintro ⟨e, he, hahead, -⟩
        have := (hlegal e).2 ⟨he, hahead⟩
        rw [hnil] at this
        cases this
    · obtain ⟨t, ht, rfl⟩ := Option.map_eq_some_iff.1 htree
      simp only [List.mem_singleton, exists_eq_left]
      rw [step_siblings ht]
      constructor
      · rintro (⟨e, he, h⟩ | ⟨b, -, -, hf, -⟩)
        · obtain ⟨he, hahead⟩ := (hlegal e).1 he
          exact ⟨e, he, hahead, h⟩
        · cases hf
      · rintro ⟨e, he, hahead, h⟩
        exact .inl ⟨e, (hlegal e).2 ⟨he, hahead⟩, h⟩
  -- at the top the others are all actions that no legal edge has
  have htop : ∀ b, b ∉ (transitions.map Edge.label).filter actionEvent ↔
      ∀ e ∈ (node lts s).edges, ¬ IllegalAhead lts e → actionEvent e.label = true → e.label ≠ b := by
    intro b
    rw [List.mem_filter, List.mem_map]
    constructor
    · rintro hb e he hahead hact rfl
      exact hb ⟨⟨e, (hlegal e).2 ⟨he, hahead⟩, rfl⟩, hact⟩
    · rintro hb ⟨⟨e, he, rfl⟩, hact⟩
      obtain ⟨he, hahead⟩ := (hlegal e).1 he
      exact hb e he hahead hact rfl
  have hothers : (∃ t ∈ nonCompliances (actions.filter (· ∉ (transitions.map Edge.label).filter actionEvent)),
      Process.Step defs t a u) ↔ ∃ b ∈ actions, a = .label b ∧ u = .process .nonCompliance ∧
        ∀ e ∈ (node lts s).edges, ¬ IllegalAhead lts e → actionEvent e.label = true → e.label ≠ b := by
    rw [step_nonCompliances]
    constructor
    · rintro ⟨b, hb, ha, hu⟩
      obtain ⟨hb, hnot⟩ := List.mem_filter.1 hb
      exact ⟨b, hb, ha, hu, (htop b).1 (of_decide_eq_true hnot)⟩
    · rintro ⟨b, hb, ha, hu, hnot⟩
      exact ⟨b, List.mem_filter.2 ⟨hb, decide_eq_true ((htop b).2 hnot)⟩, ha, hu⟩
  simp only [List.mem_append, or_and_right, exists_or, hills, htrees, hothers, or_assoc]
  exact or_congr_right (or_congr_right (and_iff_right hne).symm)

/-- A marker. -/
def Act.marker (a : Act) : Prop := a = .compliance ∨ a = .constrainedLegal

/-- `Non_Compliance` or `Constrained_Illegal` -/
def ProcessName.wrong (name : ProcessName) : Prop := name = .nonCompliance ∨ name = .constrainedIllegal

theorem markers_marker {first : Bool} {event : String} : ∀ m ∈ markers first event, m.marker := by
  intro m hm
  rcases List.mem_append.1 hm with hm | hm
  · split at hm
    · cases hm
    · exact .inl (List.mem_singleton.1 hm)
  · split at hm
    · exact .inr (List.mem_singleton.1 hm)
    · cases hm

theorem Shows.after_ne {c : Printed} (h : Shows lts actions replies s c) (ms : List Act) :
    ∀ name, ProcessName.wrong name → after ms c ≠ .process name := by
  intro name hname heq
  cases ms with
  | nil =>
    rcases hname with rfl | rfl
    · exact h.ne.1 heq
    · exact h.ne.2 heq
  | cons m ms => cases heq

/-- Where a run is: at the process of the initial state, or at a term for a state. -/
inductive Position (lts : Lts) (actions replies : List String) : Bool → Nat → Printed → Prop
  | start : Position lts actions replies true lts.initial (.process (.constraint lts.initial))
  | shows {s : Nat} {t : Printed} : Shows lts actions replies s t → Position lts actions replies false s t

/-- The processes that are printed for an LTS. -/
structure Prints (lts : Lts) (actions replies : List String) (ps : List (Nat × List Printed)) : Prop where
  wellFormed : WellFormed lts
  passes : RtcPasses lts
  spec : ∀ s body, definitions ps (.constraint s) = some body ↔
    s < lts.length ∧ printNode lts actions replies s = some [(s, body)]

section
variable {start : Bool} {t : Printed} {w : List Act} {v : Printed} {p : List (Edge String)} {s' : Nat}

/-- The process of the initial state or of a state of the result. -/
theorem Prints.step_process (h : Prints lts actions replies ps) (hs : s < lts.length)
    (hat : Printed.at lts s) : Process.Step (definitions ps) (.process (.constraint s)) a u ↔
      (∃ e ∈ (node lts s).edges, IllegalAhead lts e ∧ a = .label e.label ∧ u = .process .constrainedIllegal) ∨
      (∃ e ∈ (node lts s).edges, ¬ IllegalAhead lts e ∧ errorEvent e.label = false ∧ a = .label e.label ∧
        ∃ c, printNext lts (printTree lts actions replies lts.length false) e = some c ∧
          u = after (markers true e.label) c) ∨
      (node lts s).edges ≠ [] ∧ ∃ b ∈ actions, a = .label b ∧ u = .process .nonCompliance ∧
        ∀ e ∈ (node lts s).edges, ¬ IllegalAhead lts e → actionEvent e.label = true → e.label ≠ b := by
  obtain ⟨bodies, hb, hbody, -⟩ := printNode_ends actions replies h.wellFormed h.passes hs
  obtain ⟨body, rfl⟩ := hbody hat
  rw [← step_body (definitions ps) h.wellFormed hs hb, Process.step_process]
  constructor
  · rintro ⟨body', hdef, hstep⟩
    have := ((h.spec s body').1 hdef).2
    rw [hb] at this
    obtain ⟨-, rfl⟩ := Prod.mk.inj (List.cons.inj (Option.some.inj this)).1
    exact hstep
  · intro hstep
    exact ⟨body, (h.spec s body).2 ⟨hs, hb⟩, hstep⟩

/-- A state without edges that is none of these has no process. -/
theorem Prints.no_process (h : Prints lts actions replies ps) (hat : ¬ Printed.at lts s) :
    ¬ Process.Step (definitions ps) (.process (.constraint s)) a u := by
  intro hstep
  obtain ⟨body, hdef, -⟩ := Process.step_process.1 hstep
  obtain ⟨hs, hb⟩ := (h.spec s body).1 hdef
  obtain ⟨bodies, hb', -, hnot⟩ := printNode_ends actions replies h.wellFormed h.passes hs
  rw [hb, hnot hat] at hb'
  cases hb'

/-- Every step of a run is over a label: a legal step, or one to the processes that mark it as wrong. -/
theorem Prints.step_sound (h : Prints lts actions replies ps) (hs : s < lts.length)
    (hpos : Position lts actions replies start s t) (hstep : Process.Step (definitions ps) t a u) :
    (∃ e s', LegalStep lts s e s' ∧ a = .label e.label ∧
      ∃ first c, Shows lts actions replies s' c ∧ u = after (markers first e.label) c) ∨
    (∃ b, a = .label b) ∧ ∃ name, ProcessName.wrong name ∧ u = .process name := by
  have hcases : t = .process (.constraint s) ∨ ∃ fuel, (∀ e ∈ (node lts s).edges, ¬ IllegalAhead lts e) ∧
      printTree lts actions replies fuel false (node lts s).edges = some t := by
    cases hpos with
    | start => exact .inl rfl
    | shows hshows =>
      cases hshows with
      | process => exact .inl rfl
      | tree _ _ hahead ht => exact .inr ⟨_, hahead, ht⟩
  rcases hcases with rfl | ⟨fuel, hahead, ht⟩
  · by_cases hat : Printed.at lts s
    · rcases (h.step_process hs hat).1 hstep with ⟨e, he, -, ha, hu⟩ | ⟨e, he, hahead, herr, ha, c, hc, hu⟩ | ⟨-, b, -, ha, hu, -⟩
      · exact .inr ⟨⟨_, ha⟩, _, .inr rfl, hu⟩
      · exact .inl ⟨e, e.toState, ⟨⟨he, rfl⟩, herr, hahead⟩, ha, true, c, shows_printNext hahead hc, hu⟩
      · exact .inr ⟨⟨_, ha⟩, _, .inl rfl, hu⟩
    · exact absurd hstep (h.no_process hat)
  · cases fuel with
    | zero => cases ht
    | succ fuel =>
      rcases (step_siblings ht).1 hstep with ⟨e, he, herr, ha, c, hc, hu⟩ | ⟨b, ha, hu, -⟩
      · exact .inl ⟨e, e.toState, ⟨⟨he, rfl⟩, herr, hahead e he⟩, ha, false, c, shows_printNext (hahead e he) hc, hu⟩
      · exact .inr ⟨⟨b, ha⟩, _, .inl rfl, hu⟩

/-- Every legal step is one of the run. -/
theorem Prints.step_complete (h : Prints lts actions replies ps) (hs : s < lts.length)
    (hpos : Position lts actions replies start s t) {e : Edge String} (hstep : LegalStep lts s e s') :
    ∃ first c, Shows lts actions replies s' c ∧
      Process.Step (definitions ps) t (.label e.label) (after (markers first e.label) c) := by
  obtain ⟨⟨he, rfl⟩, herr, hahead⟩ := hstep
  have hprocess : Printed.at lts s → ∃ first c, Shows lts actions replies e.toState c ∧
      Process.Step (definitions ps) (.process (.constraint s)) (.label e.label) (after (markers first e.label) c) := by
    intro hat
    obtain ⟨c, hc⟩ := Option.ne_none_iff_exists'.1
      (printNext_ends actions replies h.wellFormed h.passes he)
    exact ⟨true, c, shows_printNext hahead hc, (h.step_process hs hat).2 (.inr (.inl ⟨e, he, hahead, herr, rfl, c, hc, rfl⟩))⟩
  cases hpos with
  | start => exact hprocess (.inl rfl)
  | shows hshows =>
    cases hshows with
    | process hat =>
      refine hprocess (.inr (hat.resolve_right fun hnil => ?_))
      rw [hnil] at he
      cases he
    | @tree fuel t hrtc hne hall ht =>
      cases fuel with
      | zero => cases ht
      | succ fuel =>
        obtain ⟨c, hc⟩ := printSiblings_next ht e he herr
        exact ⟨false, c, shows_printNext hahead hc, (step_siblings ht).2 (.inl ⟨e, he, herr, rfl, c, hc, rfl⟩)⟩

/-- Which events lead to `Non_Compliance`, where there is an action or a reply. -/
theorem Prints.step_nonCompliance (h : Prints lts actions replies ps) (hs : s < lts.length)
    (hpos : Position lts actions replies start s t)
    (hany : ∃ e ∈ (node lts s).edges, (actionEvent e.label || replyEvent e.label) = true) (b : String) :
    Process.Step (definitions ps) t (.label b) (.process .nonCompliance) ↔
      if start = true ∨ (node lts s).rtc = true then b ∈ actions ∧
        ∀ e ∈ (node lts s).edges, ¬ IllegalAhead lts e → actionEvent e.label = true → e.label ≠ b
      else (b ∈ actions ∨ b ∈ replies) ∧ ∀ e ∈ (node lts s).edges, e.label ≠ b := by
  have hnonempty : (node lts s).edges ≠ [] := by
    intro hnil
    obtain ⟨e, he, -⟩ := hany
    rw [hnil] at he
    cases he
  have hprocess : Printed.at lts s →
      (Process.Step (definitions ps) (.process (.constraint s)) (.label b) (.process .nonCompliance) ↔ b ∈ actions ∧
        ∀ e ∈ (node lts s).edges, ¬ IllegalAhead lts e → actionEvent e.label = true → e.label ≠ b) := by
    intro hat
    rw [h.step_process hs hat]
    constructor
    · rintro (⟨e, -, -, -, hu⟩ | ⟨e, -, hahead, -, -, c, hc, hu⟩ | ⟨-, b', hb', ha, -, hnot⟩)
      · cases hu
      · exact absurd hu.symm ((shows_printNext hahead hc).after_ne _ _ (.inl rfl))
      · obtain rfl := Act.label.inj ha
        exact ⟨hb', hnot⟩
    · rintro ⟨hb, hnot⟩
      exact .inr (.inr ⟨hnonempty, b, hb, rfl, rfl, hnot⟩)
  cases hpos with
  | start => rw [if_pos (.inl rfl), hprocess (.inl rfl)]
  | shows hshows =>
    cases hshows with
    | process hat =>
      have hrtc := hat.resolve_right hnonempty
      rw [if_pos (.inr hrtc), hprocess (.inr hrtc)]
    | @tree fuel t hrtc hne hall ht =>
      rw [if_neg (by simp [hrtc])]
      cases fuel with
      | zero => cases ht
      | succ fuel =>
        rw [step_siblings ht]
        constructor
        · rintro (⟨e, he, -, -, c, hc, hu⟩ | ⟨b', ha, -, -, -, hnot, ho⟩)
          · exact absurd hu.symm ((shows_printNext (hall e he) hc).after_ne _ _ (.inl rfl))
          · obtain rfl := Act.label.inj ha
            exact ⟨(exists_othersPrinted hany).1 ho, hnot⟩
        · rintro ⟨hb, hnot⟩
          exact .inr ⟨b, rfl, rfl, rfl, by simp, hnot, (exists_othersPrinted hany).2 hb⟩

/-! ## Runs -/

/-- The runs of the processes that are printed, without markers and wrong branches. -/
abbrev PrintedRun (ps : List (Nat × List Printed)) : Printed → List Act → Printed → Prop :=
  Run (definitions ps) Act.marker ProcessName.wrong

/-- The labels of a path, as actions. -/
def labelActs (p : List (Edge String)) : List Act := p.map fun e => .label e.label

/-- A run is a legal path. -/
theorem Prints.run_sound (h : Prints lts actions replies ps) (hrun : PrintedRun ps t w v) :
    ∀ ms {start s c}, t = after ms c → (∀ m ∈ ms, Act.marker m) → Position lts actions replies start s c →
    s < lts.length → ∃ p s' start' ms' c', Walk (LegalStep lts) s p s' ∧ w = labelActs p ∧ v = after ms' c' ∧
      (∀ m ∈ ms', Act.marker m) ∧ Position lts actions replies start' s' c' ∧ s' < lts.length ∧
      (start' = true ↔ start = true ∧ p = []) := by
  induction hrun with
  | nil t =>
    intro ms start s c ht hms hpos hs
    exact ⟨[], s, start, ms, c, .nil s, rfl, ht, hms, hpos, hs, by simp⟩
  | @hide t u v a w hstep hmarker _ ih =>
    intro ms start s c ht hms hpos hs
    subst ht
    cases ms with
    | nil =>
      have hlabel : ∃ b, a = .label b := by
        rcases h.step_sound hs hpos hstep with ⟨e, -, -, ha, -⟩ | ⟨hb, -⟩
        · exact ⟨_, ha⟩
        · exact hb
      obtain ⟨b, rfl⟩ := hlabel
      rcases hmarker with hm | hm <;> cases hm
    | cons m ms =>
      obtain ⟨-, rfl⟩ := step_seq.1 hstep
      exact ih ms rfl (fun m hm => hms m (by simp [hm])) hpos hs
  | @act t u v a w hstep hmarker hwrong _ ih =>
    intro ms start s c ht hms hpos hs
    subst ht
    cases ms with
    | nil =>
      rcases h.step_sound hs hpos hstep with ⟨e, s', hlegal, rfl, first, c', hshows, rfl⟩ | ⟨-, name, hname, hu⟩
      · obtain ⟨p, s'', start', ms', c'', hp, rfl, hv, hms', hpos', hs', hstart⟩ := ih _ rfl markers_marker
          (.shows hshows) (h.wellFormed.lt_of_step hlegal.1)
        exact ⟨e :: p, s'', start', ms', c'', .cons hlegal hp, rfl, hv, hms', hpos', hs', by simpa using hstart⟩
      · exact absurd hu (hwrong name hname)
    | cons m ms =>
      obtain ⟨rfl, -⟩ := step_seq.1 hstep
      exact absurd (hms a (by simp)) hmarker

/-- A legal path is a run. -/
theorem Prints.run_complete (h : Prints lts actions replies ps) (hp : Walk (LegalStep lts) s p s') :
    ∀ {start c}, Position lts actions replies start s c → s < lts.length →
    ∃ start' c', Position lts actions replies start' s' c' ∧ s' < lts.length ∧ PrintedRun ps c (labelActs p) c' ∧
      (start' = true ↔ start = true ∧ p = []) := by
  induction hp with
  | nil s =>
    intro start c hpos hs
    exact ⟨start, c, hpos, hs, .nil c, by simp⟩
  | @cons s s₁ s' e p hstep _ ih =>
    intro start c hpos hs
    obtain ⟨first, c₁, hshows, hs₁⟩ := h.step_complete hs hpos hstep
    obtain ⟨start', c', hpos', hs', hrun, hstart⟩ := ih (.shows hshows) (h.wellFormed.lt_of_step hstep.1)
    refine ⟨start', c', hpos', hs', ?_, by simpa using hstart⟩
    have hmarkers : PrintedRun ps (after (markers first e.label) c₁) [] c₁ := run_after markers_marker
    exact .act hs₁ (by rintro (hm | hm) <;> cases hm) (hshows.after_ne _) (hmarkers.append hrun)

end

end

/-! ## The theorem -/

/-- No state has two edges with one label. -/
def Deterministic (lts : Lts) : Prop :=
  ∀ s, ∀ e ∈ (node lts s).edges, ∀ e' ∈ (node lts s).edges, e.label = e'.label → e = e'

theorem Deterministic.walk_unique {lts : Lts} (h : Deterministic lts) {s t t' : Nat}
    {p q : List (Edge String)}
    (hp : Walk (LegalStep lts) s p t) (hq : Walk (LegalStep lts) s q t') (heq : labelActs p = labelActs q) :
    p = q ∧ t = t' := by
  induction hp generalizing q with
  | nil s =>
    cases hq with
    | nil => exact ⟨rfl, rfl⟩
    | cons => cases heq
  | cons he _ ih =>
    cases hq with
    | nil => cases heq
    | cons he' hq =>
      obtain ⟨hl, hrest⟩ := List.cons.inj heq
      obtain rfl := h _ _ he.1.1 _ he'.1.1 (Act.label.inj hl)
      obtain rfl := he.1.2.symm.trans he'.1.2
      obtain ⟨rfl, rfl⟩ := ih hq hrest
      exact ⟨rfl, rfl⟩

/-- The label sequences of the process of the initial state. -/
def Sequence (lts : Lts) (ps : List (Nat × List Printed)) (labels : List String) : Prop :=
  ∃ v, PrintedRun ps (.process (.constraint lts.initial)) (labels.map .label) v

/-- An event leads to `Non_Compliance` after a label sequence. -/
def LeadsToNonCompliance (lts : Lts) (ps : List (Nat × List Printed)) (labels : List String)
    (event : String) : Prop :=
  ∃ v, PrintedRun ps (.process (.constraint lts.initial)) (labels.map .label) v ∧
    Process.Step (definitions ps) v (.label event) (.process .nonCompliance)

section
variable {lts : Lts} {actions replies : List String} {ps : List (Nat × List Printed)}

theorem map_label (p : List (Edge String)) : (p.map Edge.label).map Act.label = labelActs p := by
  rw [List.map_map]
  rfl

theorem Prints.sequence_iff (h : Prints lts actions replies ps) (labels : List String) :
    Sequence lts ps labels ↔ ∃ p s, Walk (LegalStep lts) lts.initial p s ∧ p.map Edge.label = labels := by
  have hinitial := h.wellFormed.initial
  constructor
  · rintro ⟨v, hrun⟩
    obtain ⟨p, s, -, -, -, hp, heq, -⟩ := h.run_sound hrun [] rfl (by simp) .start hinitial
    rw [← map_label] at heq
    exact ⟨p, s, hp, ((List.map_injective_iff.2 fun _ _ => Act.label.inj) heq).symm⟩
  · rintro ⟨p, s, hp, rfl⟩
    obtain ⟨-, c, -, -, hrun, -⟩ := h.run_complete hp .start hinitial
    exact ⟨c, by rw [map_label]; exact hrun⟩

theorem Prints.leads_iff (h : Prints lts actions replies ps) (hd : Deterministic lts) {p : List (Edge String)}
    {s : Nat} (hp : Walk (LegalStep lts) lts.initial p s)
    (hany : ∃ e ∈ (node lts s).edges, (actionEvent e.label || replyEvent e.label) = true) (b : String) :
    LeadsToNonCompliance lts ps (p.map Edge.label) b ↔
      if p = [] ∨ (node lts s).rtc = true then b ∈ actions ∧
        ∀ e ∈ (node lts s).edges, ¬ IllegalAhead lts e → actionEvent e.label = true → e.label ≠ b
      else (b ∈ actions ∨ b ∈ replies) ∧ ∀ e ∈ (node lts s).edges, e.label ≠ b := by
  have hinitial := h.wellFormed.initial
  constructor
  · rintro ⟨v, hrun, hstep⟩
    rw [map_label] at hrun
    obtain ⟨q, s', start, ms, c, hq, heq, rfl, hms, hpos, hs, hstart⟩ :=
      h.run_sound hrun [] rfl (by simp) .start hinitial
    obtain ⟨rfl, rfl⟩ := hd.walk_unique hp hq heq
    cases ms with
    | cons m ms =>
      obtain ⟨hm, -⟩ := step_seq.1 hstep
      rcases hms m (by simp) with rfl | rfl <;> cases hm
    | nil =>
      have := (h.step_nonCompliance hs hpos hany b).1 hstep
      simpa only [hstart, true_and] using this
  · intro hb
    obtain ⟨start, c, hpos, hs, hrun, hstart⟩ := h.run_complete hp .start hinitial
    refine ⟨c, by rw [map_label]; exact hrun, (h.step_nonCompliance hs hpos hany b).2 ?_⟩
    simpa only [hstart, true_and] using hb

end

/-- `lts->makreel` ends. Its process has the label sequences of the legal paths, and where there is an action
or a reply the others lead to `Non_Compliance`: the other actions only at the start and in a state of the
result, and else the other replies too. -/
theorem ltsMakreel_constrains {lts : Lts} (m : ConstraintModel) (hw : WellFormed lts) (hd : Deterministic lts)
    (hc : RtcPasses lts) : ∃ ps, ltsMakreel m lts = some ps ∧
      (∀ labels, Sequence lts ps labels ↔
        ∃ p s, Walk (LegalStep lts) lts.initial p s ∧ p.map Edge.label = labels) ∧
      ∀ p s, Walk (LegalStep lts) lts.initial p s →
        (∃ e ∈ (node lts s).edges, (actionEvent e.label || replyEvent e.label) = true) → ∀ b,
        (LeadsToNonCompliance lts ps (p.map Edge.label) b ↔
          if p = [] ∨ (node lts s).rtc = true then b ∈ modelActions m ∧
            ∀ e ∈ (node lts s).edges, ¬ IllegalAhead lts e → actionEvent e.label = true → e.label ≠ b
          else (b ∈ modelActions m ∨ b ∈ modelReplies m) ∧ ∀ e ∈ (node lts s).edges, e.label ≠ b) := by
  obtain ⟨ps, hps, hspec⟩ := printNodes_spec (modelActions m) (modelReplies m) hw hc
  have h : Prints lts (modelActions m) (modelReplies m) ps := ⟨hw, hc, hspec⟩
  exact ⟨ps, hps, h.sequence_iff, fun p s hp hany b => h.leads_iff hd hp hany b⟩

/-! ## An interface -/

/-- An illegal edge is only reached directly after a trigger. -/
def IllegalAfterTrigger (lts : Lts) : Prop :=
  ∀ s, ∀ e ∈ (node lts s).edges, illegalEvent e.label = true → s ≠ lts.initial ∧
    ∀ u, ∀ d ∈ (node lts u).edges, d.toState = s → triggerEvent d.label = true

def exampleModel : ConstraintModel := ⟨"I'", ["a"], [.void]⟩

/-- In its only state the interface may do `a`, `t` may be illegal or replied to, and `u` runs into an error. -/
def exampleAut : Aut :=
  ⟨0, 4, [makeEdge 0 "I'state(0)" 0 false, makeEdge 0 "I'out(I'action(I'out'a))" 0 false,
    makeEdge 0 "I'in(I'action(I'in't))" 1 false, makeEdge 1 "illegal" 2 false,
    makeEdge 1 "I'reply(I'Void(void))" 0 false, makeEdge 0 "I'in(I'action(I'in'u))" 3 false,
    makeEdge 3 "range_error" 2 false], Aut.four_pos, by decide⟩

def exampleLts : Lts := (constructLts exampleAut).getD []

theorem exampleLts_ok : WellFormed exampleLts ∧ Deterministic exampleLts ∧ RtcPasses exampleLts ∧
    IllegalAfterTrigger exampleLts := by
  obtain ⟨lts, h, -, hw, -⟩ := constructLts_annotated exampleAut
  obtain rfl : exampleLts = lts := by rw [exampleLts, h]; rfl
  have hlen : exampleLts.length = 4 := by decide
  have hlt : ∀ {s e}, e ∈ (node exampleLts s).edges → s < 4 := by
    intro s e he
    by_contra hge
    rw [node_of_le (by omega)] at he
    cases he
  refine ⟨hw, ?_, ?_, ?_⟩
  · have hlabels : ∀ s, s < 4 → ((node exampleLts s).edges.map Edge.label).Nodup := by decide
    intro s e he e' he' heq
    exact List.inj_on_of_nodup_map (hlabels s (hlt he)) he he' heq
  · have hrank : ∀ s, s < 4 → ∀ e ∈ (node exampleLts s).edges, (node exampleLts e.fromState).rtc = true ∨
        e.toState % 2 < s % 2 := by decide
    intro s c hne hc
    refine hc.exists_of_rank (fun s => s % 2) ?_ hne
    rintro s e t ⟨he, rfl⟩ hnot
    exact (hrank s (hlt he) e he).resolve_left hnot
  · have hbounded : ∀ s, s < 4 → ∀ e ∈ (node exampleLts s).edges, illegalEvent e.label = true →
        s ≠ exampleLts.initial ∧ ∀ u, u < 4 → ∀ d ∈ (node exampleLts u).edges, d.toState = s →
        triggerEvent d.label = true := by decide
    intro s e he hill
    obtain ⟨hinitial, hall⟩ := hbounded s (hlt he) e he hill
    exact ⟨hinitial, fun u d hd => hall u (hlt hd) d hd⟩

theorem ltsMakreel_constrains_example : ∃ ps, ltsMakreel exampleModel exampleLts = some ps ∧
    (∀ labels, Sequence exampleLts ps labels ↔
      ∃ p s, Walk (LegalStep exampleLts) exampleLts.initial p s ∧ p.map Edge.label = labels) ∧
    ∀ p s, Walk (LegalStep exampleLts) exampleLts.initial p s →
      (∃ e ∈ (node exampleLts s).edges, (actionEvent e.label || replyEvent e.label) = true) → ∀ b,
      (LeadsToNonCompliance exampleLts ps (p.map Edge.label) b ↔
        if p = [] ∨ (node exampleLts s).rtc = true then b ∈ modelActions exampleModel ∧
          ∀ e ∈ (node exampleLts s).edges, ¬ IllegalAhead exampleLts e → actionEvent e.label = true → e.label ≠ b
        else (b ∈ modelActions exampleModel ∨ b ∈ modelReplies exampleModel) ∧
          ∀ e ∈ (node exampleLts s).edges, e.label ≠ b) :=
  ltsMakreel_constrains exampleModel exampleLts_ok.1 exampleLts_ok.2.1 exampleLts_ok.2.2.1

/-- At the start, where `a` is an action, a reply does not lead to `Non_Compliance`; the reply to `t` and the
error of `u`, which are no illegals, are not in the process. -/
theorem ltsMakreel_example : (WellFormed exampleLts ∧ Deterministic exampleLts ∧ RtcPasses exampleLts ∧
    IllegalAfterTrigger exampleLts) ∧ ∃ ps, ltsMakreel exampleModel exampleLts = some ps ∧
    ((∃ e ∈ (node exampleLts exampleLts.initial).edges, actionEvent e.label = true) ∧
      ∃ b ∈ modelReplies exampleModel, (∀ e ∈ (node exampleLts exampleLts.initial).edges, e.label ≠ b) ∧
        ¬ LeadsToNonCompliance exampleLts ps [] b) ∧
    (∃ p s, Trace exampleLts exampleLts.initial p s ∧ (∀ e ∈ p, illegalEvent e.label = false ∧ errorEvent e.label = false) ∧
      ¬ Sequence exampleLts ps (p.map Edge.label)) ∧
    ∃ p s, Trace exampleLts exampleLts.initial p s ∧ (∀ e ∈ p, ¬ IllegalAhead exampleLts e) ∧
      ¬ Sequence exampleLts ps (p.map Edge.label) := by
  obtain ⟨hw, hd, hc, hi⟩ := exampleLts_ok
  obtain ⟨ps, hps, hspec⟩ := printNodes_spec (modelActions exampleModel) (modelReplies exampleModel) hw hc
  have h : Prints exampleLts (modelActions exampleModel) (modelReplies exampleModel) ps := ⟨hw, hc, hspec⟩
  have hinitial : exampleLts.initial = 0 := by decide
  have haction : ∃ e ∈ (node exampleLts exampleLts.initial).edges, actionEvent e.label = true := by
    refine ⟨makeEdge 0 "I'out(I'action(I'out'a))" 0 false, by decide, by decide⟩
  have hedges : ∀ e ∈ (node exampleLts 0).edges, e.label = "I'in(I'action(I'in't))" → e.toState = 1 := by decide
  have hahead : ∀ e ∈ (node exampleLts 0).edges, e.label = "I'in(I'action(I'in't))" → IllegalAhead exampleLts e := by
    intro e he hl
    have hmem : makeEdge 1 "illegal" 2 false ∈ nextEdges exampleLts e := by
      rw [mem_nextEdges, hedges e he hl]
      decide
    exact .later hmem (.here (by decide))
  refine ⟨⟨hw, hd, hc, hi⟩, ps, hps, ⟨haction, ?_⟩, ?_, ?_⟩
  · refine ⟨"I'reply(I'Void(void))", by decide, by decide, fun hleads => ?_⟩
    have hany : ∃ e ∈ (node exampleLts exampleLts.initial).edges, (actionEvent e.label || replyEvent e.label) = true := by
      obtain ⟨e, he, hact⟩ := haction
      exact ⟨e, he, by rw [hact, Bool.true_or]⟩
    have hb := (h.leads_iff hd (.nil _) hany _).1 hleads
    rw [if_pos (.inl rfl)] at hb
    exact absurd hb.1 (by decide)
  · refine ⟨[makeEdge 0 "I'in(I'action(I'in't))" 1 false, makeEdge 1 "I'reply(I'Void(void))" 0 false], 0,
      .cons (t := 1) ⟨by decide, rfl⟩ (.cons ⟨by decide, rfl⟩ (.nil 0)), by decide, fun hseq => ?_⟩
    obtain ⟨p, s, hp, hlabels⟩ := (h.sequence_iff _).1 hseq
    rw [hinitial] at hp
    cases hp with
    | nil => cases hlabels
    | cons hstep _ => exact hstep.2.2 (hahead _ hstep.1.1 (List.cons.inj hlabels).1)
  · refine ⟨[makeEdge 0 "I'in(I'action(I'in'u))" 3 false, makeEdge 3 "range_error" 2 false], 2,
      .cons (t := 3) ⟨by decide, rfl⟩ (.cons ⟨by decide, rfl⟩ (.nil 2)), ?_, fun hseq => ?_⟩
    · have hend : ¬ IllegalAhead exampleLts (makeEdge 3 "range_error" 2 false) := by
        intro hill
        cases hill with
        | here hh => exact absurd hh (by decide)
        | later he' _ => exact absurd he' (by
            have : nextEdges exampleLts (makeEdge 3 "range_error" 2 false) = [] := by decide
            rw [this]
            simp)
      have hnext : nextEdges exampleLts (makeEdge 0 "I'in(I'action(I'in'u))" 3 false) =
          [makeEdge 3 "range_error" 2 false] := by decide
      intro e he hill
      rcases List.mem_cons.1 he with rfl | he
      · cases hill with
        | here hh => exact absurd hh (by decide)
        | later he' hill =>
          rw [hnext] at he'
          obtain rfl := List.mem_singleton.1 he'
          exact hend hill
      · obtain rfl := List.mem_singleton.1 he
        exact hend hill
    · obtain ⟨p, s, hp, hlabels⟩ := (h.sequence_iff _).1 hseq
      cases hp with
      | nil => cases hlabels
      | cons _ hp =>
        cases hp with
        | nil => cases (List.cons.inj hlabels).2
        | cons hstep _ =>
          have hlabel := (List.cons.inj (List.cons.inj hlabels).2).1
          have herr := hstep.2.1
          rw [hlabel] at herr
          exact absurd herr (by decide)

end Dezyne
