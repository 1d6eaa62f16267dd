import Dezyne.Model
/-!
# Shared variables

`p.x` is looked up by the name of the port and that of the variable in one
string, first among the variables of the behavior and then in the interface of
the port. The string is compared with the names of members, and with the
strings of the copies that `makreel:add-shared-variables` adds.
-/

namespace Dezyne

/-! ## Components -/

/-- An element of `ast:variable*`: a `<shared-variable>` has a port. -/
structure Declared where
  port : Option String
  decl : Variable
deriving Repr

/-- A `<port>` with the variables of the behavior of its interface. -/
structure SharedPort where
  name : String
  members : List Variable
deriving Repr

/-- A `<shared-var>` or `<shared-field-test>`, with the names that are declared in the scopes around it up to
the behavior, the innermost first. -/
structure Reference where
  scopes : List (List String)
  port : String
  name : String
deriving Repr

/-- A component with what its behavior declares and the shared variables it refers to. -/
structure SharedComponent where
  ports : List SharedPort
  types : List String
  functions : List String
  members : List Declared
  references : List Reference
deriving Repr

/-! ## Lookup -/

/-- What `name?` of `ast:lookup-variable` compares with a name. -/
def Declared.lookupName (d : Declared) : String :=
  match d.port with
  | some port => port ++ d.decl.name
  | none => d.decl.name

/-- What `ast:lookup` finds: a port, or something else. -/
inductive Declaration where
  | port (p : SharedPort)
  | other (name : String)
deriving Repr

def Declaration.name : Declaration → String
  | .port p => p.name
  | .other name => name

/-- What a `.variable` resolves to. -/
inductive Resolved where
  | behavior (d : Declared)
  | interface (port : SharedPort) (v : Variable)
deriving Repr

def Resolved.decl : Resolved → Variable
  | .behavior d => d.decl
  | .interface _ v => v

/-- Two references to one shared variable. -/
def Reference.same (r r' : Reference) : Bool := r.port == r'.port && r.name == r'.name

namespace SharedComponent

variable (c : SharedComponent)

/-- The names of `ast:declaration*` of the behavior. -/
def behaviorNames : List String := c.types ++ c.functions ++ c.members.map fun d => d.decl.name

/-- The `ast:declaration*` of the scopes around a reference. -/
def declarations (r : Reference) : List (List Declaration) :=
  (r.scopes ++ [c.behaviorNames]).map (List.map .other) ++ [c.ports.map .port]

/-- `ast:lookup`; what is around a component is no port. -/
def lookup (r : Reference) (name : String) : Option Declaration :=
  (c.declarations r).findSome? fun ds => ds.find? (·.name == name)

/-- `(as o <port>)` -/
def asPort : Declaration → Option SharedPort
  | .port p => some p
  | .other _ => none

/-- `.port` -/
def port (r : Reference) : Option SharedPort := (c.lookup r r.port).bind asPort

/-- `ast:lookup-variable` of a `<behavior>` -/
def lookupVariable (name : String) : Option Declared := c.members.find? (·.lookupName == name)

/-- `lookup-shared-variable` -/
def lookupSharedVariable (port : SharedPort) (name : String) : Option Variable :=
  port.members.find? (·.name == name)

/-- `.variable` of a `<shared-var>` and of a `<shared-field-test>` -/
def resolve (r : Reference) : Option Resolved := do
  let port ← c.port r
  ((c.lookupVariable (port.name ++ r.name)).map .behavior).or
    ((lookupSharedVariable port r.name).map (.interface port))

/-! ## Copies -/

/-- `delete-duplicates` by port and name -/
def distinct : List Reference → List Reference
  | [] => []
  | r :: rs => r :: (distinct rs).filter fun r' => !r.same r'

/-- `shared-var->shared-variable` -/
def sharedVariable (r : Reference) : Option Declared :=
  (c.resolve r).map fun v => ⟨some r.port, v.decl⟩

/-- `makreel:add-shared-variables` -/
def addSharedVariables : Option SharedComponent := do
  let shared ← (distinct c.references).mapM c.sharedVariable
  return { c with members := c.members ++ shared }

/-! ## What a reference is to -/

/-- A variable of the interface of the port, or its copy in the behavior. -/
def Own (r : Reference) : Option Resolved → Prop
  | some (.interface port v) => port ∈ c.ports ∧ port.name = r.port ∧ v ∈ port.members ∧ v.name = r.name
  | some (.behavior d) => d.port = some r.port ∧ d.decl.name = r.name
  | none => False

/-- A component of the source, whose references `wfc` accepts. -/
structure Checked : Prop where
  members : ∀ d ∈ c.members, d.port = none
  resolves : ∀ r ∈ c.references, (c.resolve r).isSome = true

/-! ## Ports -/

variable {c : SharedComponent} {r : Reference} {name : String}

theorem find_other (names : List String) :
    (names.map Declaration.other).find? (·.name == name) = if name ∈ names then some (.other name) else none := by
  induction names with
  | nil => rfl
  | cons n names ih =>
    by_cases h : n = name
    · subst h
      simp [Declaration.name]
    · rw [List.map_cons, List.find?_cons_of_neg (by simpa [Declaration.name] using h), ih]
      simp [Ne.symm h]

theorem find_port (ports : List SharedPort) :
    (ports.map Declaration.port).find? (·.name == name) = (ports.find? (·.name == name)).map .port := by
  rw [List.find?_map]
  rfl

/-- A scope within the component declares the name of the port. -/
def HidesPort (c : SharedComponent) (r : Reference) : Prop :=
  ∃ names ∈ r.scopes ++ [c.behaviorNames], r.port ∈ names

/-- A reference is to a port exactly if no scope within the component has its name. -/
theorem port_eq_some_iff {p : SharedPort} : c.port r = some p ↔
    ¬ c.HidesPort r ∧ c.ports.find? (·.name == r.port) = some p := by
  have hscopes : ∀ scopes : List (List String),
      (((scopes.map (List.map Declaration.other) ++ [c.ports.map Declaration.port]).findSome?
        fun ds : List Declaration => ds.find? (·.name == r.port)).bind asPort) = some p ↔
      ¬ (∃ names ∈ scopes, r.port ∈ names) ∧ c.ports.find? (·.name == r.port) = some p := by
    intro scopes
    induction scopes with
    | nil =>
      rw [List.map_nil, List.nil_append, List.findSome?_cons, find_port]
      cases c.ports.find? (·.name == r.port) <;> simp [asPort]
    | cons names scopes ih =>
      rw [List.map_cons, List.cons_append, List.findSome?_cons, find_other]
      by_cases h : r.port ∈ names
      · simp [h, asPort]
      · rw [if_neg h]
        exact ih.trans (by simp [h])
  exact hscopes (r.scopes ++ [c.behaviorNames])

/-! ## Variables -/

theorem port_mem {p : SharedPort} (h : c.port r = some p) : p ∈ c.ports ∧ p.name = r.port := by
  have hfind := (port_eq_some_iff.1 h).2
  exact ⟨List.mem_of_find?_eq_some hfind, by simpa using List.find?_some hfind⟩

/-- A reference is to its own variable exactly if that is what the behavior has first under the string. -/
theorem own_resolve_iff {p : SharedPort} (hp : c.port r = some p) : c.Own r (c.resolve r) ↔
    (∀ d, c.lookupVariable (r.port ++ r.name) = some d → d.port = some r.port ∧ d.decl.name = r.name) ∧
      (c.lookupVariable (r.port ++ r.name) = none → ∃ v ∈ p.members, v.name = r.name) := by
  obtain ⟨hmem, hname⟩ := port_mem hp
  rw [resolve, hp]
  simp only [Option.bind_eq_bind, Option.bind_some, hname]
  cases hl : c.lookupVariable (r.port ++ r.name) with
  | some d => simp [Own]
  | none =>
    rw [Option.map_none, Option.none_or, lookupSharedVariable]
    cases hv : p.members.find? (·.name == r.name) with
    | some v =>
      have hin := List.mem_of_find?_eq_some hv
      have heq : v.name = r.name := by simpa using List.find?_some hv
      constructor
      · intro _
        exact ⟨fun d hd => (by cases hd), fun _ => ⟨v, hin, heq⟩⟩
      · intro _
        exact ⟨hmem, hname, hin, heq⟩
    | none =>
      rw [List.find?_eq_none] at hv
      refine ⟨fun h => h.elim, fun h => ?_⟩
      obtain ⟨v, hin, heq⟩ := h.2 rfl
      exact hv v hin (by simpa using heq)

theorem lookupVariable_some {d : Declared} (h : c.lookupVariable name = some d) :
    d ∈ c.members ∧ d.lookupName = name :=
  ⟨List.mem_of_find?_eq_some h, by simpa using List.find?_some h⟩

theorem lookupVariable_none : c.lookupVariable name = none ↔ ∀ d ∈ c.members, d.lookupName ≠ name := by
  simp [lookupVariable, List.find?_eq_none]

/-- A reference that resolves is to a port. -/
theorem port_of_resolve (h : (c.resolve r).isSome = true) : ∃ p, c.port r = some p := by
  rw [resolve] at h
  cases hp : c.port r with
  | some p => exact ⟨p, rfl⟩
  | none =>
    rw [hp] at h
    cases h

/-- In the source a reference is to its own variable exactly if no member is named like the string. -/
theorem own_iff_members (h : c.Checked) (hr : r ∈ c.references) :
    c.Own r (c.resolve r) ↔ ∀ d ∈ c.members, d.decl.name ≠ r.port ++ r.name := by
  have hresolves := h.resolves r hr
  obtain ⟨p, hp⟩ := port_of_resolve hresolves
  have hname : ∀ d ∈ c.members, d.lookupName = d.decl.name := by
    intro d hd
    rw [Declared.lookupName, h.members d hd]
  rw [own_resolve_iff hp]
  constructor
  · rintro ⟨hsome, -⟩ d hd heq
    cases hl : c.lookupVariable (r.port ++ r.name) with
    | none => exact lookupVariable_none.1 hl d hd (by rw [hname d hd, heq])
    | some d' =>
      have hport := (hsome d' hl).1
      rw [h.members d' (lookupVariable_some hl).1] at hport
      cases hport
  · intro hnone
    have hl : c.lookupVariable (r.port ++ r.name) = none := by
      rw [lookupVariable_none]
      intro d hd
      rw [hname d hd]
      exact hnone d hd
    refine ⟨fun d hd => (by rw [hl] at hd; cases hd), fun _ => ?_⟩
    rw [resolve, hp] at hresolves
    simp only [Option.bind_eq_bind, Option.bind_some, (port_mem hp).2, hl, Option.map_none, Option.none_or,
      Option.isSome_map] at hresolves
    obtain ⟨v, hv⟩ := Option.isSome_iff_exists.1 hresolves
    exact ⟨v, List.mem_of_find?_eq_some hv, by simpa using List.find?_some hv⟩

/-! ## After `makreel:add-shared-variables` -/

theorem same_iff {r' : Reference} : r.same r' = true ↔ r.port = r'.port ∧ r.name = r'.name := by
  simp [Reference.same]

theorem mem_of_mem_distinct : ∀ {rs : List Reference}, r ∈ distinct rs → r ∈ rs := by
  intro rs
  induction rs with
  | nil => exact id
  | cons r' rs ih =>
    intro h
    rcases List.mem_cons.1 h with rfl | h
    · exact List.mem_cons_self
    · exact List.mem_cons_of_mem _ (ih (List.mem_filter.1 h).1)

theorem exists_mem_distinct : ∀ {rs : List Reference}, r ∈ rs → ∃ r' ∈ distinct rs, r'.same r = true := by
  intro rs
  induction rs with
  | nil => intro h; cases h
  | cons r₀ rs ih =>
    intro h
    by_cases hs : r₀.same r = true
    · exact ⟨r₀, List.mem_cons_self, hs⟩
    · rcases List.mem_cons.1 h with rfl | h
      · exact absurd (same_iff.2 ⟨rfl, rfl⟩) hs
      · obtain ⟨r', hr', hsame⟩ := ih h
        refine ⟨r', List.mem_cons_of_mem _ (List.mem_filter.2 ⟨hr', ?_⟩), hsame⟩
        have : r₀.same r' ≠ true := by
          intro h0
          obtain ⟨hp, hn⟩ := same_iff.1 h0
          obtain ⟨hp', hn'⟩ := same_iff.1 hsame
          exact hs (same_iff.2 ⟨hp.trans hp', hn.trans hn'⟩)
        simpa using this

theorem mem_of_mapM {α β : Type} {f : α → Option β} : ∀ {l : List α} {l' : List β}, l.mapM f = some l' →
    ∀ b, b ∈ l' ↔ ∃ a ∈ l, f a = some b := by
  intro l
  induction l with
  | nil =>
    intro l' h b
    obtain rfl := Option.some.inj h
    simp
  | cons a l ih =>
    intro l' h b
    rw [List.mapM_cons] at h
    obtain ⟨b', hb', h⟩ := Option.bind_eq_some_iff.1 h
    obtain ⟨l'', hl'', h⟩ := Option.bind_eq_some_iff.1 h
    obtain rfl := Option.some.inj h
    rw [List.mem_cons, ih hl'' b, List.exists_mem_cons_iff, hb', Option.some_inj, eq_comm]

/-- `makreel:add-shared-variables` adds a copy of what each reference resolves to. -/
theorem addSharedVariables_spec (h : c.Checked) : ∃ shared, c.addSharedVariables =
    some { c with members := c.members ++ shared } ∧
      ∀ d, d ∈ shared ↔ ∃ r ∈ distinct c.references, c.sharedVariable r = some d := by
  have hsome : ∀ rs : List Reference, (∀ r ∈ rs, r ∈ c.references) → ∃ shared, rs.mapM c.sharedVariable = some shared := by
    intro rs
    induction rs with
    | nil => intro _; exact ⟨[], rfl⟩
    | cons r rs ih =>
      intro hrs
      obtain ⟨v, hv⟩ := Option.isSome_iff_exists.1 (h.resolves r (hrs r (by simp)))
      obtain ⟨shared, hshared⟩ := ih fun r hr => hrs r (by simp [hr])
      refine ⟨⟨some r.port, v.decl⟩ :: shared, ?_⟩
      rw [List.mapM_cons, sharedVariable, hv, hshared]
      rfl
  obtain ⟨shared, hshared⟩ := hsome _ fun r hr => mem_of_mem_distinct hr
  refine ⟨shared, ?_, mem_of_mapM hshared⟩
  rw [addSharedVariables, hshared]
  rfl

theorem Own.decl_name {v : Resolved} (h : c.Own r (some v)) : v.decl.name = r.name := by
  cases v with
  | behavior d => exact h.2
  | interface port v => exact h.2.2.2

/-- The copies are those of the references, if these are to their own variables. -/
theorem mem_copies (h : c.Checked) {shared : List Declared}
    (hshared : ∀ d, d ∈ shared ↔ ∃ r ∈ distinct c.references, c.sharedVariable r = some d)
    (hown : ∀ r ∈ c.references, c.Own r (c.resolve r)) :
    (∀ d ∈ shared, ∃ r ∈ c.references, d.port = some r.port ∧ d.decl.name = r.name) ∧
      ∀ r ∈ c.references, ∃ d ∈ shared, d.port = some r.port ∧ d.decl.name = r.name := by
  constructor
  · intro d hd
    obtain ⟨r, hr, hcopy⟩ := (hshared d).1 hd
    have hr := mem_of_mem_distinct hr
    obtain ⟨v, hv, rfl⟩ := Option.map_eq_some_iff.1 hcopy
    have hown := hown r hr
    rw [hv] at hown
    exact ⟨r, hr, rfl, hown.decl_name⟩
  · intro r hr
    obtain ⟨r', hr', hsame⟩ := exists_mem_distinct hr
    obtain ⟨hport, hname⟩ := same_iff.1 hsame
    obtain ⟨v, hv⟩ := Option.isSome_iff_exists.1 (h.resolves r' (mem_of_mem_distinct hr'))
    have hown := hown r' (mem_of_mem_distinct hr')
    rw [hv] at hown
    refine ⟨⟨some r'.port, v.decl⟩, (hshared _).2 ⟨r', hr', ?_⟩, by rw [hport], hown.decl_name.trans hname⟩
    rw [sharedVariable, hv]
    rfl

/-- The names of ports, of members and of the shared variables referred to do not run into each other. -/
structure Separate (c : SharedComponent) : Prop where
  members : ∀ r ∈ c.references, ∀ d ∈ c.members, d.decl.name ≠ r.port ++ r.name
  references : ∀ r ∈ c.references, ∀ r' ∈ c.references, r.port ++ r.name = r'.port ++ r'.name →
    r.port = r'.port ∧ r.name = r'.name
  ports : ∀ r ∈ c.references, ∀ r' ∈ c.references, r'.name ≠ r.port

/-- A port `p` whose interface has a variable `x`, a member named `member`, and a reference to `p.x`. -/
def sharedExample (member : String) : SharedComponent where
  ports := [⟨"p", [⟨["bool"], "x", .true⟩]⟩]
  types := []
  functions := []
  members := [⟨none, ⟨["bool"], member, .false⟩⟩]
  references := [⟨[], "p", "x"⟩]

theorem checked_sharedExample : (sharedExample "px").Checked ∧ (sharedExample "y").Checked := by
  refine ⟨⟨by decide, by decide⟩, ⟨by decide, by decide⟩⟩

end SharedComponent

end Dezyne
