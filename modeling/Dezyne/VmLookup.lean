import Dezyne.VmScope
/-!
# The variable a name finds

The list of variables is searched by name, from the front. What a statement
finds there is the declaration its name is looked up to, unless a local of
something else that is active has the name too: of a caller, of a handler that
waits, or the variable itself whose initialiser is evaluated.
-/

namespace Dezyne

/-! ## Places in the list -/

/-- Where `assoc-ref` and `assoc-set!` find a name. -/
def accessedAt (vars : Variables) (name : String) : Nat := vars.names.idxOf name

/-- Where the last activation of the declaration is that `ast:lookup-variable` finds: what is in scope of the
statement that runs is in front, and the members are at the end. -/
def Instance.declaredAt (p : Instance) (around : List Layer) (vars : Variables) (name : String) : Nat :=
  let i := (localNames (scope around) ++ p.memberNames).idxOf name
  if i < (scope around).length then i else i + (vars.length - p.members.length - (scope around).length)

section
variable {p : Instance} {vars : Variables} {name : String}

theorem lookup_accessedAt : ∀ vars : Variables, vars.lookup name = vars[accessedAt vars name]?.map Prod.snd := by
  intro vars
  induction vars with
  | nil => rfl
  | cons entry vars ih =>
    obtain ⟨y, v⟩ := entry
    rw [List.lookup_cons]
    by_cases h : name = y
    · subst h
      simp [accessedAt, Variables.names]
    · have hne : (name == y) = false := by simpa using h
      have hidx : accessedAt ((y, v) :: vars) name = accessedAt vars name + 1 :=
        List.idxOf_cons_ne _ (Ne.symm h)
      rw [hne, hidx, List.getElem?_cons_succ]
      exact ih

theorem assocSet_accessedAt {value : Value} (h : name ∈ vars.names) :
    assocSet vars name value = vars.set (accessedAt vars name) (name, some value) := by
  have hlt : accessedAt vars name < vars.length := by
    rw [← names_length]
    exact List.idxOf_lt_length_iff.2 h
  rw [assocSet, if_pos h, List.set_eq_take_append_cons_drop, if_pos hlt]
  rfl

theorem scope_length (around : List Layer) : (localNames (scope around)).length = (scope around).length :=
  List.length_map _

/-- What is looked up is in scope or a member. -/
theorem lookupVariable_mem {around : List Layer} {d : Local} (h : p.lookupVariable around name = some d) :
    name ∈ localNames (scope around) ++ p.memberNames := by
  have hname : d.2 = name := by simpa using List.find?_some h
  subst hname
  have hmem := List.mem_of_find?_eq_some h
  rw [Instance.memberNames, localNames, localNames, ← List.map_append]
  exact List.mem_map_of_mem hmem

theorem length_of_names {around : List Layer} {others : List String}
    (hnames : vars.names = localNames (scope around) ++ others ++ p.memberNames) :
    vars.length = (scope around).length + others.length + p.members.length := by
  rw [← names_length, hnames, List.length_append, List.length_append, scope_length, memberNames_length]

/-- The entry at the declaration has its name. -/
theorem names_declaredAt {around : List Layer} {others : List String}
    (hnames : vars.names = localNames (scope around) ++ others ++ p.memberNames)
    (hmem : name ∈ localNames (scope around) ++ p.memberNames) :
    vars.names[p.declaredAt around vars name]? = some name := by
  have hlen := length_of_names hnames
  have hidx := List.idxOf_lt_length_iff.2 hmem
  have hget := List.getElem?_idxOf hmem
  unfold Instance.declaredAt
  simp only
  split
  case isTrue hlt =>
    rw [hnames, List.append_assoc, List.getElem?_append_left (by rw [scope_length]; exact hlt)]
    rwa [List.getElem?_append_left (by rw [scope_length]; exact hlt)] at hget
  case isFalse hge =>
    rw [List.getElem?_append_right (by rw [scope_length]; omega), scope_length] at hget
    rw [hnames, List.getElem?_append_right (by rw [List.length_append, scope_length, hlen]; omega), ← hget]
    congr 1
    rw [List.length_append, scope_length, hlen]
    omega

/-- A name finds its declaration, if nothing else that is active has the name. -/
theorem accessedAt_eq_iff {around : List Layer} {others : List String}
    (hnames : vars.names = localNames (scope around) ++ others ++ p.memberNames) :
    accessedAt vars name = p.declaredAt around vars name ↔
      name ∈ localNames (scope around) ∨ name ∉ others := by
  have hlen := length_of_names hnames
  unfold accessedAt Instance.declaredAt
  rw [hnames]
  by_cases hscope : name ∈ localNames (scope around)
  · have hlt := List.idxOf_lt_length_iff.2 hscope
    rw [scope_length] at hlt
    simp [List.idxOf_append_of_mem, hscope, hlt, List.append_assoc]
  · simp only [List.append_assoc, List.idxOf_append_of_notMem hscope, scope_length, hscope, false_or]
    by_cases hothers : name ∈ others
    · have hlt := List.idxOf_lt_length_iff.2 hothers
      rw [List.idxOf_append_of_mem hothers, if_neg (by omega)]
      simp only [hothers, not_true, iff_false]
      omega
    · rw [List.idxOf_append_of_notMem hothers, if_neg (by omega)]
      simp only [hothers, not_false_iff, iff_true]
      omega

end

/-! ## Uses -/

/-- The names that are read when an expression is evaluated, the short-circuit of `and` and `or` included. -/
inductive Reads (shared : String → String → Value) (vars : Variables) : Expr → String → Prop
  | var (x : String) : Reads shared vars (.var x) x
  | fieldTest (x f : String) : Reads shared vars (.fieldTest x f) x
  | group {e : Expr} {x : String} : Reads shared vars e x → Reads shared vars (.group e) x
  | not {e : Expr} {x : String} : Reads shared vars e x → Reads shared vars (.not e) x
  | left {op : BinOp} {l r : Expr} {x : String} : Reads shared vars l x → Reads shared vars (.binary op l r) x
  | and {l r : Expr} {x : String} {v : Value} : evalExpression shared vars l = some v → v.truth = true →
      Reads shared vars r x → Reads shared vars (.binary .and l r) x
  | or {l r : Expr} {x : String} {v : Value} : evalExpression shared vars l = some v → v.truth = false →
      Reads shared vars r x → Reads shared vars (.binary .or l r) x
  | right {op : BinOp} {l r : Expr} {x : String} : op ≠ .and → op ≠ .or → Reads shared vars r x →
      Reads shared vars (.binary op l r) x
  | otherwiseValue {e : Expr} {x : String} : Reads shared vars e x → Reads shared vars (.otherwiseValue e) x

/-- The expressions that the step of a statement evaluates, without those of a `<variable>`. -/
def Stmt.evaluates : Stmt → List Expr
  | .guard e _ => [e]
  | .ifThen e _ => [e]
  | .ifElse e _ _ => [e]
  | .call _ as => as
  | .reply _ e => [e]
  | .returnStmt e => [e]
  | .assign _ e => if isCallOrAction e then [] else [e]
  | _ => []

/-- A name is used at a state: where it is in the program, and the variable whose initialiser it is in, if it is
in one. -/
inductive Uses (p : Instance) (shared : String → String → Value) (vm : Vm) :
    List Layer → Option String → String → Prop
  | reads {s : Stmt} {around : List Layer} {rest : List Focus} {e : Expr} {x : String} :
      vm.frames = .statement s around :: rest → e ∈ s.evaluates → Reads shared vm.vars e x →
      Uses p shared vm around none x
  | assigns {x : String} {e : Expr} {around : List Layer} {rest : List Focus} :
      vm.frames = .statement (.assign x e) around :: rest → Uses p shared vm around none x
  | initialises {type : ScopeName} {y x : String} {e : Expr} {around : List Layer} {rest : List Focus} :
      vm.frames = .statement (.variableDecl type y e) around :: rest → isCallOrAction e = false →
      Reads shared ((y, none) :: vm.vars) e x → Uses p shared vm around (some y) x
  -- `check-invariants`
  | invariant {e : Expr} {x : String} : vm.frames = [] → .invariant e ∈ p.statement → Reads shared vm.vars e x →
      Uses p shared vm [] none x
  -- a `<shared-var>` of another instance, which has this one as a port
  | shared {x : String} : x ∈ p.memberNames → Uses p shared vm [] none x

/-- The list in which the name is looked for: `push-local` of a `<variable>` comes before its initialiser. -/
def Vm.searched (vm : Vm) (self : Option String) : Variables :=
  self.toList.map (fun y => (y, none)) ++ vm.vars

/-- What is found in the list is the declaration. -/
def Vm.findsDeclared (p : Instance) (vm : Vm) (around : List Layer) (self : Option String) (x : String) :
    Prop :=
  accessedAt (vm.searched self) x = self.toList.length + p.declaredAt around vm.vars x

/-- No initialiser mentions its own variable, and no local that is active but not in scope has the name. -/
def Vm.unshadowed (p : Instance) (vm : Vm) (around : List Layer) (self : Option String) (x : String) : Prop :=
  x ∉ self ∧ (x ∈ localNames (scope around) ∨ x ∉ vm.liveNames p)

section
variable {p : Instance} {shared : String → String → Value} {vm : Vm} {around : List Layer} {self : Option String}
  {x : String} {rest : List Focus} {s : Stmt}

/-- What is in scope of the statement that runs is in front of the list. -/
theorem liveNames_top (hf : vm.frames = .statement s around :: rest) :
    ∃ others, vm.liveNames p = localNames (scope around) ++ others := by
  obtain ⟨others, hlive⟩ := live_eq around
  have hlive : (Focus.statement s around).live p = localNames (scope around) ++ others := hlive
  refine ⟨others ++ vm.below p rest, ?_⟩
  rw [Vm.liveNames, Vm.places, hf, List.cons_append, List.flatMap_cons, hlive, List.append_assoc]
  rfl

theorem Uses.liveNames (hu : Uses p shared vm around self x) :
    ∃ others, vm.liveNames p = localNames (scope around) ++ others := by
  cases hu with
  | reads hf _ _ => exact liveNames_top hf
  | assigns hf => exact liveNames_top hf
  | initialises hf _ _ => exact liveNames_top hf
  | invariant _ _ _ => exact ⟨_, rfl⟩
  | shared _ => exact ⟨_, rfl⟩

/-- In every run whose steps are orderly, a name that is used finds the declaration it is looked up to if and only
if nothing shadows it. -/
theorem findsDeclared_iff {d : Local} (h : OrderlyRun p shared vm) (hu : Uses p shared vm around self x)
    (hd : p.lookupVariable around x = some d) :
    vm.vars.names[p.declaredAt around vm.vars x]? = some x ∧
    (vm.findsDeclared p around self x ↔ vm.unshadowed p around self x) := by
  obtain ⟨others, hlive⟩ := hu.liveNames
  have hmem := lookupVariable_mem hd
  have hnames : vm.vars.names = localNames (scope around) ++ others ++ p.memberNames := by
    rw [h.stacked.names, hlive]
  refine ⟨names_declaredAt hnames hmem, ?_⟩
  have hiff : accessedAt vm.vars x = _ ↔ _ := accessedAt_eq_iff hnames
  have hcond : (x ∈ localNames (scope around) ∨ x ∉ vm.liveNames p) ↔
      (x ∈ localNames (scope around) ∨ x ∉ others) := by
    rw [hlive, List.mem_append]
    tauto
  unfold Vm.findsDeclared Vm.unshadowed
  rw [hcond, ← hiff]
  cases self with
  | none => simp [Vm.searched]
  | some y =>
    by_cases hxy : x = y
    · -- the variable itself is found, which is in front of all declarations
      subst hxy
      simp [Vm.searched, accessedAt, Variables.names]
      omega
    · have hidx : accessedAt (vm.searched (some y)) x = accessedAt vm.vars x + 1 :=
        List.idxOf_cons_ne _ (Ne.symm hxy)
      rw [hidx]
      simp only [Option.toList_some, List.length_singleton, Option.mem_def, Option.some.injEq, Ne.symm hxy,
        not_false_eq_true, true_and]
      omega

end

/-- `on h.hello (): {bool b = false; idle = b; f ();}` with `void f () {idle = b;}` and a member `b` -/
def shadowing : Instance where
  members := [⟨["bool"], "idle", .true⟩, ⟨["bool"], "b", .true⟩]
  functions := [⟨"f", ["void"], [], .compound [.assign "idle" (.var "b"), .returnStmt (.literal .void)], none⟩]
  statement := [.on [⟨some "h", "hello", []⟩] (.compound [.variableDecl ["bool"] "b" .false,
    .assign "idle" (.var "b"), .call ["f"] []])]
  range := fun _ => none
  requires := fun _ => false
  returns := by decide

/-- Before `idle = b` in the event. -/
def inEvent : Vm where
  vars := [("b", some (.bool false)), ("idle", some (.bool true)), ("b", some (.bool true))]
  frames := [.statement (.assign "idle" (.var "b"))
    [.compound [(["bool"], "b")] [.call ["f"] []], .handler ⟨⟨some "h", "hello", []⟩, false⟩]]
  waiting := []
  defer := []
  returned := none

theorem findsDeclared_local : Uses shadowing noShared inEvent [.compound [(["bool"], "b")] [.call ["f"] []],
      .handler ⟨⟨some "h", "hello", []⟩, false⟩] none "b" ∧
    inEvent.findsDeclared shadowing [.compound [(["bool"], "b")] [.call ["f"] []],
      .handler ⟨⟨some "h", "hello", []⟩, false⟩] none "b" := by
  have begun := (OrderlyRun.start : OrderlyRun shadowing noShared _).begin ⟨some "h", "hello", []⟩
  have alternative := begun.statement (fun _ _ _ _ _ hf => by cases hf) (.alternative rfl (.head _))
  have on := alternative.statement (fun _ _ _ _ _ hf => by cases hf) (.on rfl (by decide))
  have compound := on.statement (fun _ _ _ _ _ hf => by cases hf) (.passes rfl rfl rfl)
  have declared := compound.statement (fun _ _ _ _ _ hf => by cases hf)
    (.declares rfl (.expression (v := .bool false) rfl rfl) rfl rfl rfl)
  have reached : OrderlyRun shadowing noShared inEvent := declared
  have reads : Uses shadowing noShared inEvent _ none "b" := .reads rfl (List.mem_singleton_self _) (.var "b")
  exact ⟨reads, (findsDeclared_iff reached reads rfl).2.2 ⟨by simp, .inl (by decide)⟩⟩

/-- Before `idle = b` in the function. -/
def inFunction : Vm where
  vars := [("b", some (.bool false)), ("idle", some (.bool false)), ("b", some (.bool true))]
  frames := [
    .statement (.assign "idle" (.var "b")) [.compound [] [.returnStmt (.literal .void)],
      .function ⟨"f", ["void"], [], .compound [.assign "idle" (.var "b"), .returnStmt (.literal .void)], none⟩],
    .endOfOn [(["bool"], "b")] ⟨⟨some "h", "hello", []⟩, false⟩]
  waiting := []
  defer := []
  returned := none

/-- The function reads the local of its caller, which is false, not the member, which is true. -/
theorem run_readsCaller : Run shadowing noShared [.statement, .statement, .statement, .statement, .statement,
      .statement, .statement, .begin ⟨some "h", "hello", []⟩] inFunction ∧
    ∃ around, Uses shadowing noShared inFunction around none "b" ∧
      shadowing.lookupVariable around "b" = some (["bool"], "b") ∧ scope around = [] ∧
      ¬ inFunction.findsDeclared shadowing around none "b" ∧
      evalExpression noShared inFunction.vars (.var "b") = some (.bool false) ∧
      inFunction.vars[shadowing.declaredAt around inFunction.vars "b"]? = some ("b", some (.bool true)) := by
  have begun := (Run.start : Run shadowing noShared [] _).step (.begin ⟨some "h", "hello", []⟩)
  have alternative := begun.step (.statement (.alternative rfl (.head _)))
  have on := alternative.step (.statement (.on rfl (by decide)))
  have compound := on.step (.statement (.passes rfl rfl rfl))
  have declared := compound.step (.statement (.declares rfl (.expression (v := .bool false) rfl rfl) rfl rfl rfl))
  have assigned := declared.step (.statement (.assign rfl rfl (.expression (v := .bool false) rfl rfl) rfl rfl))
  have called := assigned.step (.statement (.call rfl rfl rfl rfl (by simp) rfl rfl))
  have inside := called.step (.statement (.passes rfl rfl rfl))
  refine ⟨inside, _, .reads rfl (List.mem_singleton_self _) (.var "b"), rfl, rfl, ?_, rfl, rfl⟩
  unfold Vm.findsDeclared
  decide

end Dezyne
