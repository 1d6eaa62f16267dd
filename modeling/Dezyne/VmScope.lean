import Dezyne.Vm
/-!
# The stack of locals

The locals that are active can be read from where the frames are in the
program: the variables declared before a statement in the compounds around it,
and the formals of its function. The machine computes from the same places what
it pops, so its list is those locals and then the members.
-/

namespace Dezyne

/-! ## Active locals -/

/-- The names of the locals and formals that are active around a statement. -/
def live : List Layer → List String
  | .compound locals _ :: around => localNames locals ++ live around
  | .branch :: around => live around
  | .initialiser _ :: around => live around
  | .function f :: _ => localNames f.formals.reverse
  | .deferQout locals others :: _ => localNames locals ++ others
  | .handler _ :: _ => []
  | [] => []

/-- The active locals of a frame. A handler that blocks leaves its compound at `<block>`. -/
def Focus.live (p : Instance) : Focus → List String
  | .statement _ around => Dezyne.live around
  | .block locals _ => localNames locals
  | .endOfOn locals h => if p.requires h.trigger = false ∧ h.blocking = true then [] else localNames locals
  | .triggerReturn locals h => if p.requires h.trigger = false ∧ h.blocking = true then [] else localNames locals

/-- All frames, the last ones first. -/
def Vm.places (vm : Vm) : List Focus := vm.frames ++ vm.waiting.flatten

/-- The names of all active locals, the last ones first. -/
def Vm.liveNames (p : Instance) (vm : Vm) : List String := vm.places.flatMap (Focus.live p)

/-- The locals of the frames below the top one. -/
def Vm.below (p : Instance) (vm : Vm) (rest : List Focus) : List String :=
  (rest ++ vm.waiting.flatten).flatMap (Focus.live p)

/-- Some statement after this one in the function returns, or it is not in one. -/
def covered : List Layer → Bool
  | .compound _ after :: around => Stmt.anyReturns after || covered around
  | .branch :: around => covered around
  | .initialiser _ :: around => covered around
  | .function _ :: _ => false
  | _ => true

/-- The layers of a deferred statement. -/
def deferred : List Layer → Bool
  | .compound _ _ :: around => deferred around
  | .branch :: around => deferred around
  | .initialiser _ :: around => deferred around
  | .deferQout _ _ :: _ => true
  | _ => false

def Focus.deferred : Focus → Bool
  | .statement _ around => Dezyne.deferred around
  | _ => false

/-- The function of a frame is left by a return, and only a handler that is blocking blocks. -/
def Focus.proper : Focus → Bool
  | .statement s around => s.returns || covered around
  | .block _ h => h.blocking
  | _ => true

/-- The list is that of the active locals and then the members, and what is needed to keep it so. -/
structure Stacked (p : Instance) (vm : Vm) : Prop where
  names : vm.vars.names = vm.liveNames p ++ p.memberNames
  proper : ∀ f ∈ vm.places, f.proper = true
  deferred : vm.places.Pairwise fun f g => f.deferred = true → g.live p = []
  defer : ∀ d ∈ vm.defer, ∃ others, d.vars.names = localNames d.scope ++ others ++ p.memberNames

/-! ## Names -/

section
variable {p : Instance} {vars : Variables} {locals : List Local} {names : List String}

theorem memberNames_length : p.memberNames.length = p.members.length := by
  simp [Instance.memberNames, Instance.locals, localNames]

theorem names_length : vars.names.length = vars.length := List.length_map _

theorem names_popLocals (h : vars.names = localNames locals ++ names) :
    (popLocals locals vars).names = names := by
  have hlen : (localNames locals).length = locals.length := List.length_map _
  unfold popLocals Variables.names at *
  rw [List.map_drop, h, ← hlen, List.drop_left]

theorem getLocals_length : (getLocals p vars).length = vars.length - p.members.length := by
  rw [getLocals, List.length_take]
  omega

theorem names_getLocals (h : vars.names = names ++ p.memberNames) : (getLocals p vars).names = names := by
  have hlen : vars.length = names.length + p.members.length := by
    rw [← names_length, h, List.length_append, memberNames_length]
  unfold getLocals
  rw [Variables.names, List.map_take, ← Variables.names, h, hlen, Nat.add_sub_cancel, List.take_left]

theorem names_getMembers (h : vars.names = names ++ p.memberNames) :
    (getMembers p vars).names = p.memberNames := by
  have hlen : vars.length = names.length + p.members.length := by
    rw [← names_length, h, List.length_append, memberNames_length]
  unfold getMembers
  rw [Variables.names, List.map_drop, ← Variables.names, h, hlen, Nat.add_sub_cancel, List.drop_left]

theorem names_assocSet {name : String} {value : Value} (h : name ∈ vars.names) :
    (assocSet vars name value).names = vars.names := by
  have hlt : vars.names.idxOf name < vars.names.length := List.idxOf_lt_length_iff.2 h
  unfold assocSet
  rw [if_pos h]
  unfold Variables.names at *
  rw [List.map_append, List.map_cons, List.map_take, List.map_drop]
  conv_rhs => rw [← List.take_append_drop ((vars.map Prod.fst).idxOf name) (vars.map Prod.fst),
    List.drop_eq_getElem_cons hlt, List.getElem_idxOf hlt]

end

/-! ## What goes on after a statement -/

section
variable {p : Instance} {vars : Variables} {around : List Layer} {n : Next} {below : List String}

theorem enter_live (s : Stmt) (around : List Layer) : (enter s around).live p = live around := by
  unfold enter
  split <;> rfl

theorem enter_deferred (s : Stmt) (around : List Layer) : (enter s around).deferred = deferred around := by
  unfold enter
  split <;> rfl

theorem enter_proper {s : Stmt} (h : (s.returns || covered around) = true) :
    (enter s around).proper = true := by
  unfold enter
  split
  case h_5 => exact h
  all_goals simpa [Stmt.returns, Focus.proper, covered] using h

/-- What comes next keeps the stack, above the locals of the frames below. -/
structure Keeps (p : Instance) (below : List String) (isDeferred : Bool) (n : Next) : Prop where
  names : n.1.names = (n.2.elim [] (Focus.live p)) ++ below ++ p.memberNames
  proper : ∀ f ∈ n.2, f.proper = true
  deferred : ∀ f ∈ n.2, f.deferred = true → isDeferred = true

theorem statementContinuation_keeps : ∀ {around : List Layer} {vars : Variables},
    statementContinuation p vars around = some n → vars.names = live around ++ below ++ p.memberNames →
    covered around = true → (deferred around = true → below = []) → Keeps p below (deferred around) n := by
  intro around
  induction around with
  | nil => intro vars h; cases h
  | cons l around ih =>
    intro vars h hnames hcov hbelow
    cases l with
    | compound locals after =>
      cases after with
      | cons s after =>
        obtain rfl := Option.some.inj h
        refine ⟨?_, ?_, ?_⟩
        · simpa [enter_live, live] using hnames
        · simp only [Option.mem_some_iff, forall_eq']
          apply enter_proper
          simpa [covered, Stmt.anyReturns, Bool.or_assoc] using hcov
        · simp [enter_deferred, deferred]
      | nil =>
        have hpop : (popLocals locals vars).names = live around ++ below ++ p.memberNames := by
          apply names_popLocals
          rw [hnames]
          simp [live, List.append_assoc]
        cases around with
        | nil => cases h
        | cons l' around =>
          cases l' with
          | handler hd =>
            obtain rfl := Option.some.inj h
            refine ⟨?_, ?_, ?_⟩
            · simp only [Option.elim_some]
              split <;> simp_all [Focus.live, live]
            · intro f hf
              obtain rfl := Option.some.inj hf
              split <;> simp_all [Focus.proper]
            · intro f hf
              obtain rfl := Option.some.inj hf
              split <;> simp [Focus.deferred]
          | _ => exact ih h hpop hcov hbelow
    | branch => exact ih h hnames hcov hbelow
    | function f => cases hcov
    | deferQout locals others =>
      obtain rfl := Option.some.inj h
      obtain rfl := hbelow rfl
      refine ⟨?_, by simp, by simp⟩
      have := names_getMembers hnames
      simp only [getLocals_length, Option.elim_none, List.nil_append]
      exact this
    | handler hd => cases h
    | initialiser s => cases h

/-- A statement other than a compound, or a compound: what its continuation needs to know of it. -/
theorem continuation_keeps {o : Stmt} (h : continuation p vars o around = some n)
    (hnames : vars.names = live (declare o.locals around) ++ below ++ p.memberNames)
    (hproper : (o.returns || covered around) = true) (hreturns : o.returns = true → ∃ ss, o = .compound ss)
    (hbelow : deferred around = true → below = [])
    (hdirect : ∀ locals others outer, around = .deferQout locals others :: outer → (∀ ss, o ≠ .compound ss) →
      live around = []) : Keeps p below (deferred around) n := by
  by_cases ho : ∃ ss, o = .compound ss
  · obtain ⟨ss, rfl⟩ := ho
    have hnames' : vars.names = live around ++ below ++ p.memberNames := by
      rw [hnames]
      cases around with
      | nil => rfl
      | cons l around => cases l <;> rfl
    cases ss with
    | nil => exact statementContinuation_keeps h hnames' hproper hbelow
    | cons s after =>
      obtain rfl := Option.some.inj h
      refine ⟨?_, ?_, ?_⟩
      · simpa [enter_live, live, localNames] using hnames'
      · simp only [Option.mem_some_iff, forall_eq']
        apply enter_proper
        simpa [covered, Stmt.returns, Stmt.anyReturns, Bool.or_assoc] using hproper
      · simp [enter_deferred, deferred]
  · -- a statement that is left without a return is in something that covers it
    have hcov : covered around = true := by
      cases hr : o.returns with
      | false => simpa [hr] using hproper
      | true => exact absurd (hreturns hr) ho
    have hne : ∀ ss, o ≠ .compound ss := fun ss heq => ho ⟨ss, heq⟩
    cases around with
    | nil => cases o <;> first | cases h | exact absurd rfl (hne _)
    | cons l around =>
      cases l with
      | compound locals after =>
        have h : statementContinuation p vars (declare o.locals (.compound locals after :: around)) = some n := by
          cases o <;> first | exact h | exact absurd rfl (hne _)
        have hkeeps := statementContinuation_keeps h hnames hcov hbelow
        exact hkeeps
      | branch =>
        have h : statementContinuation p vars around = some n := by
          cases o <;> first | exact h | exact absurd rfl (hne _)
        exact statementContinuation_keeps h hnames hcov hbelow
      | initialiser s =>
        have h : some (vars, some (Focus.statement s around)) = some n := by
          cases o <;> first | exact h | exact absurd rfl (hne _)
        obtain rfl := Option.some.inj h
        refine ⟨hnames, ?_, ?_⟩
        · simp only [Option.mem_some_iff, forall_eq']
          have hcov : covered around = true := hcov
          simp [Focus.proper, hcov]
        · simp [Focus.deferred, deferred]
      | deferQout locals others =>
        have h : some (vars, (none : Option Focus)) = some n := by
          cases o <;> first | exact h | exact absurd rfl (hne _)
        obtain rfl := Option.some.inj h
        refine ⟨?_, by simp, by simp⟩
        have hlive := hdirect locals others around rfl hne
        have hnames : vars.names = live (.deferQout locals others :: around) ++ below ++ p.memberNames := hnames
        rw [hnames, hlive]
        rfl
      | function f => cases o <;> first | cases h | exact absurd rfl (hne _)
      | handler hd => cases o <;> first | cases h | exact absurd rfl (hne _)

/-- A return pops all locals and formals of the function. -/
theorem names_functionReturn {names : List String} : ∀ {around : List Layer} {vars vars' : Variables},
    functionReturn vars around = some vars' → vars.names = live around ++ names → vars'.names = names := by
  intro around
  induction around with
  | nil => intro vars vars' h; cases h
  | cons l around ih =>
    intro vars vars' h hnames
    cases l with
    | compound locals after =>
      refine ih h (names_popLocals ?_)
      rw [hnames]
      simp [live, List.append_assoc]
    | branch => exact ih h hnames
    | initialiser s => exact ih h hnames
    | function f =>
      obtain rfl := Option.some.inj h
      have : popLocals f.formals vars = popLocals f.formals.reverse vars := by
        rw [popLocals, popLocals, List.length_reverse]
      rw [this]
      exact names_popLocals hnames
    | handler hd => cases h
    | deferQout locals others => cases h


end

/-! ## One frame -/

section
variable {p : Instance} {vars : Variables} {around : List Layer} {n : Next} {vm vm' : Vm} {f : Focus}
  {rest : List Focus}

theorem Stacked.top (h : Stacked p vm) (hf : vm.frames = f :: rest) :
    vm.vars.names = f.live p ++ vm.below p rest ++ p.memberNames ∧ f.proper = true ∧
      (f.deferred = true → vm.below p rest = []) := by
  have hplaces : vm.places = f :: (rest ++ vm.waiting.flatten) := by
    rw [Vm.places, hf]
    rfl
  refine ⟨?_, h.proper f (by simp [hplaces]), fun hd => ?_⟩
  · rw [h.names, Vm.liveNames, hplaces]
    simp [Vm.below]
  · have hpair := h.deferred
    rw [hplaces, List.pairwise_cons] at hpair
    rw [Vm.below, List.flatMap_eq_nil_iff]
    exact fun g hg => hpair.1 g hg hd

/-- The top frame goes on, or is popped. -/
theorem Stacked.next (h : Stacked p vm) (hf : vm.frames = f :: rest)
    (hk : Keeps p (vm.below p rest) f.deferred n) : Stacked p (vm.next rest n) := by
  have hplaces : vm.places = f :: (rest ++ vm.waiting.flatten) := by
    rw [Vm.places, hf]
    rfl
  have hpair := h.deferred
  rw [hplaces, List.pairwise_cons] at hpair
  have hproper : ∀ g ∈ rest ++ vm.waiting.flatten, g.proper = true := fun g hg =>
    h.proper g (by rw [hplaces]; exact List.mem_cons_of_mem _ hg)
  obtain ⟨vars', o⟩ := n
  have hnext : (vm.next rest (vars', o)).places = o.toList ++ (rest ++ vm.waiting.flatten) := by
    simp [Vm.next, Vm.places]
  cases o with
  | none =>
    refine ⟨?_, ?_, ?_, h.defer⟩
    · rw [Vm.liveNames, hnext]
      simpa [Vm.below, Vm.next] using hk.names
    · rw [hnext]
      simpa using hproper
    · rw [hnext]
      exact hpair.2
  | some g =>
    refine ⟨?_, ?_, ?_, h.defer⟩
    · rw [Vm.liveNames, hnext]
      simpa [Vm.below, Vm.next] using hk.names
    · rw [hnext]
      intro x hx
      rcases List.mem_cons.1 hx with rfl | hx
      · exact hk.proper _ rfl
      · exact hproper x hx
    · rw [hnext]
      exact List.pairwise_cons.2 ⟨fun x hx hd => hpair.1 x hx (hk.deferred g rfl hd), hpair.2⟩

/-- The top frame is popped, with its locals. -/
theorem Stacked.popped (h : Stacked p vm) (hf : vm.frames = f :: rest)
    (hnames : vars.names = vm.below p rest ++ p.memberNames) : Stacked p (vm.next rest (vars, none)) :=
  h.next hf ⟨by simpa using hnames, by simp, by simp⟩

/-- A frame is pushed. -/
theorem Stacked.pushed (h : Stacked p vm) (hnames : vars.names = f.live p ++ vm.liveNames p ++ p.memberNames)
    (hproper : f.proper = true) (hdeferred : f.deferred = true → vm.liveNames p = []) :
    Stacked p { vm with vars := vars, frames := f :: vm.frames } := by
  have hplaces : ({ vm with vars := vars, frames := f :: vm.frames } : Vm).places = f :: vm.places := rfl
  refine ⟨?_, ?_, ?_, h.defer⟩
  · rw [Vm.liveNames, hplaces]
    simpa [Vm.liveNames] using hnames
  · rw [hplaces]
    intro g hg
    rcases List.mem_cons.1 hg with rfl | hg
    · exact hproper
    · exact h.proper g hg
  · rw [hplaces, List.pairwise_cons]
    refine ⟨fun g hg hd => ?_, h.deferred⟩
    have := hdeferred hd
    rw [Vm.liveNames, List.flatMap_eq_nil_iff] at this
    exact this g hg

/-! ## Calls -/

theorem names_pushLocals : ∀ (formals : List Local) (args : List Value) (vars : Variables),
    args.length = formals.length →
    ((formals.zip args).foldl (fun vars fa => pushLocal fa.1 fa.2 vars) vars).names =
      localNames formals.reverse ++ vars.names := by
  intro formals
  induction formals with
  | nil => intro args vars _; rfl
  | cons formal formals ih =>
    intro args vars hlen
    cases args with
    | nil => cases hlen
    | cons arg args =>
      rw [List.zip_cons_cons, List.foldl_cons, ih args _ (by simpa using hlen)]
      simp [localNames, pushLocal, Variables.names]

theorem function_mem {name : ScopeName} {g : Function} (h : p.function name = some g) : g ∈ p.functions :=
  List.mem_of_find?_eq_some h

theorem isVoidReturn_eq (h : f.isVoidReturn = some around) :
    f = .statement (.returnStmt (.literal .void)) around := by
  unfold Focus.isVoidReturn at h
  split at h
  · rw [Option.some.inj h]
  · cases h

theorem Stacked.called (h : Stacked p vm) {g : Function} {args : List Value} (hg : g ∈ p.functions)
    (hlen : args.length = g.formals.length) : Stacked p { vm with
      vars := (g.formals.zip args).foldl (fun vars fa => pushLocal fa.1 fa.2 vars) vm.vars
      frames := .statement g.statement [.function g] :: vm.frames } := by
  apply h.pushed
  · rw [names_pushLocals g.formals args vm.vars hlen, h.names, List.append_assoc]
    rfl
  · simp [Focus.proper, p.returns g hg]
  · intro hd
    cases hd

theorem Stacked.stepCall (h : Stacked p vm) {g : Function} {args : List Value} (hg : g ∈ p.functions)
    (hlen : args.length = g.formals.length) (hcall : stepCall g args vm = some vm') : Stacked p vm' := by
  unfold Dezyne.stepCall at hcall
  cases hret : vm.frames.head?.bind Focus.isVoidReturn with
  | none =>
    simp only [hret] at hcall
    obtain rfl := Option.some.inj hcall
    exact h.called hg hlen
  | some around =>
    simp only [hret] at hcall
    -- the caller is popped first
    obtain ⟨f, hf, hvoid⟩ := Option.bind_eq_some_iff.1 hret
    obtain ⟨vars', hvars, rfl⟩ := Option.map_eq_some_iff.1 hcall
    obtain ⟨rest, hrest⟩ : ∃ rest, vm.frames = f :: rest := by
      cases hframes : vm.frames with
      | nil => rw [hframes] at hf; cases hf
      | cons f' rest =>
        rw [hframes] at hf
        obtain rfl := Option.some.inj hf
        exact ⟨rest, rfl⟩
    obtain rfl := isVoidReturn_eq hvoid
    have hnames := names_functionReturn hvars (by
      rw [(h.top hrest).1, List.append_assoc]
      rfl)
    have hpopped := h.popped hrest hnames
    have := hpopped.called hg hlen
    rw [hrest, List.tail_cons]
    exact this

end

/-! ## Orderly steps -/

/-- Statements that end with `continuation`, not `statement-continuation`. -/
def Stmt.direct : Stmt → Bool
  | .skip => true
  | .theEnd => true
  | .action _ _ _ => true
  | .call _ _ => true
  | .assign _ _ => true
  | .variableDecl _ _ _ => true
  | .reply _ _ => true
  | _ => false

/-- The statement of a `<defer>` does not end without popping the locals that were grafted for it. -/
def Vm.popsDeferred (vm : Vm) : Prop := ∀ s locals others outer rest,
  vm.frames = .statement s (.deferQout locals others :: outer) :: rest → s.direct = true → locals = [] ∧ others = []

/-- A step that respects the stack. What waits is resumed last in, first out, as far as locals go; no locals are
active when a deferred statement is run; and a state that is taken over has the locals that are active. -/
def Orderly (p : Instance) (vm : Vm) : Happens → Prop
  | .statement => vm.popsDeferred
  | .begin _ => True
  | .wait => True
  | .resume before frames _ => before.flatten.flatMap (Focus.live p) = [] ∨
    frames.flatMap (Focus.live p) = [] ∧ ∀ f ∈ frames, f.deferred = false
  | .runDefer _ _ => vm.liveNames p = []
  | .copy vars => vars.names = vm.liveNames p ++ p.memberNames

/-- The states of the runs, with what happened, the last first. -/
inductive Run (p : Instance) (shared : String → String → Value) : List Happens → Vm → Prop
  | start : Run p shared [] (p.start shared)
  | step {vm vm' : Vm} {what : Happens} {done : List Happens} : Run p shared done vm →
      VmStep p shared vm what vm' → Run p shared (what :: done) vm'

/-- The states of the runs whose steps are orderly. -/
inductive OrderlyRun (p : Instance) (shared : String → String → Value) : Vm → Prop
  | start : OrderlyRun p shared (p.start shared)
  | step {vm vm' : Vm} {what : Happens} : OrderlyRun p shared vm → Orderly p vm what →
      VmStep p shared vm what vm' → OrderlyRun p shared vm'

section
variable {p : Instance} {shared : String → String → Value} {vars : Variables} {around : List Layer} {n : Next}
  {vm vm' : Vm} {rest : List Focus} {o : Stmt}

theorem declare_nil : ∀ around : List Layer, declare [] around = around := by
  intro around
  cases around with
  | nil => rfl
  | cons l around => cases l <;> rfl

theorem returns_of_direct (h : o.direct = true) : o.returns = false := by
  cases o <;> first | rfl | cases h

/-- A statement goes on by `continuation`. -/
theorem Stacked.continued (h : Stacked p vm) (hf : vm.frames = .statement o around :: rest)
    (hpops : vm.popsDeferred) (ho : o.direct = true ∨ ∃ ss, o = .compound ss) (hcont : continuation p vars o around = some n)
    (hnames : vars.names = live (declare o.locals around) ++ vm.below p rest ++ p.memberNames) :
    Stacked p (vm.next rest n) := by
  obtain ⟨-, hproper, hbelow⟩ := h.top hf
  apply h.next hf
  refine continuation_keeps hcont hnames hproper ?_ hbelow ?_
  · intro hr
    rcases ho with ho | ho
    · rw [returns_of_direct ho] at hr
      cases hr
    · exact ho
  · rintro locals others outer rfl hne
    rcases ho with ho | ⟨ss, rfl⟩
    · obtain ⟨rfl, rfl⟩ := hpops _ _ _ _ _ hf ho
      rfl
    · exact absurd rfl (hne ss)

/-- A statement that declares nothing goes on by `continuation`. -/
theorem Stacked.continued_same (h : Stacked p vm) (hf : vm.frames = .statement o around :: rest)
    (hpops : vm.popsDeferred) (ho : o.direct = true ∨ ∃ ss, o = .compound ss) (hdeclares : o.locals = [])
    (hcont : continuation p vars o around = some n) (hvars : vars.names = vm.vars.names) :
    Stacked p (vm.next rest n) := by
  apply h.continued hf hpops ho hcont
  rw [hdeclares, declare_nil, hvars, (h.top hf).1]
  rfl

/-- A statement is entered. -/
theorem Stacked.entered (h : Stacked p vm) {f : Focus} {g : Focus} (hf : vm.frames = f :: rest)
    (hlive : g.live p = f.live p) (hproper : g.proper = true) (hdeferred : g.deferred = true → f.deferred = true) :
    Stacked p (vm.next rest (vm.vars, some g)) := by
  apply h.next hf
  refine ⟨?_, by simpa using hproper, by simpa using hdeferred⟩
  rw [(h.top hf).1, Option.elim_some, hlive]

/-- `statement-continuation`, for a statement that declares nothing. -/
theorem Stacked.continues (h : Stacked p vm) (hf : vm.frames = .statement o around :: rest)
    (hreturns : o.returns = false) (hcont : statementContinuation p vm.vars around = some n) :
    Stacked p (vm.next rest n) := by
  obtain ⟨hnames, hproper, hbelow⟩ := h.top hf
  apply h.next hf
  exact statementContinuation_keeps hcont hnames (by simpa [Focus.proper, hreturns] using hproper) hbelow

theorem live_eq : ∀ around : List Layer, ∃ others, live around = localNames (scope around) ++ others := by
  intro around
  induction around with
  | nil => exact ⟨[], rfl⟩
  | cons l around ih =>
    cases l with
    | compound locals after =>
      obtain ⟨others, h⟩ := ih
      exact ⟨others, by simp [live, scope, h, localNames]⟩
    | branch => exact ih
    | initialiser s => exact ih
    | function f => exact ⟨[], by simp [live, scope]⟩
    | handler hd => exact ⟨[], rfl⟩
    | deferQout locals others => exact ⟨others, rfl⟩

/-- A variable that is looked up is in the list. -/
theorem Stacked.lookup_mem (h : Stacked p vm) (hf : vm.frames = .statement o around :: rest) {name : String}
    {d : Local} (hd : p.lookupVariable around name = some d) : d.2 ∈ vm.vars.names := by
  have hmem := List.mem_of_find?_eq_some hd
  rw [(h.top hf).1]
  obtain ⟨others, hlive⟩ := live_eq around
  have hlive : (Focus.statement o around).live p = localNames (scope around) ++ others := hlive
  rw [hlive]
  rcases List.mem_append.1 hmem with hmem | hmem
  · simp [localNames, show ∃ a, (a, d.2) ∈ scope around from ⟨d.1, hmem⟩]
  · have : d.2 ∈ p.memberNames := List.mem_map_of_mem hmem
    simp [this]

theorem body_live (s : Stmt) (h : Handling) : (body s h).live p = [] := by
  unfold body
  split
  · rfl
  · split <;> rfl

theorem body_proper (s : Stmt) (h : Handling) : (body s h).proper = true := by
  unfold body
  split
  · simp [Focus.proper, covered]
  · split <;> simp [Focus.proper, covered]

theorem body_deferred (s : Stmt) (h : Handling) : (body s h).deferred = false := by
  unfold body
  split
  · rfl
  · split <;> rfl

theorem blocked_keeps {locals : List Local} {hd : Handling} {below : List String}
    (hnames : vars.names = (Focus.block locals hd).live p ++ below ++ p.memberNames)
    (hproper : (Focus.block locals hd).proper = true) (hreq : p.requires hd.trigger = false) :
    Keeps p below (Focus.block locals hd).deferred (popLocals locals vars, some (.endOfOn locals hd)) := by
  have hblocking : hd.blocking = true := hproper
  refine ⟨?_, by simp [Focus.proper], by simp [Focus.deferred]⟩
  apply names_popLocals
  rw [hnames]
  simp [Focus.live, hreq, hblocking]

/-- The program counters wait or run. -/
theorem Stacked.moved (h : Stacked p vm) (hplaces : vm'.places = vm.places) (hvars : vm'.vars = vm.vars)
    (hdefer : vm'.defer = vm.defer) : Stacked p vm' := by
  refine ⟨?_, ?_, ?_, ?_⟩
  · rw [Vm.liveNames, hvars, hplaces]
    exact h.names
  · rw [hplaces]
    exact h.proper
  · rw [hplaces]
    exact h.deferred
  · rw [hdefer]
    exact h.defer

theorem body_keeps (h : Stacked p vm) {s t : Stmt} {hd hd' : Handling}
    (hf : vm.frames = .statement t [.handler hd'] :: rest) :
    Stacked p (vm.next rest (vm.vars, some (body s hd))) := by
  apply h.entered hf
  · rw [body_live]
    rfl
  · exact body_proper s hd
  · rw [body_deferred]
    intro hd
    cases hd

/-- `returned` and the list of deferred statements are not about the locals. -/
theorem Stacked.with (h : Stacked p vm) {returned : Option Value} {ds : List Deferred}
    (hds : ∀ d ∈ ds, ∃ others, d.vars.names = localNames d.scope ++ others ++ p.memberNames) :
    Stacked p { vm with returned := returned, defer := ds } :=
  ⟨h.names, h.proper, h.deferred, hds⟩

theorem names_push {name : String} {v : Value} :
    (assocSet ((name, none) :: vars) name v).names = name :: vars.names :=
  names_assocSet (by simp [Variables.names])

/-- What one step of a statement does to the stack. -/
theorem StatementStep.stacked (hs : StatementStep p shared vm vm') (h : Stacked p vm)
    (hpops : vm.popsDeferred) : Stacked p vm' := by
  cases hs with
  | @passes s around rest n hf hpass hcont =>
    refine h.continued_same hf hpops ?_ ?_ hcont rfl
    · cases s <;> first | exact .inl rfl | exact .inr ⟨_, rfl⟩ | cases hpass
    · cases s <;> first | rfl | cases hpass
  | reply hf _ hcont => exact h.continued_same hf hpops (.inl rfl) rfl hcont rfl
  | @ifThen e s v around rest hf _ _ =>
    obtain ⟨-, hproper, -⟩ := h.top hf
    apply h.entered hf
    · exact enter_live s (.branch :: around)
    · apply enter_proper
      have hcov : covered around = true := by simpa [Focus.proper, Stmt.returns] using hproper
      simp [covered, hcov]
    · rw [enter_deferred]
      exact id
  | ifNot hf _ _ hcont => exact h.continues hf rfl hcont
  | @ifElse e s t v around rest hf _ =>
    obtain ⟨-, hproper, -⟩ := h.top hf
    apply h.entered hf
    · exact enter_live _ (.branch :: around)
    · apply enter_proper
      have hret : (s.returns && t.returns || covered around) = true := by
        simpa [Focus.proper, Stmt.returns] using hproper
      cases hcov : covered around with
      | true => simp [covered, hcov]
      | false =>
        simp only [hcov, Bool.or_false, Bool.and_eq_true] at hret
        split <;> simp [hret.1, hret.2]
    · rw [enter_deferred]
      exact id
  | @call name as f args around rest n vm' hf hfun _ hlen _ hcont hcall =>
    have hnext := h.continued_same hf hpops (.inl rfl) rfl hcont rfl
    exact hnext.stepCall (function_mem hfun) hlen hcall
  | @returns e v around rest vars hf _ hret =>
    have hnames := names_functionReturn hret (by
      rw [(h.top hf).1, List.append_assoc]
      rfl)
    exact (h.popped hf hnames).with h.defer
  | assign hf hlook _ _ hcont =>
    exact h.continued_same hf hpops (.inl rfl) rfl hcont (names_assocSet (h.lookup_mem hf hlook))
  | @declares type name e v around rest vars n hf _ _ hvars hcont =>
    subst hvars
    apply h.continued hf hpops (.inl rfl) hcont
    -- the variable is on top of what was live
    have hpush : (assocSet ((name, none) :: vm.vars) name v).names =
        name :: (live around ++ vm.below p rest ++ p.memberNames) := by
      rw [names_push, (h.top hf).1]
      rfl
    -- in a compound it stays, elsewhere it is popped again
    cases around with
    | nil => exact names_popLocals hpush
    | cons l around =>
      cases l with
      | compound locals after => exact hpush
      | _ => exact names_popLocals hpush
  | @defer as s around rest n hf hcont =>
    have hnext := h.continues hf rfl hcont
    refine hnext.with ?_
    intro d hd
    rcases List.mem_append.1 hd with hd | hd
    · exact h.defer d hd
    · obtain rfl := List.mem_singleton.1 hd
      obtain ⟨others, hlive⟩ := live_eq around
      have hlive : (Focus.statement (.defer as s) around).live p = localNames (scope around) ++ others := hlive
      refine ⟨others ++ vm.below p rest, ?_⟩
      rw [(h.top hf).1, hlive]
      simp
  | alternative hf _ => exact body_keeps h hf
  | guard hf _ _ => exact body_keeps h hf
  | on hf _ => exact body_keeps h hf
  | blocking hf => exact body_keeps h hf
  | @blockRequires locals hd rest hf hreq =>
    apply h.entered hf
    · simp [Focus.live, hreq]
    · rfl
    · intro hd
      cases hd
  | @blockReleased locals hd rest hf hreq =>
    obtain ⟨hnames, hproper, -⟩ := h.top hf
    refine h.next hf (blocked_keeps hnames hproper hreq)
  | @block locals hd rest hf hreq =>
    obtain ⟨hnames, hproper, -⟩ := h.top hf
    have hnext := h.next hf (blocked_keeps hnames hproper hreq)
    -- the frames that wait are the same, only in another place
    have hplaces : ({ vm with
        vars := popLocals locals vm.vars, frames := [],
        waiting := (.endOfOn locals hd :: rest) :: vm.waiting } : Vm).places =
        (vm.next rest (popLocals locals vm.vars, some (.endOfOn locals hd))).places := by
      simp [Vm.places, Vm.next]
    exact hnext.moved hplaces rfl rfl
  | @endOfOut locals hd rest hf hreq =>
    apply h.popped hf
    apply names_popLocals
    rw [(h.top hf).1]
    simp [Focus.live, hreq]
  | @endOfOn locals hd rest hf _ =>
    apply h.entered hf
    · rfl
    · rfl
    · intro hd
      cases hd
  | @triggerReturn locals hd rest hf =>
    apply h.popped hf
    have hnames := (h.top hf).1
    split
    case isTrue hblock => simpa [Focus.live, hblock] using hnames
    case isFalse hblock =>
      apply names_popLocals
      rw [hnames]
      simp [Focus.live, hblock]

/-- The variables of a deferred statement are those where it was deferred. -/
theorem Stacked.grafted (h : Stacked p vm) {d : Deferred} (hd : d ∈ vm.defer) :
    (graftLocals p d vm.vars).names = (d.frame p).live p ++ p.memberNames := by
  obtain ⟨others, hnames⟩ := h.defer d hd
  have hlocals : (getLocals p d.vars).names = localNames d.scope ++ others := names_getLocals hnames
  have hmembers : (getMembers p vm.vars).names = p.memberNames := names_getMembers h.names
  have hlen : (localNames d.scope).length = d.scope.length := List.length_map _
  have hothers : (getLocals p d.vars).names.drop d.scope.length = others := by
    rw [hlocals, ← hlen, List.drop_left]
  have hframe : (d.frame p).live p = localNames d.scope ++ others := by
    rw [Deferred.frame, hothers]
    rfl
  rw [hframe, ← hlocals, ← hmembers]
  exact List.map_append

theorem Stacked.runDefer (h : Stacked p vm) {d : Deferred} {after : List Deferred} (hframes : vm.frames = [])
    (hsub : (d :: after).Sublist vm.defer) (hlive : vm.liveNames p = []) :
    Stacked p { vm with vars := graftLocals p d vm.vars, frames := [d.frame p], defer := after } := by
  have hd : d ∈ vm.defer := hsub.subset List.mem_cons_self
  have hpushed : Stacked p { vm with vars := graftLocals p d vm.vars, frames := d.frame p :: vm.frames } := by
    apply h.pushed
    · rw [h.grafted hd, hlive, List.append_nil]
    · simp [Deferred.frame, Focus.proper, covered]
    · exact fun _ => hlive
  rw [hframes] at hpushed
  apply hpushed.with
  intro d' hd'
  exact h.defer d' (hsub.subset (List.mem_cons_of_mem _ hd'))

theorem Stacked.resume (h : Stacked p vm) {before after : List (List Focus)} {frames : List Focus}
    (hframes : vm.frames = []) (hwaiting : vm.waiting = before ++ frames :: after)
    (hlive : before.flatten.flatMap (Focus.live p) = [] ∨
      frames.flatMap (Focus.live p) = [] ∧ ∀ f ∈ frames, f.deferred = false) :
    Stacked p { vm with frames := frames, waiting := before ++ after } := by
  have hplaces : vm.places = before.flatten ++ (frames ++ after.flatten) := by
    simp [Vm.places, hframes, hwaiting]
  have hplaces' : ({ vm with frames := frames, waiting := before ++ after } : Vm).places =
      frames ++ (before.flatten ++ after.flatten) := by
    simp [Vm.places]
  refine ⟨?_, ?_, ?_, h.defer⟩
  · rw [Vm.liveNames, hplaces']
    have hnames := h.names
    rw [Vm.liveNames, hplaces] at hnames
    rcases hlive with hlive | ⟨hlive, -⟩ <;> simpa [hlive] using hnames
  · rw [hplaces']
    intro f hf
    apply h.proper f
    rw [hplaces]
    simp only [List.mem_append] at hf ⊢
    tauto
  · have hpair := h.deferred
    rw [hplaces] at hpair
    rw [hplaces']
    obtain ⟨hbefore, hrest, hacross⟩ := List.pairwise_append.1 hpair
    obtain ⟨hin, hafter, hover⟩ := List.pairwise_append.1 hrest
    refine List.pairwise_append.2 ⟨hin, List.pairwise_append.2 ⟨hbefore, hafter, ?_⟩, ?_⟩
    · exact fun f hf g hg => hacross f hf g (List.mem_append_right _ hg)
    · intro f hf g hg hd
      rcases List.mem_append.1 hg with hg | hg
      · rcases hlive with hlive | ⟨-, hlive⟩
        · exact List.flatMap_eq_nil_iff.1 hlive g hg
        · rw [hlive f hf] at hd
          cases hd
      · exact hover f hf g hg hd

/-- What one step does to the stack. -/
theorem VmStep.stacked {what : Happens} (hs : VmStep p shared vm what vm') (h : Stacked p vm)
    (ho : Orderly p vm what) : Stacked p vm' := by
  cases hs with
  | statement hs => exact hs.stacked h ho
  | begin t =>
    apply h.pushed
    · rw [h.names]
      rfl
    · simp [Focus.proper, covered]
    · intro hd
      cases hd
  | wait => exact h.moved (by simp [Vm.places]) rfl rfl
  | resume hframes hwaiting => exact h.resume hframes hwaiting ho
  | runDefer hframes hsub => exact h.runDefer hframes hsub ho
  | copy vars => exact ⟨ho, h.proper, h.deferred, h.defer⟩

theorem start_stacked : Stacked p (p.start shared) := by
  refine ⟨?_, by simp [Instance.start, Vm.places], by simp [Instance.start, Vm.places], by simp [Instance.start]⟩
  simp [Instance.start, Variables.names, Vm.liveNames, Vm.places, Instance.memberNames, Instance.locals, localNames,
    Function.comp_def]

/-- What a run does to the stack. -/
theorem OrderlyRun.stacked (h : OrderlyRun p shared vm) : Stacked p vm := by
  induction h with
  | start => exact start_stacked
  | step _ ho hs ih => exact hs.stacked ih ho

end

/-! ## Pops -/

section
variable {p : Instance} {shared : String → String → Value} {vars vars' : Variables} {around : List Layer} {n : Next}
  {vm vm' : Vm} {rest : List Focus} {o : Stmt}

theorem popLocals_suffix (locals : List Local) (vars : Variables) : popLocals locals vars <:+ vars :=
  List.drop_suffix _ _

theorem statementContinuation_suffix : ∀ {around : List Layer} {vars : Variables},
    statementContinuation p vars around = some n → n.1 <:+ vars := by
  intro around
  induction around with
  | nil => intro vars h; cases h
  | cons l around ih =>
    intro vars h
    cases l with
    | compound locals after =>
      cases after with
      | cons s after =>
        obtain rfl := Option.some.inj h
        exact List.suffix_rfl
      | nil =>
        cases around with
        | nil => cases h
        | cons l' around =>
          cases l' with
          | handler hd =>
            obtain rfl := Option.some.inj h
            exact List.suffix_rfl
          | _ => exact (ih h).trans (popLocals_suffix locals vars)
    | branch => exact ih h
    | function f =>
      obtain rfl := Option.some.inj h
      exact List.suffix_rfl
    | deferQout locals others =>
      obtain rfl := Option.some.inj h
      exact List.drop_suffix _ _
    | handler hd => cases h
    | initialiser s => cases h

theorem continuation_suffix (h : continuation p vars o around = some n) : n.1 <:+ vars := by
  unfold continuation at h
  split at h
  all_goals first
    | exact statementContinuation_suffix h
    | (obtain rfl := Option.some.inj h; exact List.suffix_rfl)
    | cases h

theorem functionReturn_suffix : ∀ {around : List Layer} {vars vars' : Variables},
    functionReturn vars around = some vars' → vars' <:+ vars := by
  intro around
  induction around with
  | nil => intro vars vars' h; cases h
  | cons l around ih =>
    intro vars vars' h
    cases l with
    | compound locals after => exact (ih h).trans (popLocals_suffix locals vars)
    | branch => exact ih h
    | initialiser s => exact ih h
    | function f =>
      obtain rfl := Option.some.inj h
      exact popLocals_suffix f.formals vars
    | handler hd => cases h
    | deferQout locals others => cases h

/-- The list, with what the statement itself puts in it. -/
inductive Wrote (vm : Vm) : Variables → Prop
  | nothing : Wrote vm vm.vars
  | assigned (name : String) (v : Value) : Wrote vm (assocSet vm.vars name v)
  | declared (name : String) (v : Value) : Wrote vm (assocSet ((name, none) :: vm.vars) name v)

/-- A step only pops; a call then pushes the formals. -/
def Pops (vm vm' : Vm) : Prop := ∃ written kept pushed, Wrote vm written ∧ kept <:+ written ∧
  vm'.vars = pushed ++ kept ∧
  (pushed = [] ∨ ∃ name as around rest, vm.frames = .statement (.call name as) around :: rest)

theorem pops_of_suffix {written : Variables} (hw : Wrote vm written) (hs : vm'.vars <:+ written) :
    Pops vm vm' :=
  ⟨written, vm'.vars, [], hw, hs, rfl, .inl rfl⟩

theorem pushLocals_append : ∀ (formals : List (Local × Value)) (vars : Variables),
    ∃ pushed, formals.foldl (fun vars fa => pushLocal fa.1 fa.2 vars) vars = pushed ++ vars := by
  intro formals
  induction formals with
  | nil => exact fun vars => ⟨[], rfl⟩
  | cons fa formals ih =>
    intro vars
    obtain ⟨pushed, h⟩ := ih (pushLocal fa.1 fa.2 vars)
    exact ⟨pushed ++ [(fa.1.2, some fa.2)], by rw [List.foldl_cons, h]; simp [pushLocal]⟩

theorem stepCall_suffix {f : Function} {args : List Value} (h : stepCall f args vm = some vm') :
    ∃ kept pushed, kept <:+ vm.vars ∧ vm'.vars = pushed ++ kept := by
  unfold stepCall at h
  cases hret : vm.frames.head?.bind Focus.isVoidReturn with
  | none =>
    simp only [hret] at h
    obtain rfl := Option.some.inj h
    obtain ⟨pushed, hpushed⟩ := pushLocals_append (f.formals.zip args) vm.vars
    exact ⟨vm.vars, pushed, List.suffix_rfl, hpushed⟩
  | some around =>
    simp only [hret] at h
    obtain ⟨vars', hvars, rfl⟩ := Option.map_eq_some_iff.1 h
    obtain ⟨pushed, hpushed⟩ := pushLocals_append (f.formals.zip args) vars'
    exact ⟨vars', pushed, functionReturn_suffix hvars, hpushed⟩

theorem StatementStep.pops (hs : StatementStep p shared vm vm') : Pops vm vm' := by
  cases hs with
  | passes _ _ hcont => exact pops_of_suffix .nothing (continuation_suffix hcont)
  | reply _ _ hcont => exact pops_of_suffix .nothing (continuation_suffix hcont)
  | ifThen _ _ _ => exact pops_of_suffix .nothing List.suffix_rfl
  | ifNot _ _ _ hcont => exact pops_of_suffix .nothing (statementContinuation_suffix hcont)
  | ifElse _ _ => exact pops_of_suffix .nothing List.suffix_rfl
  | call hf _ _ _ _ hcont hcall =>
    obtain ⟨kept, pushed, hkept, hvars⟩ := stepCall_suffix hcall
    exact ⟨vm.vars, kept, pushed, .nothing, hkept.trans (continuation_suffix hcont), hvars, .inr ⟨_, _, _, _, hf⟩⟩
  | returns _ _ hret => exact pops_of_suffix .nothing (functionReturn_suffix hret)
  | assign _ _ _ _ hcont => exact pops_of_suffix (.assigned _ _) (continuation_suffix hcont)
  | @declares type name e v around rest vars n _ _ _ hvars hcont =>
    subst hvars
    apply pops_of_suffix (.declared name v)
    apply (continuation_suffix hcont).trans
    split
    · exact List.suffix_rfl
    · exact popLocals_suffix _ _
  | defer _ hcont => exact pops_of_suffix .nothing (statementContinuation_suffix hcont)
  | alternative _ _ => exact pops_of_suffix .nothing List.suffix_rfl
  | guard _ _ _ => exact pops_of_suffix .nothing List.suffix_rfl
  | on _ _ => exact pops_of_suffix .nothing List.suffix_rfl
  | blocking _ => exact pops_of_suffix .nothing List.suffix_rfl
  | blockRequires _ _ => exact pops_of_suffix .nothing List.suffix_rfl
  | blockReleased _ _ => exact pops_of_suffix .nothing (popLocals_suffix _ _)
  | block _ _ => exact pops_of_suffix .nothing (popLocals_suffix _ _)
  | endOfOut _ _ => exact pops_of_suffix .nothing (popLocals_suffix _ _)
  | endOfOn _ _ => exact pops_of_suffix .nothing List.suffix_rfl
  | triggerReturn _ =>
    apply pops_of_suffix .nothing
    simp only [Vm.next]
    split
    · exact List.suffix_rfl
    · exact popLocals_suffix _ _

/-- In every run whose steps are orderly the list is that of the active locals and then the members, between events
only the members, and a step pops the locals that are not active after it, and no other variable. -/
theorem orderlyRun_stack (h : OrderlyRun p shared vm) :
    vm.vars.names = vm.liveNames p ++ p.memberNames ∧
    (vm.frames = [] → vm.waiting = [] → vm.vars.names = p.memberNames) ∧
    ∀ vm', VmStep p shared vm .statement vm' → vm.popsDeferred →
      vm'.vars.names = vm'.liveNames p ++ p.memberNames ∧ Pops vm vm' := by
  have hstack := h.stacked
  refine ⟨hstack.names, fun hframes hwaiting => ?_, fun vm' hs hpops => ⟨(hs.stacked hstack hpops).names, ?_⟩⟩
  · rw [hstack.names, Vm.liveNames, Vm.places, hframes, hwaiting]
    rfl
  · cases hs with
    | statement hs => exact hs.pops

theorem OrderlyRun.statement (h : OrderlyRun p shared vm) (hpops : vm.popsDeferred)
    (hs : StatementStep p shared vm vm') : OrderlyRun p shared vm' := by
  refine .step h ?_ (.statement hs)
  exact hpops

theorem OrderlyRun.begin (h : OrderlyRun p shared vm) (t : Trigger) :
    OrderlyRun p shared { vm with frames := .statement (.declarativeCompound p.statement) [.handler ⟨t, false⟩] ::
      vm.frames } := by
  refine .step h ?_ (.begin t)
  trivial

end

/-- No port has shared variables. -/
def noShared (_ _ : String) : Value := .void

/-- `on h.hello (): {bool b = true; defer h.world ();}` -/
def deferring : Instance where
  members := [⟨["bool"], "idle", .true⟩]
  functions := []
  statement := [.on [⟨some "h", "hello", []⟩]
    (.compound [.variableDecl ["bool"] "b" .true, .defer none (.action (some "h") "world" [])])]
  range := fun _ => none
  requires := fun _ => false
  returns := by simp

theorem orderlyRun_stack_local : ∃ vm : Vm, vm.vars = [("b", some (.bool true)), ("idle", some (.bool true))] ∧
    vm.liveNames deferring = ["b"] ∧ vm.vars.names = vm.liveNames deferring ++ deferring.memberNames := by
  have begun := (OrderlyRun.start : OrderlyRun deferring noShared _).begin ⟨some "h", "hello", []⟩
  have alternative := begun.statement (fun _ _ _ _ _ hf => by cases hf) (.alternative rfl (.head _))
  have on := alternative.statement (fun _ _ _ _ _ hf => by cases hf) (.on rfl (by decide))
  have compound := on.statement (fun _ _ _ _ _ hf => by cases hf) (.passes rfl rfl rfl)
  have declared := compound.statement (fun _ _ _ _ _ hf => by cases hf)
    (.declares rfl (.expression (v := .bool true) rfl rfl) rfl rfl rfl)
  exact ⟨_, rfl, rfl, (orderlyRun_stack declared).1⟩

/-- The local that was grafted for the deferred action is still there between events. -/
theorem run_leavesLocal : ∃ (d : Deferred) (vm : Vm),
    Run deferring noShared [.statement, .runDefer d [], .statement, .statement, .statement, .statement, .statement,
      .statement, .statement, .begin ⟨some "h", "hello", []⟩] vm ∧
    vm.frames = [] ∧ vm.waiting = [] ∧ vm.vars.names = ["b", "idle"] ∧ deferring.memberNames = ["idle"] := by
  have begun := (Run.start : Run deferring noShared [] _).step (.begin ⟨some "h", "hello", []⟩)
  have alternative := begun.step (.statement (.alternative rfl (.head _)))
  have on := alternative.step (.statement (.on rfl (by decide)))
  have compound := on.step (.statement (.passes rfl rfl rfl))
  have declared := compound.step (.statement (.declares rfl (.expression (v := .bool true) rfl rfl) rfl rfl rfl))
  have deferred := declared.step (.statement (.defer rfl rfl))
  have endOfOn := deferred.step (.statement (.endOfOn rfl rfl))
  have triggerReturn := endOfOn.step (.statement (.triggerReturn rfl))
  have deferQout := triggerReturn.step (.runDefer rfl (.refl _))
  have world := deferQout.step (.statement (.passes rfl rfl rfl))
  exact ⟨_, _, world, rfl, rfl, rfl, rfl⟩

end Dezyne
