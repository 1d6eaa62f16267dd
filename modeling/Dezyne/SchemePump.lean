import Dezyne.Lib.Loop
import Mathlib.Data.List.Nodup
import Mathlib.Logic.Function.Basic
/-!
# Blocking in the Scheme pump

A coroutine that blocks on a port, or that enters a component of one that does, is
kept as a continuation. The loop of the pump takes the ports that are released one
by one; what is collaterally blocked on such a port is queued behind it.
-/

namespace Dezyne.SchemePump

variable {Port : Type} [DecidableEq Port]

/-! ## The pump -/

/-- `<coroutine>`: its continuation by number, where none is `(const #f)`, and its `.id`. -/
structure Coroutine where
  cont : Option Nat
  id : Nat
deriving DecidableEq

/-- A continuation, of `dzn:block` or of `dzn:collateral-block`. `since` counts the releases of the port before the
coroutine blocked that it waits for. -/
structure Continuation (Port : Type) where
  port : Port
  collateral : Bool
  since : Nat

/-- `<dzn:pump>`. A coroutine with the id `running` is running, or the loop of the pump. All continuations so far
are kept, with the releases of each port and the continuations that have been called. -/
structure Pump (Port : Type) where
  blocked : List (Port × Coroutine)
  collateral : List (Port × Coroutine)
  released : List (Port × Coroutine)
  running : Option Nat
  conts : List (Continuation Port)
  releases : Port → Nat
  resumed : List Nat

/-- A new pump. -/
def Pump.init : Pump Port :=
  { blocked := [], collateral := [], released := [], running := none, conts := [], releases := fun _ => 0, resumed := [] }

/-- `assoc-ref` -/
def assocRef (l : List (Port × Coroutine)) (port : Port) : Option Coroutine :=
  (l.find? fun e => e.1 = port).map Prod.snd

/-- `alist-delete` -/
def alistDelete (port : Port) (l : List (Port × Coroutine)) : List (Port × Coroutine) :=
  l.filter fun e => e.1 ≠ port

/-- `assoc-remove!` removes the first match. -/
def assocRemove (l : List (Port × Coroutine)) (port : Port) : List (Port × Coroutine) :=
  l.eraseP fun e => e.1 = port

/-- `enqueue!` -/
def enqueue (q : List (Port × Coroutine)) (port : Port) (coroutine : Coroutine) : List (Port × Coroutine) :=
  q ++ [(port, coroutine)]

/-- `blocked-port` of a component with this `.handling?`, where none is `#f`: among the blocked coroutines and then
the others. -/
def blockedPort (o : Pump Port) (handling : Option Nat) : Option (Port × Coroutine) :=
  (o.blocked.find? fun e => some e.2.id = handling) <|> (o.collateral.find? fun e => some e.2.id = handling)

/-- The releases of the port before the coroutine of this entry blocked. -/
def Pump.sinceOf (o : Pump Port) (e : Port × Coroutine) : Nat :=
  ((e.2.cont.bind fun n => o.conts[n]?).map (·.since)).getD 0

/-- `dzn:block`. The first branch is the fall-through; the other one is `block` of `worker`. -/
def block (o : Pump Port) (id : Nat) (port : Port) : Pump Port :=
  if (o.released.any fun e => e.1 = port) then
    { o with released := alistDelete port o.released, blocked := alistDelete port o.blocked }
  else
    { o with
      blocked := enqueue o.blocked port ⟨some o.conts.length, id⟩
      conts := o.conts ++ [{ port, collateral := false, since := o.releases port }]
      running := none }

/-- `collateral-block` of `worker`; it fails when there is no port. -/
def collateralBlock (o : Pump Port) (id : Nat) (handling : Option Nat) : Option (Pump Port) :=
  (blockedPort o handling).map fun e =>
    { o with
      collateral := enqueue o.collateral e.1 ⟨some o.conts.length, id⟩
      conts := o.conts ++ [{ port := e.1, collateral := true, since := o.sinceOf e }]
      running := none }

/-- `dzn:release` -/
def release (o : Pump Port) (id : Nat) (port : Port) : Pump Port :=
  let coroutine := (assocRef o.blocked port).getD ⟨none, id⟩
  { o with
    released := enqueue o.released port coroutine
    releases := Function.update o.releases port (o.releases port + 1) }

/-- What the loop does with a released port before it calls the continuation. -/
def takeReleased (o : Pump Port) (port : Port) (rest : List (Port × Coroutine)) : Pump Port :=
  let collateral := (o.collateral.filter fun e => e.1 = port).map Prod.snd
  { o with
    released := collateral.foldl (fun q coroutine => enqueue q port coroutine) rest
    collateral := assocRemove o.collateral port }

/-- A continuation is called; that of `dzn:block` takes its port from the blocked ones. -/
def resume (o : Pump Port) (coroutine : Coroutine) : Pump Port :=
  match coroutine.cont with
  | none => o
  | some n =>
    let blocked :=
      match o.conts[n]? with
      | some c => if c.collateral then o.blocked else alistDelete c.port o.blocked
      | none => o.blocked
    { o with blocked, running := some coroutine.id, resumed := o.resumed ++ [n] }

inductive Op (Port : Type) where
  /-- `dzn:pump` starts an event in a coroutine. -/
  | event (id : Nat)
  /-- The event is done. -/
  | finish
  | block (port : Port)
  /-- A call enters a component with this `.handling?`. -/
  | collateralBlock (handling : Option Nat)
  | release (port : Port)
  /-- The loop of the pump. -/
  | loop

/-- The pump after an operation, where it can be done. -/
def step (o : Pump Port) (op : Op Port) : Option (Pump Port) :=
  match op, o.running with
  | .event id, none => some { o with running := some id }
  | .loop, none =>
    match o.released with
    | [] => none
    | (port, coroutine) :: rest => some (resume (takeReleased o port rest) coroutine)
  | .finish, some _ => some { o with running := none }
  | .block port, some id => some (block o id port)
  | .collateralBlock handling, some id => collateralBlock o id handling
  | .release port, some id => some (release o id port)
  | _, _ => none

/-- The pump after a sequence of operations. -/
def run (o : Pump Port) : List (Op Port) → Option (Pump Port)
  | [] => some o
  | op :: ops => (step o op).bind fun o => run o ops

/-! ## The condition -/

/-- A coroutine blocks on a port that none is blocked on, or about to be resumed on. When the loop takes a port, at most one coroutine is collaterally blocked on it. -/
def meets (o : Pump Port) : Op Port → Bool
  | .block port =>
    (o.blocked.all fun e => decide (e.1 ≠ port)) && o.released.all fun e => decide (e.1 = port → e.2.cont.all fun n => decide (n ∈ o.resumed))
  | .loop =>
    match o.released with
    | [] => true
    | (port, _) :: _ => (o.collateral.filter fun e => e.1 = port).length ≤ 1
  | _ => true

/-- A run whose operations all meet the condition. -/
def runMeets (o : Pump Port) : List (Op Port) → Option (Pump Port)
  | [] => some o
  | op :: ops => if meets o op then (step o op).bind fun o => runMeets o ops else none

/-! ## What holds in such a run -/

/-- The entry is of this continuation. -/
def EntryOf (o : Pump Port) (e : Port × Coroutine) (n : Nat) (c : Continuation Port) : Prop :=
  e.2.cont = some n ∧ o.conts[n]? = some c ∧ c.port = e.1

/-- No coroutine is blocked on the port. -/
def Free (o : Pump Port) (port : Port) : Prop := ∀ e ∈ o.blocked, e.1 ≠ port

/-- The entry is of a coroutine that was collaterally blocked. -/
def isCollateral (o : Pump Port) (e : Port × Coroutine) : Bool :=
  (e.2.cont.bind fun n => o.conts[n]?).any (·.collateral)

structure Inv (o : Pump Port) : Prop where
  /-- The coroutines that are blocked are on different ports. -/
  ports : (o.blocked.map Prod.fst).Nodup
  blocked : ∀ e ∈ o.blocked, ∃ n c, EntryOf o e n c ∧ c.collateral = false ∧ n ∉ o.resumed ∧
    (c.since < o.releases e.1 → e ∈ o.released)
  /-- What is collaterally blocked waits for a coroutine that blocked before it. -/
  collateral : ∀ e ∈ o.collateral, ∃ n c, EntryOf o e n c ∧ c.collateral = true ∧ n ∉ o.resumed ∧
    ∃ b ∈ o.blocked, ∃ m d, EntryOf o b m d ∧ b.1 = e.1 ∧ d.since = c.since ∧ m < n
  idle : ∀ e ∈ o.released, e.2.cont = none → Free o e.1
  released : ∀ e ∈ o.released, ∀ n, e.2.cont = some n → ∃ c, EntryOf o e n c ∧ c.since < o.releases e.1 ∧
    (c.collateral = true → n ∉ o.resumed ∧ Free o e.1) ∧
    (c.collateral = false → e ∈ o.blocked ∨ (n ∈ o.resumed ∧ Free o e.1))
  /-- At most one coroutine that was collaterally blocked on a port is about to be resumed. -/
  single : ∀ port, (o.released.filter fun e => decide (e.1 = port) && isCollateral o e).length ≤ 1
  all : ∀ (n : Nat) (c : Continuation Port), o.conts[n]? = some c → n ∈ o.resumed ∨ (∃ e ∈ o.blocked, EntryOf o e n c) ∨
    (∃ e ∈ o.collateral, EntryOf o e n c) ∨ (c.collateral = true ∧ ∃ e ∈ o.released, EntryOf o e n c)
  once : ∀ (n : Nat) (c : Continuation Port), o.conts[n]? = some c → c.collateral = true → o.resumed.count n ≤ 1
  order : ∀ (m n : Nat) (c d : Continuation Port), m < n → o.conts[m]? = some c → o.conts[n]? = some d → c.port = d.port →
    ∀ i, o.resumed[i]? = some n → m ∈ o.resumed.take i
  since : ∀ n ∈ o.resumed, ∃ c : Continuation Port, o.conts[n]? = some c ∧ c.since < o.releases c.port
  bound : ∀ (n : Nat) (c : Continuation Port), o.conts[n]? = some c → c.since ≤ o.releases c.port

variable {o o' : Pump Port}

theorem inv_init : Inv (Pump.init : Pump Port) := by
  constructor <;> simp [Pump.init]

/-! ### A new continuation -/

/-- `o'` has the continuations of `o` and one more. -/
def Extends (o o' : Pump Port) (c : Continuation Port) : Prop :=
  o'.conts = o.conts ++ [c] ∧ o'.resumed = o.resumed ∧ o'.releases = o.releases

omit [DecidableEq Port] in
theorem Extends.get {c d : Continuation Port} (hx : Extends o o' c) {n : Nat} (h : o.conts[n]? = some d) :
    o'.conts[n]? = some d := by
  rw [hx.1, List.getElem?_append_left (List.getElem?_eq_some_iff.mp h).1]
  exact h

omit [DecidableEq Port] in
theorem Extends.new {c : Continuation Port} (hx : Extends o o' c) : o'.conts[o.conts.length]? = some c := by
  rw [hx.1]
  simp

omit [DecidableEq Port] in
theorem Extends.cases {c d : Continuation Port} (hx : Extends o o' c) {n : Nat} (h : o'.conts[n]? = some d) :
    o.conts[n]? = some d ∨ (n = o.conts.length ∧ d = c) := by
  rw [hx.1] at h
  rcases Nat.lt_or_ge n o.conts.length with hlt | hge
  · rw [List.getElem?_append_left hlt] at h
    exact .inl h
  · rw [List.getElem?_append_right hge, List.getElem?_singleton] at h
    split at h
    · cases h
      exact .inr ⟨by omega, rfl⟩
    · cases h

omit [DecidableEq Port] in
theorem Extends.entry {c d : Continuation Port} (hx : Extends o o' c) {e : Port × Coroutine} {n : Nat}
    (h : EntryOf o e n d) : EntryOf o' e n d := ⟨h.1, hx.get h.2.1, h.2.2⟩

theorem lt_of_resumed (hi : Inv o) {n : Nat} (h : n ∈ o.resumed) : n < o.conts.length := by
  obtain ⟨c, hc, -⟩ := hi.since n h
  exact (List.getElem?_eq_some_iff.mp hc).1

omit [DecidableEq Port] in
theorem isCollateral_of_entry {e : Port × Coroutine} {n : Nat} {c : Continuation Port} (h : EntryOf o e n c) :
    isCollateral o e = c.collateral := by
  simp [isCollateral, h.1, h.2.1]

/-- What a coroutine that blocks leaves as it was. -/
theorem extend_inv {c : Continuation Port} (hi : Inv o) (hx : Extends o o' c)
    (hreleased : o'.released = o.released) (hcsince : c.since ≤ o.releases c.port)
    (hports : (o'.blocked.map Prod.fst).Nodup)
    (hblocked : ∀ e ∈ o'.blocked, e ∈ o.blocked ∨
      (EntryOf o' e o.conts.length c ∧ c.collateral = false ∧ c.since = o.releases e.1 ∧ ∀ f ∈ o.released, f.1 ≠ e.1))
    (hkept : ∀ e ∈ o.blocked, e ∈ o'.blocked)
    (hcollateral : ∀ e ∈ o'.collateral, e ∈ o.collateral ∨
      (EntryOf o' e o.conts.length c ∧ c.collateral = true ∧
        ∃ b ∈ o.blocked, ∃ m d, EntryOf o b m d ∧ b.1 = e.1 ∧ d.since = c.since))
    (hkept' : ∀ e ∈ o.collateral, e ∈ o'.collateral)
    (hnew : (∃ e ∈ o'.blocked, EntryOf o' e o.conts.length c) ∨ ∃ e ∈ o'.collateral, EntryOf o' e o.conts.length c) :
    Inv o' := by
  -- the new continuation is not resumed yet
  have hfresh : o.conts.length ∉ o'.resumed := by
    rw [hx.2.1]
    intro h
    exact Nat.lt_irrefl _ (lt_of_resumed hi h)
  have hfree : ∀ e ∈ o.released, Free o e.1 → Free o' e.1 := by
    intro e he hf b hb
    rcases hblocked b hb with hb | ⟨-, -, -, hno⟩
    · exact hf b hb
    · exact fun h => hno e he h.symm
  constructor
  case ports => exact hports
  case blocked =>
    intro e he
    rcases hblocked e he with he | ⟨hentry, hc, hs, -⟩
    · obtain ⟨n, d, hentry, hd, hn, hs⟩ := hi.blocked e he
      refine ⟨n, d, hx.entry hentry, hd, by rwa [hx.2.1], ?_⟩
      rw [hx.2.2, hreleased]
      exact hs
    · refine ⟨_, c, hentry, hc, hfresh, fun h => ?_⟩
      rw [hs, hx.2.2] at h
      exact absurd h (Nat.lt_irrefl _)
  case collateral =>
    intro e he
    rcases hcollateral e he with he | ⟨hentry, hc, b, hb, m, d, hbentry, hport, hs⟩
    · obtain ⟨n, d, hentry, hd, hn, b, hb, m, d', hbentry, hrest⟩ := hi.collateral e he
      exact ⟨n, d, hx.entry hentry, hd, by rwa [hx.2.1], b, hkept b hb, m, d', hx.entry hbentry, hrest⟩
    · refine ⟨_, c, hentry, hc, hfresh, b, hkept b hb, m, d, hx.entry hbentry, hport, hs, ?_⟩
      exact (List.getElem?_eq_some_iff.mp hbentry.2.1).1
  case idle =>
    intro e he hn
    rw [hreleased] at he
    exact hfree e he (hi.idle e he hn)
  case released =>
    intro e he n hn
    rw [hreleased] at he
    obtain ⟨d, hentry, hs, hcol, hdir⟩ := hi.released e he n hn
    rw [hx.2.1, hx.2.2]
    refine ⟨d, hx.entry hentry, hs, fun h => ⟨(hcol h).1, hfree e he (hcol h).2⟩, fun h => ?_⟩
    rcases hdir h with hb | ⟨hr, hf⟩
    · exact .inl (hkept e hb)
    · exact .inr ⟨hr, hfree e he hf⟩
  case single =>
    intro port
    rw [hreleased]
    -- the continuations that are there keep their kind
    have heq : ∀ e ∈ o.released, (decide (e.1 = port) && isCollateral o' e) = (decide (e.1 = port) && isCollateral o e) := by
      intro e he
      cases hcont : e.2.cont with
      | none => simp [isCollateral, hcont]
      | some n =>
        obtain ⟨d, hentry, -⟩ := hi.released e he n hcont
        rw [isCollateral_of_entry hentry, isCollateral_of_entry (hx.entry hentry)]
    rw [List.filter_congr heq]
    exact hi.single port
  case all =>
    intro n d hd
    rcases hx.cases hd with hold | ⟨rfl, rfl⟩
    · rw [hx.2.1, hreleased]
      rcases hi.all n d hold with h | ⟨e, he, hentry⟩ | ⟨e, he, hentry⟩ | ⟨hc, e, he, hentry⟩
      · exact .inl h
      · exact .inr (.inl ⟨e, hkept e he, hx.entry hentry⟩)
      · exact .inr (.inr (.inl ⟨e, hkept' e he, hx.entry hentry⟩))
      · exact .inr (.inr (.inr ⟨hc, e, he, hx.entry hentry⟩))
    · rcases hnew with h | h
      · exact .inr (.inl h)
      · exact .inr (.inr (.inl h))
  case once =>
    intro n d hd hc
    rcases hx.cases hd with hold | ⟨rfl, rfl⟩
    · rw [hx.2.1]
      exact hi.once n d hold hc
    · rw [List.count_eq_zero.mpr hfresh]
      exact Nat.zero_le _
  case order =>
    intro m n d d' hlt hm hn hport i hget
    -- what is resumed is an old continuation, and the new one comes after all of them
    have hnlen : n ≠ o.conts.length := by
      rintro rfl
      exact hfresh (List.mem_of_getElem? hget)
    rw [hx.2.1] at hget ⊢
    rcases hx.cases hn with hn | ⟨h, -⟩
    · rcases hx.cases hm with hm | ⟨h, -⟩
      · exact hi.order m n d d' hlt hm hn hport i hget
      · have := (List.getElem?_eq_some_iff.mp hn).1
        omega
    · exact absurd h hnlen
  case since =>
    intro n hn
    rw [hx.2.1] at hn
    obtain ⟨d, hd, hs⟩ := hi.since n hn
    exact ⟨d, hx.get hd, by rwa [hx.2.2]⟩
  case bound =>
    intro n d hd
    rw [hx.2.2]
    rcases hx.cases hd with hold | ⟨rfl, rfl⟩
    · exact hi.bound n d hold
    · exact hcsince

/-- `block` of `worker`: nothing is released or blocked on the port yet. -/
theorem suspend_inv {id : Nat} {port : Port} (hi : Inv o) (hm : meets o (.block port) = true)
    (hno : ∀ e ∈ o.released, e.1 ≠ port) : Inv (block o id port) := by
  simp only [meets, Bool.and_eq_true, List.all_eq_true, decide_eq_true_eq] at hm
  have hblock : block o id port =
      { o with
        blocked := enqueue o.blocked port ⟨some o.conts.length, id⟩
        conts := o.conts ++ [{ port, collateral := false, since := o.releases port }]
        running := none } := by
    apply if_neg
    rw [List.any_eq_true]
    rintro ⟨e, he, h⟩
    exact hno e he (of_decide_eq_true h)
  have hx : Extends o (block o id port) { port := port, collateral := false, since := o.releases port } := by
    rw [hblock]
    exact ⟨rfl, rfl, rfl⟩
  have hentry : EntryOf (block o id port) (port, (⟨some o.conts.length, id⟩ : Coroutine)) o.conts.length
      { port := port, collateral := false, since := o.releases port } := ⟨rfl, hx.new, rfl⟩
  rw [hblock] at hx hentry ⊢
  apply extend_inv hi hx rfl (Nat.le_refl _)
  · simp only [enqueue, List.map_append, List.map_cons, List.map_nil]
    apply List.Nodup.append hi.ports (List.nodup_singleton _)
    intro q hq hq'
    obtain ⟨e, he, rfl⟩ := List.mem_map.mp hq
    exact hm.1 e he (List.mem_singleton.mp hq')
  · intro e he
    rcases List.mem_append.mp he with he | he
    · exact .inl he
    · cases List.mem_singleton.mp he
      exact .inr ⟨hentry, rfl, rfl, hno⟩
  · exact fun e he => List.mem_append_left _ he
  · exact fun e he => .inl he
  · exact fun e he => he
  · exact .inl ⟨_, List.mem_append_right _ (List.mem_singleton.mpr rfl), hentry⟩

theorem collateralBlock_inv {id : Nat} {handling : Option Nat} (hi : Inv o)
    (h : collateralBlock o id handling = some o') : Inv o' := by
  obtain ⟨e, he, ho'⟩ := Option.map_eq_some_iff.mp h
  have hfound : e ∈ o.blocked ∨ e ∈ o.collateral := by
    simp only [blockedPort, Option.orElse_eq_orElse, Option.orElse_eq_or, Option.or_eq_some_iff] at he
    rcases he with he | ⟨-, he⟩
    · exact .inl (List.mem_of_find?_eq_some he)
    · exact .inr (List.mem_of_find?_eq_some he)
  -- The coroutine that this one waits for, through the one that handles the component.
  have hwaits : ∃ b ∈ o.blocked, ∃ m d, EntryOf o b m d ∧ b.1 = e.1 ∧ d.since = o.sinceOf e := by
    have hsince : ∀ {n : Nat} {c : Continuation Port}, EntryOf o e n c → o.sinceOf e = c.since := by
      intro n c hentry
      simp [Pump.sinceOf, hentry.1, hentry.2.1]
    rcases hfound with he | he
    · obtain ⟨n, c, hentry, -⟩ := hi.blocked e he
      exact ⟨e, he, n, c, hentry, rfl, (hsince hentry).symm⟩
    · obtain ⟨n, c, hentry, -, -, b, hb, m, d, hbentry, hport, hs, -⟩ := hi.collateral e he
      exact ⟨b, hb, m, d, hbentry, hport, hs.trans (hsince hentry).symm⟩
  have hx : Extends o o' { port := e.1, collateral := true, since := o.sinceOf e } := by
    rw [← ho']
    exact ⟨rfl, rfl, rfl⟩
  have hentry : EntryOf o' (e.1, (⟨some o.conts.length, id⟩ : Coroutine)) o.conts.length
      { port := e.1, collateral := true, since := o.sinceOf e } := ⟨rfl, hx.new, rfl⟩
  subst ho'
  apply extend_inv hi hx rfl
  · obtain ⟨b, -, m, d, hbentry, hport, hs⟩ := hwaits
    rw [← hs, ← hport, ← hbentry.2.2]
    exact hi.bound m d hbentry.2.1
  · exact hi.ports
  · exact fun f hf => .inl hf
  · exact fun f hf => hf
  · intro f hf
    rcases List.mem_append.mp hf with hf | hf
    · exact .inl hf
    · cases List.mem_singleton.mp hf
      exact .inr ⟨hentry, rfl, hwaits⟩
  · exact fun f hf => List.mem_append_left _ hf
  · exact .inr ⟨_, List.mem_append_right _ (List.mem_singleton.mpr rfl), hentry⟩

/-! ### The released ports -/

/-- Released ports on which nothing is blocked any more may go. -/
theorem drop_inv {l : List (Port × Coroutine)} (hi : Inv o) (hsub : l.Sublist o.released)
    (hdropped : ∀ e ∈ o.released, e ∈ l ∨ ∀ n, e.2.cont = some n → n ∈ o.resumed) : Inv { o with released := l } := by
  have hkept : ∀ e ∈ o.released, ∀ {n : Nat} {c : Continuation Port}, EntryOf o e n c → n ∉ o.resumed → e ∈ l := by
    intro e he n c hentry hn
    rcases hdropped e he with h | h
    · exact h
    · exact absurd (h n hentry.1) hn
  constructor
  case ports => exact hi.ports
  case blocked =>
    intro e he
    obtain ⟨n, c, hentry, hc, hn, hs⟩ := hi.blocked e he
    exact ⟨n, c, hentry, hc, hn, fun h => hkept e (hs h) hentry hn⟩
  case collateral => exact hi.collateral
  case idle => exact fun e he => hi.idle e (hsub.subset he)
  case released => exact fun e he => hi.released e (hsub.subset he)
  case single => exact fun port => Nat.le_trans (hsub.filter _).length_le (hi.single port)
  case all =>
    intro n c hc
    rcases hi.all n c hc with h | h | h | ⟨hcol, e, he, hentry⟩
    · exact .inl h
    · exact .inr (.inl h)
    · exact .inr (.inr (.inl h))
    · by_cases hn : n ∈ o.resumed
      · exact .inl hn
      · exact .inr (.inr (.inr ⟨hcol, e, hkept e he hentry hn, hentry⟩))
  case once => exact hi.once
  case order => exact hi.order
  case since => exact hi.since
  case bound => exact hi.bound

/-- The fall-through of `dzn:block`. -/
theorem fallThrough_inv {id : Nat} {port : Port} (hi : Inv o) (hm : meets o (.block port) = true)
    (hsome : ∃ e ∈ o.released, e.1 = port) : Inv (block o id port) := by
  simp only [meets, Bool.and_eq_true, List.all_eq_true, decide_eq_true_eq] at hm
  have hblocked : alistDelete port o.blocked = o.blocked := by
    apply List.filter_eq_self.mpr
    exact fun e he => decide_eq_true (hm.1 e he)
  have hblock : block o id port = { o with released := alistDelete port o.released } := by
    have hany : (o.released.any fun e => decide (e.1 = port)) = true := by simpa using hsome
    simp only [block, hany, hblocked, if_true]
  rw [hblock]
  apply drop_inv hi List.filter_sublist
  intro e he
  by_cases hport : e.1 = port
  · refine .inr fun n hn => ?_
    simpa [hn] using hm.2 e he hport
  · exact .inl (List.mem_filter.mpr ⟨he, decide_eq_true hport⟩)

theorem block_inv {id : Nat} {port : Port} (hi : Inv o) (hm : meets o (.block port) = true) :
    Inv (block o id port) := by
  by_cases hsome : ∃ e ∈ o.released, e.1 = port
  · exact fallThrough_inv hi hm hsome
  · apply suspend_inv hi hm
    intro e he h
    exact hsome ⟨e, he, h⟩

/-- The coroutines that are blocked are on different ports. -/
theorem unique_blocked (hi : Inv o) {a b : Port × Coroutine} (ha : a ∈ o.blocked) (hb : b ∈ o.blocked)
    (h : a.1 = b.1) : a = b := List.inj_on_of_nodup_map hi.ports ha hb h

/-- What `dzn:release` queues: the coroutine that is blocked on the port, or none. -/
theorem assocRef_cases (o : Pump Port) (id : Nat) (port : Port) :
    (∃ b ∈ o.blocked, b.1 = port ∧ (assocRef o.blocked port).getD ⟨none, id⟩ = b.2) ∨
      (Free o port ∧ (assocRef o.blocked port).getD ⟨none, id⟩ = ⟨none, id⟩) := by
  unfold assocRef
  cases hfind : o.blocked.find? fun e => e.1 = port with
  | none =>
    refine .inr ⟨fun e he => ?_, rfl⟩
    simpa using List.find?_eq_none.mp hfind e he
  | some b => exact .inl ⟨b, List.mem_of_find?_eq_some hfind, by simpa using List.find?_some hfind, rfl⟩

theorem release_inv {id : Nat} {port : Port} (hi : Inv o) : Inv (release o id port) := by
  have hle : ∀ q, o.releases q ≤ (release o id port).releases q := by
    intro q
    simp only [release, Function.update_apply]
    split
    · subst q
      exact Nat.le_succ _
    · exact Nat.le_refl _
  have hother : ∀ q, q ≠ port → (release o id port).releases q = o.releases q := by
    intro q hq
    exact Function.update_of_ne hq _ _
  have hmem : ∀ e ∈ o.released, e ∈ (release o id port).released := fun e he => List.mem_append_left _ he
  -- the coroutine that is blocked on the port, or else one that runs nothing
  obtain ⟨coroutine, hcoroutine⟩ : ∃ coroutine, coroutine = (assocRef o.blocked port).getD ⟨none, id⟩ := ⟨_, rfl⟩
  have hlist : (release o id port).released = o.released ++ [(port, coroutine)] := by
    rw [hcoroutine]
    rfl
  have hnew : (port, coroutine) ∈ (release o id port).released := by
    rw [hlist]
    exact List.mem_append_right _ (List.mem_singleton.mpr rfl)
  constructor
  case ports => exact hi.ports
  case blocked =>
    intro e he
    obtain ⟨n, c, hentry, hc, hn, hs⟩ := hi.blocked e he
    refine ⟨n, c, hentry, hc, hn, fun h => ?_⟩
    by_cases hport : e.1 = port
    · rcases assocRef_cases o id port with ⟨b, hb, hbport, hb2⟩ | ⟨hfree, -⟩
      · -- one coroutine at most is blocked on a port
        have heb : e = b := unique_blocked hi he hb (hport.trans hbport.symm)
        have he2 : e = (port, coroutine) := by
          rw [hcoroutine, hb2, ← heb, ← hport]
        rw [he2]
        exact hnew
      · exact absurd hport (hfree e he)
    · rw [hother _ hport] at h
      exact hmem e (hs h)
  case collateral => exact hi.collateral
  case idle =>
    intro e he hn
    rw [hlist] at he
    rcases List.mem_append.mp he with he | he
    · exact hi.idle e he hn
    · cases List.mem_singleton.mp he
      rcases assocRef_cases o id port with ⟨b, hb, -, hb2⟩ | ⟨hfree, -⟩
      · obtain ⟨n, c, hentry, -⟩ := hi.blocked b hb
        rw [hcoroutine, hb2, hentry.1] at hn
        cases hn
      · exact hfree
  case released =>
    intro e he n hn
    rw [hlist] at he
    rcases List.mem_append.mp he with he | he
    · obtain ⟨c, hentry, hs, hrest⟩ := hi.released e he n hn
      exact ⟨c, hentry, Nat.lt_of_lt_of_le hs (hle _), hrest⟩
    · cases List.mem_singleton.mp he
      rcases assocRef_cases o id port with ⟨b, hb, rfl, hb2⟩ | ⟨-, hnone⟩
      · obtain ⟨m, c, hentry, hc, hm, -⟩ := hi.blocked b hb
        have heq : (b.1, coroutine) = b := by rw [hcoroutine, hb2]
        have hmn : m = n := by
          rw [heq] at hn
          exact Option.some.inj (hentry.1.symm.trans hn)
        subst hmn
        refine ⟨c, by rw [heq]; exact hentry, ?_, fun h => ?_, fun _ => .inl (by rw [heq]; exact hb)⟩
        · have hb := hi.bound m c hentry.2.1
          rw [hentry.2.2] at hb
          simp only [release, Function.update_self]
          omega
        · rw [hc] at h
          cases h
      · rw [hnone] at hcoroutine
        rw [hcoroutine] at hn
        cases hn
  case single =>
    intro q
    -- what is added was blocked on the port itself
    have hdirect : isCollateral (release o id port) (port, coroutine) = false := by
      rcases assocRef_cases o id port with ⟨b, hb, -, hb2⟩ | ⟨-, hnone⟩
      · obtain ⟨n, c, hentry, hc, -⟩ := hi.blocked b hb
        rw [hcoroutine, hb2]
        simp [isCollateral, release, hentry.1, hentry.2.1, hc]
      · rw [hcoroutine, hnone]
        rfl
    rw [hlist, List.filter_append]
    simp only [List.filter_cons, hdirect, Bool.and_false, Bool.false_eq_true, if_false, List.filter_nil,
      List.append_nil]
    exact hi.single q
  case all =>
    intro n c hc
    rcases hi.all n c hc with h | h | h | ⟨hcol, e, he, hentry⟩
    · exact .inl h
    · exact .inr (.inl h)
    · exact .inr (.inr (.inl h))
    · exact .inr (.inr (.inr ⟨hcol, e, hmem e he, hentry⟩))
  case once => exact hi.once
  case order => exact hi.order
  case since =>
    intro n hn
    obtain ⟨c, hc, hs⟩ := hi.since n hn
    exact ⟨c, hc, Nat.lt_of_lt_of_le hs (hle _)⟩
  case bound => exact fun n c hc => Nat.le_trans (hi.bound n c hc) (hle _)

/-! ### The loop -/

omit [DecidableEq Port] in
/-- With one match at most, removing the first is removing all. -/
theorem eraseP_of_single {p : Port × Coroutine → Bool} {l : List (Port × Coroutine)}
    (h : (l.filter p).length ≤ 1) : l.eraseP p = l.filter fun e => !p e := by
  induction l with
  | nil => rfl
  | cons e l ih =>
    by_cases hp : p e = true
    · rw [List.filter_cons_of_pos hp, List.length_cons] at h
      have hnil : l.filter p = [] := List.eq_nil_of_length_eq_zero (by omega)
      have hall : (l.filter fun e => !p e) = l := by
        apply List.filter_eq_self.mpr
        intro f hf
        have := List.filter_eq_nil_iff.mp hnil f hf
        simpa using this
      rw [List.eraseP_cons_of_pos hp, List.filter_cons_of_neg (by simp [hp]), hall]
    · rw [List.filter_cons_of_neg hp] at h
      rw [List.eraseP_cons_of_neg hp, List.filter_cons_of_pos (by simp [hp]), ih h]

/-- The coroutines that are collaterally blocked on the port. -/
def moved (o : Pump Port) (port : Port) : List (Port × Coroutine) := o.collateral.filter fun e => e.1 = port

theorem mem_moved {port : Port} {e : Port × Coroutine} :
    e ∈ moved o port ↔ e ∈ o.collateral ∧ e.1 = port := by
  simp [moved, List.mem_filter]

/-- They are queued in their order. -/
theorem takeReleased_released (o : Pump Port) (port : Port) (rest : List (Port × Coroutine)) :
    (takeReleased o port rest).released = rest ++ moved o port := by
  have hfold : ∀ (l : List (Port × Coroutine)) (q : List (Port × Coroutine)), (∀ e ∈ l, e.1 = port) →
      (l.map Prod.snd).foldl (fun q coroutine => enqueue q port coroutine) q = q ++ l := by
    intro l
    induction l with
    | nil => simp
    | cons e l ih =>
      intro q hl
      have he : (port, e.2) = e := by rw [← hl e (List.mem_cons_self ..)]
      rw [List.map_cons, List.foldl_cons, ih _ fun f hf => hl f (List.mem_cons_of_mem _ hf)]
      simp [enqueue, he]
  exact hfold _ rest fun e he => (mem_moved.mp he).2

/-- The loop under the condition: it takes all that is collaterally blocked on the port. -/
theorem takeReleased_eq {port : Port} {coroutine : Coroutine} {rest : List (Port × Coroutine)}
    (hm : meets o .loop = true) (hr : o.released = (port, coroutine) :: rest) :
    takeReleased o port rest =
      { o with released := rest ++ moved o port, collateral := alistDelete port o.collateral } := by
  have hcollateral : assocRemove o.collateral port = alistDelete port o.collateral := by
    simp only [meets, hr, decide_eq_true_eq] at hm
    rw [assocRemove, eraseP_of_single hm, alistDelete]
    congr 1
    funext e
    simp
  rw [← takeReleased_released o port rest, ← hcollateral]
  rfl

/-- What the loop does when the continuation is none. -/
theorem loop_idle_inv {port : Port} {coroutine : Coroutine} {rest : List (Port × Coroutine)} (hi : Inv o)
    (hm : meets o .loop = true) (hr : o.released = (port, coroutine) :: rest) (hn : coroutine.cont = none) :
    Inv (resume (takeReleased o port rest) coroutine) := by
  have hfree : Free o port := hi.idle (port, coroutine) (by rw [hr]; exact List.mem_cons_self ..) hn
  have hempty : ∀ e ∈ o.collateral, e.1 ≠ port := by
    intro e he h
    obtain ⟨-, -, -, -, -, b, hb, -, -, -, hport, -⟩ := hi.collateral e he
    exact hfree b hb (hport.trans h)
  have hmoved : moved o port = [] := by
    apply List.filter_eq_nil_iff.mpr
    intro e he
    simpa using hempty e he
  have hcollateral : alistDelete port o.collateral = o.collateral :=
    List.filter_eq_self.mpr fun e he => decide_eq_true (hempty e he)
  have heq : resume (takeReleased o port rest) coroutine = { o with released := rest } := by
    simp only [resume, hn]
    rw [takeReleased_eq hm hr, hmoved, hcollateral, List.append_nil]
  rw [heq]
  apply drop_inv hi (by rw [hr]; exact List.sublist_cons_self ..)
  intro e he
  rw [hr] at he
  rcases List.mem_cons.mp he with rfl | he
  · refine .inr fun n h => ?_
    rw [hn] at h
    cases h
  · exact .inl he

/-- What a released entry with a continuation is of: a coroutine blocked on the port; one that was, but has been
resumed; or one that was collaterally blocked. In the last two nothing is blocked on the port. -/
theorem taken_cases {port : Port} {coroutine : Coroutine} {rest : List (Port × Coroutine)} {n : Nat}
    (hi : Inv o) (hr : o.released = (port, coroutine) :: rest) (hn : coroutine.cont = some n) :
    ∃ c, EntryOf o (port, coroutine) n c ∧ c.since < o.releases port ∧
      ((c.collateral = false ∧ (port, coroutine) ∈ o.blocked) ∨
        (c.collateral = false ∧ n ∈ o.resumed ∧ Free o port) ∨
        (c.collateral = true ∧ n ∉ o.resumed ∧ Free o port)) := by
  obtain ⟨c, hentry, hs, hcol, hdir⟩ := hi.released (port, coroutine) (by rw [hr]; exact List.mem_cons_self ..) n hn
  refine ⟨c, hentry, hs, ?_⟩
  cases hc : c.collateral with
  | true => exact .inr (.inr ⟨rfl, hcol hc⟩)
  | false =>
    rcases hdir hc with h | h
    · exact .inl ⟨rfl, h⟩
    · exact .inr (.inl ⟨rfl, h⟩)

/-- No other coroutine that was collaterally blocked on the port of this one is about to be resumed. -/
theorem single_rest {port : Port} {coroutine : Coroutine} {rest : List (Port × Coroutine)} {n : Nat}
    {c : Continuation Port} (hi : Inv o) (hr : o.released = (port, coroutine) :: rest)
    (hentry : EntryOf o (port, coroutine) n c) (hc : c.collateral = true) {e : Port × Coroutine} (he : e ∈ rest)
    (hport : e.1 = port) : isCollateral o e = false := by
  have hlen := hi.single port
  have hpos : (decide ((port, coroutine).1 = port) && isCollateral o (port, coroutine)) = true := by
    rw [isCollateral_of_entry hentry, hc]
    simp
  rw [hr, List.filter_cons_of_pos (p := fun e => decide (e.1 = port) && isCollateral o e) hpos, List.length_cons] at hlen
  have hnil : (rest.filter fun e => decide (e.1 = port) && isCollateral o e) = [] :=
    List.eq_nil_of_length_eq_zero (by omega)
  have := List.filter_eq_nil_iff.mp hnil e he
  simpa [hport] using this

/-- What the loop takes from the released ports: the first, of this continuation. -/
structure Taken (o : Pump Port) (port : Port) (coroutine : Coroutine) (rest : List (Port × Coroutine)) (n : Nat)
    (c : Continuation Port) : Prop where
  released : o.released = (port, coroutine) :: rest
  entry : EntryOf o (port, coroutine) n c
  since : c.since < o.releases port
  cases : (c.collateral = false ∧ (port, coroutine) ∈ o.blocked) ∨
    (c.collateral = false ∧ n ∈ o.resumed ∧ Free o port) ∨ (c.collateral = true ∧ n ∉ o.resumed ∧ Free o port)

section Taken

variable {port : Port} {coroutine : Coroutine} {rest : List (Port × Coroutine)} {n : Nat} {c : Continuation Port}

omit [DecidableEq Port] in
theorem Taken.free (ht : Taken o port coroutine rest n c) (hc : c.collateral = true) : Free o port := by
  rcases ht.cases with h | h | h
  · rw [h.1] at hc
    cases hc
  · exact h.2.2
  · exact h.2.2

omit [DecidableEq Port] in
theorem Taken.mem_rest (ht : Taken o port coroutine rest n c) {e : Port × Coroutine} (he : e ∈ rest) :
    e ∈ o.released := by
  rw [ht.released]
  exact List.mem_cons_of_mem _ he

/-- What is blocked on the port is this coroutine. -/
theorem Taken.blocked (ht : Taken o port coroutine rest n c) (hi : Inv o) {b : Port × Coroutine} {m : Nat}
    {d : Continuation Port} (hb : b ∈ o.blocked) (hport : b.1 = port) (hm : EntryOf o b m d) :
    m = n ∧ d = c ∧ c.collateral = false := by
  have hnot : ¬ Free o port := fun h => h b hb hport
  have hdir : c.collateral = false ∧ (port, coroutine) ∈ o.blocked := by
    rcases ht.cases with h | h | h
    · exact h
    · exact absurd h.2.2 hnot
    · exact absurd h.2.2 hnot
  cases unique_blocked hi hb hdir.2 hport
  have hmn : m = n := Option.some.inj (hm.1.symm.trans ht.entry.1)
  subst hmn
  exact ⟨rfl, Option.some.inj (hm.2.1.symm.trans ht.entry.2.1), hdir.1⟩

/-- What is collaterally blocked on the port waits for this coroutine. -/
theorem Taken.waits (ht : Taken o port coroutine rest n c) (hi : Inv o) {e : Port × Coroutine} {m : Nat}
    {d : Continuation Port} (he : e ∈ o.collateral) (hport : e.1 = port) (hm : EntryOf o e m d) :
    n < m ∧ d.since = c.since ∧ d.collateral = true ∧ m ∉ o.resumed := by
  obtain ⟨m', d', hentry', hd', hno, b, hb, k, f, hbentry, hbport, hsince, hlt⟩ := hi.collateral e he
  have hmm : m' = m := Option.some.inj (hentry'.1.symm.trans hm.1)
  subst hmm
  have hdd : d' = d := Option.some.inj (hentry'.2.1.symm.trans hm.2.1)
  subst hdd
  obtain ⟨rfl, rfl, -⟩ := ht.blocked hi hb (hbport.trans hport) hbentry
  exact ⟨hlt, hsince.symm, hd', hno⟩

theorem not_free_of_collateral (hi : Inv o) {e : Port × Coroutine} (he : e ∈ o.collateral) :
    ¬ Free o e.1 := by
  intro h
  obtain ⟨-, -, -, -, -, b, hb, -, -, -, hport, -⟩ := hi.collateral e he
  exact h b hb hport

omit [DecidableEq Port] in
/-- A continuation on another port is not the one that is called. -/
theorem Taken.other (ht : Taken o port coroutine rest n c) {e : Port × Coroutine} {m : Nat}
    {d : Continuation Port}
    (hm : EntryOf o e m d) (hport : e.1 ≠ port) (hno : m ∉ o.resumed) : m ∉ o.resumed ++ [n] := by
  intro h
  rcases List.mem_append.mp h with h | h
  · exact hno h
  · cases List.mem_singleton.mp h
    apply hport
    rw [← hm.2.2, Option.some.inj (hm.2.1.symm.trans ht.entry.2.1)]
    exact ht.entry.2.2

theorem Taken.single (ht : Taken o port coroutine rest n c) (hi : Inv o) (hm : meets o .loop = true)
    (q : Port) :
    ((rest ++ moved o port).filter fun e => decide (e.1 = q) && isCollateral o e).length ≤ 1 := by
  have hrest : (rest.filter fun e => decide (e.1 = q) && isCollateral o e).length ≤ 1 := by
    apply Nat.le_trans _ (hi.single q)
    rw [ht.released]
    exact ((List.sublist_cons_self _ _).filter _).length_le
  rw [List.filter_append]
  cases hmoved : moved o port with
  | nil =>
    rw [List.filter_nil, List.append_nil]
    exact hrest
  | cons e l =>
    have hlen : (moved o port).length ≤ 1 := by simpa [meets, ht.released, moved] using hm
    rw [hmoved, List.length_cons] at hlen
    have hl : l = [] := List.eq_nil_of_length_eq_zero (by omega)
    obtain ⟨he, hport⟩ := mem_moved.mp (hmoved ▸ List.mem_cons_self ..)
    by_cases hq : q = port
    · -- A collaterally blocked coroutine is released already when nothing is blocked on the port.
      have hnil : (rest.filter fun e => decide (e.1 = q) && isCollateral o e) = [] := by
        apply List.filter_eq_nil_iff.mpr
        intro f hf h
        obtain ⟨hfport, hfcol⟩ := Bool.and_eq_true_iff.mp h
        have hfport : f.1 = q := of_decide_eq_true hfport
        cases hcont : f.2.cont with
        | none => simp [isCollateral, hcont] at hfcol
        | some m =>
          obtain ⟨d, hfm, -, hcol, -⟩ := hi.released f (ht.mem_rest hf) m hcont
          rw [isCollateral_of_entry hfm] at hfcol
          have hfree := (hcol hfcol).2
          rw [hfport, hq, ← hport] at hfree
          exact not_free_of_collateral hi he hfree
      rw [hnil, hl, List.nil_append]
      exact List.length_filter_le ..
    · have hnil : ([e].filter fun e => decide (e.1 = q) && isCollateral o e) = [] := by
        apply List.filter_eq_nil_iff.mpr
        intro f hf h
        cases List.mem_singleton.mp hf
        exact hq ((of_decide_eq_true (Bool.and_eq_true_iff.mp h).1).symm.trans hport)
      rw [hl, hnil, List.append_nil]
      exact hrest

/-- What blocked on the port before this continuation has been resumed. -/
theorem Taken.before (ht : Taken o port coroutine rest n c) (hi : Inv o) {m : Nat} {d : Continuation Port}
    (hlt : m < n) (hm : o.conts[m]? = some d) (hport : d.port = port) : m ∈ o.resumed := by
  rcases hi.all m d hm with h | ⟨e, he, hem⟩ | ⟨e, he, hem⟩ | ⟨hd, e, he, hem⟩
  · exact h
  · have := (ht.blocked hi he (hem.2.2.symm.trans hport) hem).1
    omega
  · have := (ht.waits hi he (hem.2.2.symm.trans hport) hem).1
    omega
  · obtain ⟨d', hem', -, hcol, -⟩ := hi.released e he m hem.1
    have hdd : d' = d := Option.some.inj (hem'.2.1.symm.trans hm)
    subst hdd
    have hfree : Free o port := by
      rw [← hport, hem.2.2]
      exact (hcol hd).2
    rcases ht.cases with h | h | h
    · exact absurd rfl (hfree _ h.2)
    · obtain ⟨i, hi', hget⟩ := List.mem_iff_getElem.mp h.2.1
      have hbefore := hi.order m n d' c hlt hm ht.entry.2.1 (hport.trans ht.entry.2.2.symm) i
        (by rw [List.getElem?_eq_getElem hi', hget])
      exact List.mem_of_mem_take hbefore
    · rw [ht.released] at he
      rcases List.mem_cons.mp he with rfl | he
      · have := Option.some.inj (hem.1.symm.trans ht.entry.1)
        omega
      · have hnot := single_rest hi ht.released ht.entry h.1 he (hem.2.2.symm.trans hport)
        rw [isCollateral_of_entry hem, hd] at hnot
        cases hnot

/-- The pump when this continuation is called. -/
def taken (o : Pump Port) (port : Port) (coroutine : Coroutine) (rest : List (Port × Coroutine)) (n : Nat) :
    Pump Port :=
  { o with
    blocked := alistDelete port o.blocked
    collateral := alistDelete port o.collateral
    released := rest ++ moved o port
    running := some coroutine.id
    resumed := o.resumed ++ [n] }

theorem mem_alistDelete {l : List (Port × Coroutine)} {e : Port × Coroutine} :
    e ∈ alistDelete port l ↔ e ∈ l ∧ e.1 ≠ port := by
  simp [alistDelete, List.mem_filter]

theorem Taken.free_taken (_ : Taken o port coroutine rest n c) {q : Port} (h : Free o q ∨ q = port) :
    Free (taken o port coroutine rest n) q := by
  intro b hb
  obtain ⟨hb, hport⟩ := mem_alistDelete.mp hb
  rcases h with h | rfl
  · exact h b hb
  · exact hport

theorem Taken.resume_eq (ht : Taken o port coroutine rest n c) (hm : meets o .loop = true) :
    resume (takeReleased o port rest) coroutine = taken o port coroutine rest n := by
  have hblocked : (if c.collateral then o.blocked else alistDelete c.port o.blocked) = alistDelete port o.blocked := by
    split
    · rename_i hc
      exact (List.filter_eq_self.mpr fun e he => decide_eq_true (ht.free hc e he)).symm
    · rw [ht.entry.2.2]
  rw [takeReleased_eq hm ht.released]
  simp only [resume, taken, show coroutine.cont = some n from ht.entry.1, ht.entry.2.1, hblocked]

/-- What is released after that: what was, and what was collaterally blocked on the port. -/
theorem Taken.released_taken (ht : Taken o port coroutine rest n c) (hi : Inv o) {e : Port × Coroutine}
    (he : e ∈ rest ++ moved o port) {m : Nat} (hcont : e.2.cont = some m) :
    ∃ d, EntryOf o e m d ∧ d.since < o.releases e.1 ∧
      (d.collateral = true → m ∉ o.resumed ++ [n] ∧ Free (taken o port coroutine rest n) e.1) ∧
      (d.collateral = false → e ∈ alistDelete port o.blocked ∨
        (m ∈ o.resumed ++ [n] ∧ Free (taken o port coroutine rest n) e.1)) := by
  rcases List.mem_append.mp he with he | he
  · obtain ⟨d, hem, hs, hcol, hdir⟩ := hi.released e (ht.mem_rest he) m hcont
    refine ⟨d, hem, hs, fun hd => ⟨fun h => ?_, ht.free_taken (.inl (hcol hd).2)⟩, fun hd => ?_⟩
    · rcases List.mem_append.mp h with h | h
      · exact (hcol hd).1 h
      · cases List.mem_singleton.mp h
        have hdc := Option.some.inj (hem.2.1.symm.trans ht.entry.2.1)
        have hport : e.1 = port := by
          rw [← hem.2.2, hdc]
          exact ht.entry.2.2
        have hnot := single_rest hi ht.released ht.entry (hdc ▸ hd) he hport
        rw [isCollateral_of_entry hem, hd] at hnot
        cases hnot
    · rcases hdir hd with h | ⟨h, hf⟩
      · by_cases hport : e.1 = port
        · obtain ⟨rfl, -⟩ := ht.blocked hi h hport hem
          exact .inr ⟨List.mem_append_right _ (List.mem_singleton.mpr rfl), ht.free_taken (.inr hport)⟩
        · exact .inl (mem_alistDelete.mpr ⟨h, hport⟩)
      · exact .inr ⟨List.mem_append_left _ h, ht.free_taken (.inl hf)⟩
  · obtain ⟨he, hport⟩ := mem_moved.mp he
    obtain ⟨m', d, hem, -⟩ := hi.collateral e he
    have hmm : m' = m := Option.some.inj (hem.1.symm.trans hcont)
    subst hmm
    obtain ⟨hlt, hsince, hd, hno⟩ := ht.waits hi he hport hem
    refine ⟨d, hem, ?_, fun _ => ⟨fun h => ?_, ht.free_taken (.inr hport)⟩, fun h => ?_⟩
    · rw [hsince, hport]
      exact ht.since
    · rcases List.mem_append.mp h with h | h
      · exact hno h
      · have := List.mem_singleton.mp h
        omega
    · rw [hd] at h
      cases h

/-- Each continuation is still somewhere. -/
theorem Taken.all_taken (ht : Taken o port coroutine rest n c) (hi : Inv o) {m : Nat} {d : Continuation Port}
    (hm : o.conts[m]? = some d) :
    m ∈ o.resumed ++ [n] ∨ (∃ e ∈ alistDelete port o.blocked, EntryOf o e m d) ∨
      (∃ e ∈ alistDelete port o.collateral, EntryOf o e m d) ∨
      (d.collateral = true ∧ ∃ e ∈ rest ++ moved o port, EntryOf o e m d) := by
  have hlast : n ∈ o.resumed ++ [n] := List.mem_append_right _ (List.mem_singleton.mpr rfl)
  rcases hi.all m d hm with h | ⟨e, he, hem⟩ | ⟨e, he, hem⟩ | ⟨hd, e, he, hem⟩
  · exact .inl (List.mem_append_left _ h)
  · by_cases hport : e.1 = port
    · obtain ⟨rfl, -⟩ := ht.blocked hi he hport hem
      exact .inl hlast
    · exact .inr (.inl ⟨e, mem_alistDelete.mpr ⟨he, hport⟩, hem⟩)
  · by_cases hport : e.1 = port
    · exact .inr (.inr (.inr ⟨(ht.waits hi he hport hem).2.2.1, e,
        List.mem_append_right _ (mem_moved.mpr ⟨he, hport⟩), hem⟩))
    · exact .inr (.inr (.inl ⟨e, mem_alistDelete.mpr ⟨he, hport⟩, hem⟩))
  · rw [ht.released] at he
    rcases List.mem_cons.mp he with rfl | he
    · have hmn := Option.some.inj (hem.1.symm.trans ht.entry.1)
      subst hmn
      exact .inl hlast
    · exact .inr (.inr (.inr ⟨hd, e, List.mem_append_left _ he, hem⟩))

theorem Taken.inv (ht : Taken o port coroutine rest n c) (hi : Inv o) (hm : meets o .loop = true) :
    Inv (taken o port coroutine rest n) := by
  constructor
  case ports => exact hi.ports.sublist (List.filter_sublist.map _)
  case blocked =>
    intro e he
    obtain ⟨he, hport⟩ := mem_alistDelete.mp he
    obtain ⟨m, d, hem, hd, hno, hs⟩ := hi.blocked e he
    refine ⟨m, d, hem, hd, ht.other hem hport hno, fun h => ?_⟩
    have hin := hs h
    rw [ht.released] at hin
    rcases List.mem_cons.mp hin with rfl | hin
    · exact absurd rfl hport
    · exact List.mem_append_left _ hin
  case collateral =>
    intro e he
    obtain ⟨he, hport⟩ := mem_alistDelete.mp he
    obtain ⟨m, d, hem, hd, hno, b, hb, k, f, hbk, hbport, hrest⟩ := hi.collateral e he
    refine ⟨m, d, hem, hd, ht.other hem hport hno, b, ?_, k, f, hbk, hbport, hrest⟩
    exact mem_alistDelete.mpr ⟨hb, hbport ▸ hport⟩
  case idle =>
    intro e he hcont
    rcases List.mem_append.mp he with he | he
    · exact ht.free_taken (.inl (hi.idle e (ht.mem_rest he) hcont))
    · obtain ⟨m, d, hem, -⟩ := hi.collateral e (mem_moved.mp he).1
      exact absurd (hem.1.symm.trans hcont) (Option.some_ne_none m)
  case released => exact fun e he m hcont => ht.released_taken hi he hcont
  case single => exact ht.single hi hm
  case all => exact fun m d h => ht.all_taken hi h
  case once =>
    intro m d hmd hd
    change (o.resumed ++ [n]).count m ≤ 1
    rw [List.count_append, List.count_singleton]
    split
    · rename_i h
      have hmn : n = m := eq_of_beq h
      subst hmn
      have hdc := Option.some.inj (hmd.symm.trans ht.entry.2.1)
      subst hdc
      -- a coroutine that was collaterally blocked is taken only once
      have hno : n ∉ o.resumed := by
        rcases ht.cases with h | h | h
        · rw [h.1] at hd
          cases hd
        · rw [h.1] at hd
          cases hd
        · exact h.2.1
      have hnone := List.count_eq_zero.mpr hno
      omega
    · exact hi.once m d hmd hd
  case order =>
    intro m k d f hlt hm hk hport i hget
    change (o.resumed ++ [n])[i]? = some k at hget
    change m ∈ (o.resumed ++ [n]).take i
    have hlen := (List.getElem?_eq_some_iff.mp hget).1
    rw [List.length_append, List.length_singleton] at hlen
    rw [List.take_append_of_le_length (by omega)]
    rcases Nat.lt_or_ge i o.resumed.length with hi' | hi'
    · rw [List.getElem?_append_left hi'] at hget
      exact hi.order m k d f hlt hm hk hport i hget
    · -- the coroutine that is taken now: those that blocked before it have been resumed
      have hi'' : i = o.resumed.length := by omega
      subst hi''
      rw [List.getElem?_append_right (Nat.le_refl _), Nat.sub_self] at hget
      have hkn : n = k := Option.some.inj hget
      subst hkn
      have hfc := Option.some.inj (hk.symm.trans ht.entry.2.1)
      subst hfc
      rw [List.take_length]
      exact ht.before hi hlt hm (hport.trans ht.entry.2.2)
  case since =>
    intro m h
    rcases List.mem_append.mp h with h | h
    · exact hi.since m h
    · cases List.mem_singleton.mp h
      refine ⟨c, ht.entry.2.1, ?_⟩
      rw [ht.entry.2.2]
      exact ht.since
  case bound => exact hi.bound

end Taken

theorem loop_inv {port : Port} {coroutine : Coroutine} {rest : List (Port × Coroutine)} (hi : Inv o)
    (hm : meets o .loop = true) (hr : o.released = (port, coroutine) :: rest) :
    Inv (resume (takeReleased o port rest) coroutine) := by
  cases hn : coroutine.cont with
  | none => exact loop_idle_inv hi hm hr hn
  | some n =>
    obtain ⟨c, hentry, hs, hcases⟩ := taken_cases hi hr hn
    have ht : Taken o port coroutine rest n c := ⟨hr, hentry, hs, hcases⟩
    rw [ht.resume_eq hm]
    exact ht.inv hi hm

/-! ### Runs -/

/-- What an operation preserves. -/
theorem step_inv {op : Op Port} (hi : Inv o) (hm : meets o op = true) (h : step o op = some o') : Inv o' := by
  -- Whether a coroutine is running is no part of the invariant.
  have hrunning : ∀ running, Inv { o with running := running } := fun _ =>
    ⟨hi.ports, hi.blocked, hi.collateral, hi.idle, hi.released, hi.single, hi.all, hi.once, hi.order, hi.since, hi.bound⟩
  unfold step at h
  split at h
  · cases h
    exact hrunning _
  · split at h
    · cases h
    · rename_i hr
      cases h
      exact loop_inv hi hm hr
  · cases h
    exact hrunning _
  · cases h
    exact block_inv hi hm
  · exact collateralBlock_inv hi h
  · cases h
    exact release_inv hi
  · cases h

/-- What a run preserves. -/
theorem runMeets_inv {ops : List (Op Port)} (hi : Inv o) (h : runMeets o ops = some o') : Inv o' := by
  apply Loop.guarded_inv (fun _ => rfl) (fun _ _ _ => rfl) ?_ hi h
  exact fun _ _ _ => step_inv

/-- Each coroutine that was collaterally blocked is resumed once, after its port has been released; on a port the
coroutines are resumed in the order in which they blocked. -/
structure InOrder (o : Pump Port) : Prop where
  once : ∀ (n : Nat) (c : Continuation Port), o.conts[n]? = some c → c.collateral = true → o.resumed.count n ≤ 1
  after : ∀ (n : Nat) (c : Continuation Port), o.conts[n]? = some c → n ∈ o.resumed → c.since < o.releases c.port
  /-- The loop has taken all the released ports. -/
  done : o.released = [] → ∀ (n : Nat) (c : Continuation Port), o.conts[n]? = some c → c.collateral = true →
    c.since < o.releases c.port → o.resumed.count n = 1
  order : ∀ (m n : Nat) (c d : Continuation Port), m < n → o.conts[m]? = some c → o.conts[n]? = some d →
    c.port = d.port → ∀ i, o.resumed[i]? = some n → m ∈ o.resumed.take i

theorem Inv.inOrder (hi : Inv o) : InOrder o := by
  constructor
  case once => exact hi.once
  case after =>
    intro n c hc hn
    obtain ⟨d, hd, hs⟩ := hi.since n hn
    rw [Option.some.inj (hc.symm.trans hd)]
    exact hs
  case done =>
    intro hempty n c hc hcol hs
    have hnone : ∀ e : Port × Coroutine, e ∉ o.released := by
      intro e he
      rw [hempty] at he
      cases he
    have hn : n ∈ o.resumed := by
      rcases hi.all n c hc with h | ⟨e, he, hen⟩ | ⟨e, he, hen⟩ | ⟨-, e, he, -⟩
      · exact h
      · obtain ⟨m, d, hem, hd, -⟩ := hi.blocked e he
        have hmn := Option.some.inj (hem.1.symm.trans hen.1)
        subst hmn
        rw [Option.some.inj (hc.symm.trans hem.2.1), hd] at hcol
        cases hcol
      · obtain ⟨m, d, hem, -, -, b, hb, k, f, hbk, hbport, hsince, -⟩ := hi.collateral e he
        have hmn := Option.some.inj (hem.1.symm.trans hen.1)
        subst hmn
        have hdc := Option.some.inj (hem.2.1.symm.trans hc)
        subst hdc
        obtain ⟨k', f', hbk', -, -, hin⟩ := hi.blocked b hb
        have hkk := Option.some.inj (hbk'.1.symm.trans hbk.1)
        subst hkk
        have hff := Option.some.inj (hbk'.2.1.symm.trans hbk.2.1)
        subst hff
        apply absurd (hin _) (hnone b)
        rw [hsince, hbport, ← hen.2.2]
        exact hs
      · exact absurd he (hnone e)
    have := hi.once n c hc hcol
    have := List.count_pos_iff.mpr hn
    omega
  case order => exact hi.order

/-- A coroutine blocks on a port, `clients` others enter its component, and the port is released. -/
def blockedClients (clients : Nat) : List (Op Nat) :=
  [.event 1, .block 0] ++ (List.replicate clients [.event 1, .collateralBlock (some 1)]).flatten ++
    [.event 1, .release 0, .finish]

end Dezyne.SchemePump
