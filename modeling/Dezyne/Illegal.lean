import Dezyne.State
import Mathlib.Data.List.Pairwise
/-!
# Implicit illegals

`implicit-illegals->explicit-illegals` adds to the ons of every in-trigger of
the model an illegal whose guard is the complement of theirs, and
`normalize:state+illegals` runs it after giving each handler its void reply and
its end. Whatever the ons are, the illegal is enabled exactly when none of them
is; that these are the ons of the behavior is what can fail, as for
`normalize:state`.
-/

namespace Dezyne

/-! ## The passes -/

/-- `ast:illegal?` -/
def Stmt.isIllegal : Stmt → Bool
  | .declarativeIllegal => true
  | .illegal => true
  | .compound ss => single ss
  | _ => false
where
  single : List Stmt → Bool
  | [s] => s.isIllegal
  | _ => false

/-- `ast:add-statement` and `ast:add-statement*` -/
def Stmt.addStatement (s statement : Stmt) : Stmt :=
  match s with
  | .compound ss => .compound (ss ++ [statement])
  | .skip => .compound [statement]
  | s => .compound [s, statement]

/-- The ports of the replies in a statement. -/
def Stmt.replies : Stmt → List (Option String)
  | .compound ss => elements ss
  | .declarativeCompound ss => elements ss
  | .guard _ s => s.replies
  | .on _ s => s.replies
  | .blocking s => s.replies
  | .ifThen _ s => s.replies
  | .ifElse _ s t => s.replies ++ t.replies
  | .defer _ s => s.replies
  | .reply p _ => [p]
  | _ => []
where
  elements : List Stmt → List (Option String)
  | [] => []
  | s :: ss => s.replies ++ elements ss

/-- `illegal->declarative-illegal`, of the statement of a canonical on. -/
def Stmt.toDeclarativeIllegal (m : Model) (t : Trigger) (s : Stmt) : Stmt :=
  if s.isIllegal && (m.isInterface || m.provides t) then .declarativeIllegal else s

/-- `add-void-reply`, of the statement of a canonical on. -/
def Stmt.addVoidReply (m : Model) (t : Trigger) (blocking : Bool) (s : Stmt) : Stmt :=
  let reply := !m.typed t && !blocking &&
    ((m.isInterface && !t.modeling) ||
      (m.provides t && s.replies.all fun p => p.isSome && p != t.port))
  if reply then s.addStatement (.reply none (.literal .void)) else s

/-- `add-the-end`, of the statement of a canonical on. -/
def Stmt.addTheEnd (s : Stmt) : Stmt :=
  if s.isIllegal then s else s.addStatement .theEnd

namespace CanonicalOn

def illegalToDeclarativeIllegal (m : Model) (o : CanonicalOn) : CanonicalOn :=
  { o with statement := o.statement.toDeclarativeIllegal m o.trigger }

def addVoidReply (m : Model) (o : CanonicalOn) : CanonicalOn :=
  { o with statement := o.statement.addVoidReply m o.trigger o.blocking }

def addTheEnd (o : CanonicalOn) : CanonicalOn :=
  { o with statement := o.statement.addTheEnd }

end CanonicalOn

/-- `make-declarative-illegal/illegal` -/
def makeDeclarativeIllegalIllegal (m : Model) (t : Trigger) : Stmt :=
  if m.isInterface || m.provides t then .declarativeIllegal else .illegal

/-- `implicit-illegal->explicit-illegal` -/
def implicitIllegalToExplicitIllegal (makeIllegal : Trigger → Stmt) (ons : List CanonicalOn) (t : Trigger) :
    List CanonicalOn :=
  let ons := ons.filter (·.trigger.equal t)
  let guard := (andNotGuards (ons.map (·.guard))).simplifyToplevelExpression
  if guard.literalFalse then ons else ons ++ [⟨false, guard, t, makeIllegal t⟩]

/-- `implicit-illegals->explicit-illegals` -/
def implicitIllegalsToExplicitIllegals (m : Model) (makeIllegal : Trigger → Stmt) (ons : List CanonicalOn) :
    List CanonicalOn :=
  m.triggers.flatMap (implicitIllegalToExplicitIllegal makeIllegal ons) ++
    ons.filter (·.trigger.modeling)

/-- The canonical ons of `normalize:state+illegals` before their guards are simplified. -/
def stateIllegalsOns (m : Model) (b : Behavior) : List CanonicalOn :=
  implicitIllegalsToExplicitIllegals m (makeDeclarativeIllegalIllegal m)
    ((((b.statement.removeInvariant.canonicalOns m).map (CanonicalOn.illegalToDeclarativeIllegal m)).map
      (CanonicalOn.addVoidReply m)).map CanonicalOn.addTheEnd)

def normalizeStateIllegals (m : Model) (b : Behavior) : Behavior :=
  { b with
    statement := .declarativeCompound
      ((((stateIllegalsOns m b).map CanonicalOn.simplifyGuard).map CanonicalOn.groupExpressions).map
        CanonicalOn.toGuard)
    functions := b.functions.map Function.groupExpressions
    invariant := some (makeBehaviorInvariant b) }

/-! ## The complement -/

section
variable {Γ : Context} {m : Model} {ρ : Valuation} {t : Trigger} {ons : List CanonicalOn}

theorem enabled_flatMap {α : Type} (l : List α) (f : α → List CanonicalOn) :
    CanonicalOn.enabled ρ t (l.flatMap f) = l.flatMap fun a => CanonicalOn.enabled ρ t (f a) := by
  induction l with
  | nil => rfl
  | cons a l ih => rw [List.flatMap_cons, CanonicalOn.enabled_append, ih, List.flatMap_cons]

theorem enabled_eq_nil : CanonicalOn.enabled ρ t ons = [] ↔
    ∀ o ∈ ons, t.equal o.trigger → o.guard.truth ρ = false := by
  simp [CanonicalOn.enabled, List.filter_eq_nil_iff]

theorem enabled_filter : CanonicalOn.enabled ρ t (ons.filter (·.trigger.equal t)) =
    CanonicalOn.enabled ρ t ons := by
  rw [CanonicalOn.enabled, CanonicalOn.enabled, List.filter_filter]
  apply List.filter_congr
  intro o _
  rw [Trigger.equal_comm o.trigger t]
  cases t.equal o.trigger <;> simp

/-- The guard of the illegal holds when no on of the trigger is enabled. -/
theorem truth_complement (hρ : ρ.Typed Γ) (h : ∀ o ∈ ons, o.guard.Proper Γ (fun _ => True) .bool) :
    ((andNotGuards ((ons.filter (·.trigger.equal t)).map (·.guard))).simplifyToplevelExpression).truth ρ =
      (CanonicalOn.enabled ρ t ons).isEmpty := by
  have hp : ∀ g ∈ (ons.filter (·.trigger.equal t)).map (·.guard), g.Proper Γ (fun _ => True) .bool := by
    intro g hg
    obtain ⟨o, ho, rfl⟩ := List.mem_map.1 hg
    exact h o (List.mem_filter.1 ho).1
  rw [Expr.truth, (Expr.simplifyToplevel_keeps hρ (proper_andNotGuards hp)).2]
  show (andNotGuards _).truth ρ = _
  rw [truth_andNotGuards, Bool.eq_iff_iff, List.isEmpty_iff, enabled_eq_nil]
  simp [Trigger.equal_comm t, or_iff_not_imp_left]

/-- The illegal where nothing else is enabled; a modeling event has none. -/
def orIllegal {α : Type} (a : α) (modeling : Bool) (l : List α) : List α :=
  if l.isEmpty && !modeling then [a] else l

theorem map_orIllegal {α β : Type} (F : α → β) (a : α) (modeling : Bool) (l : List α) :
    (orIllegal a modeling l).map F = orIllegal (F a) modeling (l.map F) := by
  cases l <;> cases modeling <;> simp [orIllegal]

/-- The illegal that is added for a trigger. -/
def illegalOn (makeIllegal : Trigger → Stmt) (ons : List CanonicalOn) (t : Trigger) : CanonicalOn :=
  ⟨false, (andNotGuards ((ons.filter (·.trigger.equal t)).map (·.guard))).simplifyToplevelExpression, t,
    makeIllegal t⟩

/-- What is enabled for a trigger once its illegal is explicit. -/
theorem enabled_implicitIllegal (hρ : ρ.Typed Γ) (h : ∀ o ∈ ons, o.guard.Proper Γ (fun _ => True) .bool)
    (makeIllegal : Trigger → Stmt) :
    CanonicalOn.enabled ρ t (implicitIllegalToExplicitIllegal makeIllegal ons t) =
      orIllegal (illegalOn makeIllegal ons t) false (CanonicalOn.enabled ρ t ons) := by
  have ht := truth_complement (t := t) hρ h
  unfold implicitIllegalToExplicitIllegal orIllegal
  dsimp only
  split
  · rename_i hf
    -- the guard is the literal `false`: some on is enabled
    rw [Expr.literalFalse_iff.1 hf, Expr.truth_false] at ht
    rw [enabled_filter, ← ht]
    rfl
  · have hone : CanonicalOn.enabled ρ t [illegalOn makeIllegal ons t] =
        if (CanonicalOn.enabled ρ t ons).isEmpty then [illegalOn makeIllegal ons t] else [] := by
      rw [← ht]
      simp [CanonicalOn.enabled, illegalOn, Trigger.equal_refl, List.filter_cons]
    rw [CanonicalOn.enabled_append, enabled_filter, ← illegalOn, hone]
    cases CanonicalOn.enabled ρ t ons <;> simp

theorem mem_implicitIllegal {makeIllegal : Trigger → Stmt} {u : Trigger} {o : CanonicalOn}
    (h : o ∈ implicitIllegalToExplicitIllegal makeIllegal ons u) :
    o.trigger.equal u ∧ (o ∈ ons ∨ o = illegalOn makeIllegal ons u) := by
  unfold implicitIllegalToExplicitIllegal at h
  dsimp only at h
  split at h
  · obtain ⟨ho, ht⟩ := List.mem_filter.1 h
    exact ⟨ht, .inl ho⟩
  · rcases List.mem_append.1 h with h | h
    · obtain ⟨ho, ht⟩ := List.mem_filter.1 h
      exact ⟨ht, .inl ho⟩
    · obtain rfl := List.mem_singleton.1 h
      exact ⟨Trigger.equal_refl u, .inr rfl⟩

/-- Of a list without repetitions only one element contributes. -/
theorem flatMap_single {α β : Type} {l : List α} {a : α} {f : α → List β} (hl : l.Nodup) (ha : a ∈ l)
    (h : ∀ b ∈ l, b ≠ a → f b = []) : l.flatMap f = f a := by
  induction l with
  | nil => cases ha
  | cons c l ih =>
    rw [List.nodup_cons] at hl
    rw [List.flatMap_cons]
    by_cases hc : c = a
    · subst hc
      have hrest : l.flatMap f = [] := List.flatMap_eq_nil_iff.2 fun b hb =>
        h b (by simp [hb]) (fun e => hl.1 (e ▸ hb))
      rw [hrest, List.append_nil]
    · rw [h c (by simp) hc, List.nil_append]
      apply ih hl.2 _ fun b hb => h b (by simp [hb])
      exact (List.mem_cons.1 ha).resolve_left fun e => hc e.symm

theorem Model.WellFormed.nodup (hm : m.WellFormed) : m.triggers.Nodup :=
  hm.distinct.imp fun {t u} h e => by rw [e, Trigger.equal_refl] at h; cases h

theorem Model.WellFormed.eq_of_equal (hm : m.WellFormed) {u : Trigger} (ht : t ∈ m.triggers)
    (hu : u ∈ m.triggers) (h : t.equal u) : t = u := by
  have : Std.Symm fun t u : Trigger => t.equal u = false := ⟨fun t u h => by rwa [Trigger.equal_comm]⟩
  by_contra hne
  rw [hm.distinct.forall ht hu hne] at h
  cases h

/-- The ons of another trigger are not those of `t`. -/
theorem filter_implicitIllegal {makeIllegal : Trigger → Stmt} {u : Trigger} (h : t.equal u = false) :
    (implicitIllegalToExplicitIllegal makeIllegal ons u).filter (t.equal ·.trigger) = [] := by
  rw [List.filter_eq_nil_iff]
  intro o ho hto
  rw [Trigger.equal_trans hto (mem_implicitIllegal ho).1] at h
  cases h

/-- The ons of a modeling event are kept. -/
theorem filter_modeling (hm : m.WellFormed) (makeIllegal : Trigger → Stmt) (ht : t.modeling) :
    (implicitIllegalsToExplicitIllegals m makeIllegal ons).filter (t.equal ·.trigger) =
      ons.filter (t.equal ·.trigger) := by
  have htriggers : (m.triggers.flatMap (implicitIllegalToExplicitIllegal makeIllegal ons)).filter
      (t.equal ·.trigger) = [] := by
    rw [List.filter_flatMap]
    refine List.flatMap_eq_nil_iff.2 fun u hu => filter_implicitIllegal ?_
    by_contra htu
    have hmod := Trigger.modeling_congr (by simpa using htu : t.equal u)
    rw [ht, hm.modeling u hu] at hmod
    cases hmod
  rw [implicitIllegalsToExplicitIllegals, List.filter_append, htriggers, List.nil_append, List.filter_filter]
  apply List.filter_congr
  intro o _
  -- an on of a modeling event is one of those that are appended
  cases hto : t.equal o.trigger with
  | false => rfl
  | true => rw [← Trigger.modeling_congr hto, ht, Bool.and_true]

/-- For every trigger of the model the ons of that trigger are kept, followed by the illegal; those
of a modeling event are kept. -/
theorem enabled_implicitIllegals (hρ : ρ.Typed Γ) (hm : m.WellFormed)
    (h : ∀ o ∈ ons, o.guard.Proper Γ (fun _ => True) .bool) (makeIllegal : Trigger → Stmt)
    (ht : t ∈ m.triggers ∨ t.modeling) :
    CanonicalOn.enabled ρ t (implicitIllegalsToExplicitIllegals m makeIllegal ons) =
      orIllegal (illegalOn makeIllegal ons t) t.modeling (CanonicalOn.enabled ρ t ons) := by
  rcases ht with ht | ht
  · have hmod : CanonicalOn.enabled ρ t (ons.filter (·.trigger.modeling)) = [] := by
      rw [enabled_eq_nil]
      intro o ho hto
      have hmod := (List.mem_filter.1 ho).2
      rw [← Trigger.modeling_congr hto, hm.modeling t ht] at hmod
      cases hmod
    rw [implicitIllegalsToExplicitIllegals, CanonicalOn.enabled_append, enabled_flatMap, hmod,
      List.append_nil, flatMap_single hm.nodup ht, enabled_implicitIllegal hρ h, hm.modeling t ht]
    intro u hu hne
    rw [CanonicalOn.enabled_eq_filter, filter_implicitIllegal, List.filter_nil]
    by_contra htu
    exact hne (hm.eq_of_equal ht hu (by simpa using htu)).symm
  · have hnone : ∀ l, orIllegal (illegalOn makeIllegal ons t) true l = l := fun l => if_neg (by simp)
    rw [ht, hnone, CanonicalOn.enabled_eq_filter, filter_modeling hm makeIllegal ht,
      ← CanonicalOn.enabled_eq_filter]

theorem implicitIllegals_proper (hρ : ρ.Typed Γ) (h : ∀ o ∈ ons, o.guard.Proper Γ (fun _ => True) .bool)
    (makeIllegal : Trigger → Stmt) :
    ∀ o ∈ implicitIllegalsToExplicitIllegals m makeIllegal ons, o.guard.Proper Γ (fun _ => True) .bool := by
  intro o ho
  rcases List.mem_append.1 ho with ho | ho
  · obtain ⟨u, -, ho⟩ := List.mem_flatMap.1 ho
    rcases (mem_implicitIllegal ho).2 with ho | rfl
    · exact h o ho
    · refine (Expr.simplifyToplevel_keeps hρ (proper_andNotGuards ?_)).1
      intro g hg
      obtain ⟨o', ho', rfl⟩ := List.mem_map.1 hg
      exact h o' (List.mem_filter.1 ho').1
  · exact h o (List.mem_filter.1 ho).1

/-! ## The whole pass -/

/-- What `normalize:state+illegals` makes of a statement that a trigger runs. -/
def finish (m : Model) (h : Handler) : Handler :=
  { h with statement :=
      ((h.statement.toDeclarativeIllegal m h.trigger).addVoidReply m h.trigger h.blocking).addTheEnd.groupExpressions }

/-- The handlers of a printed canonical on: its guard and its trigger come first. -/
def Stmt.branch (ρ : Valuation) (t : Trigger) : Stmt → List Handler
  | .guard e (.on ts (.blocking s)) =>
    if e.truth ρ then (ts.find? t.equal).toList.map fun u => ⟨u, s, true⟩ else []
  | .guard e (.on ts s) =>
    if e.truth ρ then (ts.find? t.equal).toList.map fun u => ⟨u, s, false⟩ else []
  | _ => []

def Stmt.branches (ρ : Valuation) (t : Trigger) : Stmt → List Handler
  | .declarativeCompound gs => gs.flatMap (branch ρ t)
  | _ => []

def Stmt.isBlocking : Stmt → Bool
  | .blocking _ => true
  | _ => false

theorem branch_toGuard {o : CanonicalOn} (h : o.statement.isBlocking = false) :
    o.toGuard.branch ρ t = (CanonicalOn.enabled ρ t [o]).map CanonicalOn.handler := by
  obtain ⟨b, g, u, s⟩ := o
  have hb : (CanonicalOn.toGuard ⟨b, g, u, s⟩).branch ρ t =
      if g.truth ρ then ([u].find? t.equal).toList.map fun u => ⟨u, s, b⟩ else [] := by
    cases b with
    | true => rfl
    | false => cases s <;> first | rfl | cases h
  rw [hb]
  cases hg : g.truth ρ <;> cases hu : t.equal u <;> simp [CanonicalOn.enabled, CanonicalOn.handler, hg, hu]

theorem branches_toGuard {ons : List CanonicalOn} (h : ∀ o ∈ ons, o.statement.isBlocking = false) :
    (Stmt.declarativeCompound (ons.map CanonicalOn.toGuard)).branches ρ t =
      (CanonicalOn.enabled ρ t ons).map CanonicalOn.handler := by
  induction ons with
  | nil => rfl
  | cons o ons ih =>
    have ih := ih fun o' ho => h o' (by simp [ho])
    rw [Stmt.branches] at ih ⊢
    rw [List.map_cons, List.flatMap_cons, ih, branch_toGuard (h o (by simp)), ← List.map_append,
      ← CanonicalOn.enabled_append]
    rfl

/-! ## Statements that start empty -/

theorem startsEmpty_not_illegal {s : Stmt} (h : s.startsEmpty) : s.isIllegal = false := by
  induction s with
  | compound ss ih =>
    match ss with
    | [] => rfl
    | [s] => exact ih s (by simp) h
    | _ :: _ :: _ => rfl
  | _ => cases h

def Stmt.isEmpty : Stmt → Bool
  | .compound [] => true
  | _ => false

theorem addStatement_startsEmpty {x : Stmt} (hx : x.startsEmpty = false) (s : Stmt) :
    (s.addStatement x).startsEmpty = (s.startsEmpty && !s.isEmpty) := by
  cases s with
  | compound ss => cases ss <;> simp [Stmt.addStatement, Stmt.startsEmpty, Stmt.startsEmpty.elements,
      Stmt.isEmpty, hx]
  | _ => simp [Stmt.addStatement, Stmt.startsEmpty, Stmt.startsEmpty.elements, hx]

theorem addStatement_isEmpty (s x : Stmt) : (s.addStatement x).isEmpty = false := by
  cases s with
  | compound ss => cases ss <;> rfl
  | _ => rfl

/-- It starts with an empty compound and is not itself empty. -/
def Stmt.startsWithEmpty (s : Stmt) : Bool := s.startsEmpty && !s.isEmpty

theorem addStatement_startsWithEmpty {x : Stmt} (hx : x.startsEmpty = false) (s : Stmt) :
    (s.addStatement x).startsWithEmpty = s.startsWithEmpty := by
  simp [Stmt.startsWithEmpty, addStatement_startsEmpty hx, addStatement_isEmpty]

theorem toDeclarativeIllegal_startsWithEmpty (s : Stmt) :
    (s.toDeclarativeIllegal m t).startsWithEmpty = s.startsWithEmpty := by
  unfold Stmt.toDeclarativeIllegal
  split
  · rename_i hi
    cases hs : s.startsEmpty with
    | true => simp [startsEmpty_not_illegal hs] at hi
    | false => simp [Stmt.startsWithEmpty, hs, Stmt.startsEmpty]
  · rfl

theorem addVoidReply_startsWithEmpty (b : Bool) (s : Stmt) :
    (s.addVoidReply m t b).startsWithEmpty = s.startsWithEmpty := by
  unfold Stmt.addVoidReply
  dsimp only
  split
  · exact addStatement_startsWithEmpty rfl s
  · rfl

theorem addTheEnd_startsEmpty (s : Stmt) : s.addTheEnd.startsEmpty = s.startsWithEmpty := by
  unfold Stmt.addTheEnd
  split
  · rename_i hi
    cases hs : s.startsEmpty with
    | true => simp [startsEmpty_not_illegal hs] at hi
    | false => simp [Stmt.startsWithEmpty, hs]
  · exact addStatement_startsEmpty rfl s

theorem finish_startsEmpty (h : Handler) :
    (finish m h).statement.startsEmpty = h.statement.startsWithEmpty := by
  rw [finish, groupExpressions_startsEmpty, addTheEnd_startsEmpty, addVoidReply_startsWithEmpty,
    toDeclarativeIllegal_startsWithEmpty]

def Stmt.isCompound : Stmt → Bool
  | .compound _ => true
  | _ => false

theorem addStatement_isCompound (s x : Stmt) : (s.addStatement x).isCompound := by
  cases s <;> rfl

/-- A statement that starts empty does not become an illegal. -/
theorem finish_isCompound {h : Handler} (hs : h.statement.startsEmpty) :
    (finish m h).statement.isCompound := by
  have h1 : h.statement.toDeclarativeIllegal m h.trigger = h.statement := by
    simp [Stmt.toDeclarativeIllegal, startsEmpty_not_illegal hs]
  have h2 : (h.statement.addVoidReply m h.trigger h.blocking).isCompound := by
    unfold Stmt.addVoidReply
    dsimp only
    split
    · exact addStatement_isCompound _ _
    · cases hh : h.statement <;> simp_all [Stmt.startsEmpty, Stmt.isCompound]
  have h3 : (h.statement.addVoidReply m h.trigger h.blocking).addTheEnd.isCompound := by
    unfold Stmt.addTheEnd
    split
    exacts [h2, addStatement_isCompound _ _]
  rw [finish, h1]
  revert h3
  cases (h.statement.addVoidReply m h.trigger h.blocking).addTheEnd <;> exact id

theorem makeIllegal_isCompound (t : Trigger) :
    (makeDeclarativeIllegalIllegal m t).isCompound = false := by
  unfold makeDeclarativeIllegalIllegal
  split <;> rfl

/-! ## The theorem -/

/-- The canonical ons with their replies and ends. -/
def completedOns (m : Model) (b : Behavior) : List CanonicalOn :=
  (((b.statement.removeInvariant.canonicalOns m).map (CanonicalOn.illegalToDeclarativeIllegal m)).map
    (CanonicalOn.addVoidReply m)).map CanonicalOn.addTheEnd

theorem completedOns_enabled (b : Behavior) :
    ((CanonicalOn.enabled ρ t (completedOns m b)).map CanonicalOn.handler).map Handler.groupExpressions =
      (collected m ρ t (b.statement.removeInvariant.imperatives [] false)).map (finish m) := by
  have hmap : completedOns m b = (b.statement.removeInvariant.canonicalOns m).map fun o =>
      ((o.illegalToDeclarativeIllegal m).addVoidReply m).addTheEnd := by
    rw [completedOns, List.map_map, List.map_map]
    rfl
  rw [hmap, enabled_map, collected, List.map_map, List.map_map, List.map_map]
  · rfl
  · exact fun o _ => ⟨rfl, rfl⟩

theorem completedOns_proper {b : Behavior} (hw : b.statement.WellFormed Γ false) :
    ∀ o ∈ completedOns m b, o.guard.Proper Γ (fun _ => True) .bool := by
  intro o ho
  simp only [completedOns, List.map_map, List.mem_map] at ho
  obtain ⟨o', ho', rfl⟩ := ho
  exact removed_proper hw o' ho'

theorem addTheEnd_not_blocking (s : Stmt) : s.addTheEnd.isBlocking = false := by
  cases s <;> first | rfl | (unfold Stmt.addTheEnd; split <;> rfl)

/-- The statement of every canonical on is an illegal or ends in the end. -/
theorem stateIllegalsOns_not_blocking (b : Behavior) :
    ∀ o ∈ stateIllegalsOns m b, o.statement.isBlocking = false := by
  have completed : ∀ o ∈ completedOns m b, o.statement.isBlocking = false := by
    intro o ho
    obtain ⟨o', -, rfl⟩ := List.mem_map.1 ho
    exact addTheEnd_not_blocking _
  intro o ho
  rcases List.mem_append.1 ho with ho | ho
  · obtain ⟨u, -, ho⟩ := List.mem_flatMap.1 ho
    rcases (mem_implicitIllegal ho).2 with ho | rfl
    · exact completed o ho
    · rw [illegalOn, makeDeclarativeIllegalIllegal]
      split <;> rfl
  · exact completed o (List.mem_filter.1 ho).1

/-- What the pass enables, in terms of the collected statements. -/
theorem stateIllegals_enabled (hρ : ρ.Typed Γ) (hm : m.WellFormed) {b : Behavior}
    (hw : b.statement.WellFormed Γ false) (ht : t ∈ m.triggers ∨ t.modeling) :
    (normalizeStateIllegals m b).statement.branches ρ t =
      orIllegal ⟨t, makeDeclarativeIllegalIllegal m t, false⟩ t.modeling
        ((collected m ρ t (b.statement.removeInvariant.imperatives [] false)).map (finish m)) := by
  have hproper := completedOns_proper (m := m) hw
  have hill : (makeDeclarativeIllegalIllegal m t).groupExpressions = makeDeclarativeIllegalIllegal m t := by
    unfold makeDeclarativeIllegalIllegal
    split <;> rfl
  rw [normalizeStateIllegals, branches_toGuard, enabled_simplifyGroup hρ]
  · rw [stateIllegalsOns, ← completedOns, enabled_implicitIllegals hρ hm hproper _ ht, map_orIllegal,
      map_orIllegal, completedOns_enabled]
    show orIllegal (Handler.mk t (makeDeclarativeIllegalIllegal m t).groupExpressions false) _ _ = _
    rw [hill]
  · exact implicitIllegals_proper hρ hproper _
  · intro o ho
    simp only [List.map_map, List.mem_map] at ho
    obtain ⟨o', ho', rfl⟩ := ho
    have := stateIllegalsOns_not_blocking b o' ho'
    show o'.statement.groupExpressions.isBlocking = false
    revert this
    cases o'.statement <;> exact id

/-- The enabled statements of a behavior, finished, or the illegal if there are none. -/
def enabledOrIllegal (m : Model) (ρ : Valuation) (t : Trigger) (b : Behavior) : List Handler :=
  orIllegal ⟨t, makeDeclarativeIllegalIllegal m t, false⟩ t.modeling
    (((b.statement.enabled ρ t none false).map (mark m)).map (finish m))

/-- Told apart from the illegal and from what an empty compound becomes. -/
def Distinct (m : Model) (h : Handler) : Prop :=
  h.statement.startsEmpty = false ∧ (finish m h).statement ≠ makeDeclarativeIllegalIllegal m h.trigger ∧
    ∀ mk, finish m h ≠ finish m ⟨h.trigger, .compound [], mk⟩

/-- A statement that starts empty does not become what a distinct one becomes. -/
theorem Distinct.finish_ne {h h' : Handler} (hd : Distinct m h) (hs : h'.statement.startsEmpty) :
    finish m h' ≠ finish m h := by
  intro he
  obtain ⟨h1, -, h3⟩ := hd
  have hsw := congrArg (fun x => x.statement.startsEmpty) he
  simp only [finish_startsEmpty, Stmt.startsWithEmpty, hs, h1, Bool.true_and, Bool.false_and] at hsw
  have htr : h'.trigger = h.trigger := congrArg (fun x => x.trigger) he
  obtain ⟨u, s, mk⟩ := h'
  change u = h.trigger at htr
  have hempty : s = .compound [] := by
    cases s with
    | compound ss => cases ss <;> simp_all [Stmt.isEmpty]
    | _ => cases hs
  subst hempty htr
  exact h3 mk he.symm

/-- What becomes the same, illegal or not, agrees where the condition holds. -/
theorem agree_of_orIllegal {V O : List Handler} {K : Prop} (ha : Agree Handler.StartsEmpty V O K)
    (hd : ∀ h ∈ O, Distinct m h)
    (he : orIllegal ⟨t, makeDeclarativeIllegalIllegal m t, false⟩ t.modeling (V.map (finish m)) =
      orIllegal ⟨t, makeDeclarativeIllegalIllegal m t, false⟩ t.modeling (O.map (finish m))) : K := by
  cases V with
  | nil =>
    cases O with
    | nil => exact (ha.2.resolve_left (by simp)).2 rfl
    | cons o os =>
      cases hmod : t.modeling with
      | true => simp [orIllegal, hmod] at he
      | false =>
        simp only [orIllegal, hmod, List.map_nil, List.isEmpty_nil, Bool.not_false, Bool.and_true, if_true,
          List.map_cons, List.isEmpty_cons, Bool.false_eq_true, if_false, List.cons.injEq] at he
        have htr : t = o.trigger := congrArg Handler.trigger he.1
        have hst := congrArg Handler.statement he.1
        exact absurd hst.symm (htr ▸ (hd o (by simp)).2.1)
  | cons v vs =>
    have hV : orIllegal ⟨t, makeDeclarativeIllegalIllegal m t, false⟩ t.modeling ((v :: vs).map (finish m)) =
        (v :: vs).map (finish m) := if_neg (by simp)
    rw [hV] at he
    rcases ha.2 with ⟨h, hh, hs⟩ | hl
    · have hmem : finish m h ∈ _ := he ▸ List.mem_map_of_mem hh
      unfold orIllegal at hmem
      split at hmem
      · have hc := finish_isCompound (m := m) hs
        rw [List.mem_singleton.1 hmem, makeIllegal_isCompound] at hc
        cases hc
      · obtain ⟨o, ho, hoh⟩ := List.mem_map.1 hmem
        exact absurd hoh.symm ((hd o ho).finish_ne hs)
    · cases O with
      | nil => simp at hl
      | cons o os =>
        have hmap : (v :: vs).map (finish m) = (o :: os).map (finish m) := he.trans (if_neg (by simp))
        exact hl.2 (by simpa using congrArg List.length hmap)

/-- With explicit illegals a trigger has what the behavior enables for it, or the illegal if that is
nothing, provided that removing the invariants neither adds nor loses a statement; and only then,
unless an enabled statement is an illegal or runs like an empty compound. A trigger of the model is
never without an enabled on. -/
theorem normalizeStateIllegals_enabled_iff (Γ : Context) (m : Model) (ρ : Valuation) (t : Trigger)
    (b : Behavior) (hρ : ρ.Typed Γ) (hm : m.WellFormed) (hw : b.statement.WellFormed Γ false)
    (ht : t ∈ m.triggers ∨ t.modeling) :
    ((∀ h ∈ b.statement.enabled ρ t none false, h.statement.plain) ∧
      b.statement.Kept ρ t none false false →
      (normalizeStateIllegals m b).statement.branches ρ t = enabledOrIllegal m ρ t b) ∧
    ((∀ h ∈ b.statement.enabled ρ t none false, h.statement.plain ∧ Distinct m (mark m h)) →
      (normalizeStateIllegals m b).statement.branches ρ t = enabledOrIllegal m ρ t b →
      b.statement.Kept ρ t none false false) ∧
    (t ∈ m.triggers → (normalizeStateIllegals m b).statement.branches ρ t ≠ []) := by
  have hf : Frame.Fits false [] := ⟨rfl, by rintro _ ⟨⟩⟩
  have ha := agree_collected (m := m) (d := false) hw hf (rfl : Frame.opens ρ t [] = true)
  rw [enabledOrIllegal]
  refine ⟨fun ⟨hp, hK⟩ => ?_, fun hs he => ?_, fun htm => ?_⟩
  · rw [stateIllegals_enabled hρ hm hw ht, (ha hp).1 hK]
    rfl
  · rw [stateIllegals_enabled hρ hm hw ht] at he
    refine agree_of_orIllegal (ha fun h hh => (hs h hh).1) ?_ he
    intro h' hh'
    obtain ⟨h, hh, rfl⟩ := List.mem_map.1 hh'
    exact (hs h hh).2
  · rw [stateIllegals_enabled hρ hm hw ht, hm.modeling t htm]
    cases collected m ρ t (b.statement.removeInvariant.imperatives [] false) <;> simp [orIllegal]

end

/-! ## The condition can fail -/

/-- An interface with the in-events `e` and `f`. -/
def twoEvents : Model :=
  .interface [⟨"e", true, false, []⟩, ⟨"f", true, false, []⟩]

theorem twoEvents_wellFormed : twoEvents.WellFormed where
  distinct := by decide
  modeling := by decide

/-- Where `[true] on e, f: {}` is, `f` runs the statement and is not illegal. -/
theorem normalizeStateIllegals_undrained :
    (normalizeStateIllegals twoEvents undrainedBehavior).statement.branches clashValuation ⟨none, "f", []⟩ =
      [⟨⟨none, "f", []⟩, .compound [.reply none (.literal .void), .theEnd], false⟩] := by
  have h := (normalizeStateIllegals_enabled_iff (clashContext "p" "x") twoEvents clashValuation
    ⟨none, "f", []⟩ undrainedBehavior (clashValuation_typed "p" "x") twoEvents_wellFormed
    (by simp [undrainedBehavior, Stmt.WellFormed, Stmt.WellFormed.elements, Stmt.declarative,
      Stmt.declarative.head, Trigger.equal, Expr.proper_true]) (.inl (by decide))).1
  exact h ⟨by decide,
    by simp [undrainedBehavior, Stmt.Kept, Stmt.Kept.elements, Stmt.declares,
      Stmt.declares.elements, Stmt.vanishes, Stmt.declarative]⟩

/-- Of `{ { invariant true; } on e: {} }` the on is lost, and its trigger becomes illegal. -/
theorem normalizeStateIllegals_drained :
    ¬ ∀ (Γ : Context) (m : Model) (ρ : Valuation) (t : Trigger) (b : Behavior), ρ.Typed Γ →
      m.WellFormed → b.statement.WellFormed Γ false →
      (∀ h ∈ b.statement.enabled ρ t none false, h.statement.plain) → t ∈ m.triggers →
      (normalizeStateIllegals m b).statement.branches ρ t = enabledOrIllegal m ρ t b := by
  intro h
  have he := h (clashContext "p" "x") twoEvents clashValuation ⟨none, "e", []⟩ drainedBehavior
    (clashValuation_typed "p" "x") twoEvents_wellFormed
    (by simp [drainedBehavior, Stmt.WellFormed, Stmt.WellFormed.elements, Stmt.declarative,
      Stmt.declarative.head])
    (by decide) (by decide)
  have hl := congrArg (List.map fun h => h.statement.isIllegal) he
  exact absurd hl (by decide)

end Dezyne
