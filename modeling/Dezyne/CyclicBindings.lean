import Dezyne.Lib.Lasso
import Dezyne.Systems
/-!
# Cycles of bindings

For every instance the instances behind its requires ports are listed, and every
path through these lists is followed up to a repetition. An instance that is on such
a path from itself is on a cycle.
-/

namespace Dezyne.Systems

open AppendMap Relation

/-! ## `cyclic-bindings` -/

/-- `ast:requires-port*` of the type of an instance -/
def Instance.requiresPorts (i : Instance) : List Port := i.ports.filter fun p => p.requires

namespace System

/-- The end-points of the bindings of this instance at one side, that have one of its requires ports. -/
def requiredBindings (s : System) (o : Instance) (side : Binding → EndPoint) : List Binding :=
  let bindings := s.bindings.filter fun b => some o.name = (side b).instanceName
  bindings.filter fun b => (o.requiresPorts.find? fun p => some p.name = (side b).portName).isSome

/-- The instances at the other side of bindings. -/
def instancesOf (s : System) (bindings : List Binding) (side : Binding → EndPoint) : List Instance :=
  s.instances.filter fun i => (bindings.find? fun b => some i.name = (side b).instanceName).isSome

/-- `requires-instances`, after the instance itself -/
def requiresInstances (s : System) (o : Instance) : List Instance :=
  s.instancesOf (s.requiredBindings o Binding.left) Binding.right ++
    s.instancesOf (s.requiredBindings o Binding.right) Binding.left

/-- `required-alist` -/
def requiredAlist (s : System) : List (Instance × List Instance) :=
  s.instances.map fun i => (i, s.requiresInstances i)

/-- `req` of `all-required` -/
def req (requiredAlist : List (Instance × List Instance)) (i : Instance) : List Instance :=
  ((requiredAlist.find? fun e => e.1 = i).map Prod.snd).getD []

/-- `all-required`; `all-req` takes the path so far. -/
def allRequired (fuel : Nat) (o : Instance) (requiredAlist : List (Instance × List Instance)) :
    Option (List Instance) :=
  appendMap (fun r => (Lasso.lassos (req requiredAlist) fuel r []).map (r :: ·)) (req requiredAlist o)

/-- The error of `check-instance` -/
def cyclicError (i : Instance) : WfcError :=
  ⟨.instance i, "instance " ++ "`" ++ i.name ++ "' is in a cyclic binding"⟩

/-- `check-instance` -/
def checkInstance (s : System) (fuel : Nat) (i : Instance) : Option (List WfcError) :=
  (allRequired fuel i s.requiredAlist).map fun all => if i ∈ all then [cyclicError i] else []

/-- `cyclic-bindings` -/
def cyclicBindings (s : System) (fuel : Nat) : Option (List WfcError) := appendMap (s.checkInstance fuel) s.instances

/-! ## What bindings lead to -/

/-- The end-point is at a port of the instance, with this direction. -/
def At (i : Instance) (requires : Bool) (e : EndPoint) : Prop :=
  e.instanceName = some i.name ∧ ∃ p ∈ i.ports, p.requires = requires ∧ e.portName = some p.name

/-- A binding leads from a requires port of an instance to an end-point of an instance. -/
def Leads (s : System) (i j : Instance) : Prop :=
  j ∈ s.instances ∧ ∃ b ∈ s.bindings,
    (At i true b.left ∧ b.right.instanceName = some j.name) ∨ (At i true b.right ∧ b.left.instanceName = some j.name)

/-- A binding leads from a requires port of an instance to a provides port of an instance. -/
def RequiresToProvides (s : System) (i j : Instance) : Prop :=
  j ∈ s.instances ∧ ∃ b ∈ s.bindings, (At i true b.left ∧ At j false b.right) ∨ (At i true b.right ∧ At j false b.left)

/-- What `binding-declaration` and `binding-direction` make sure of before: a binding of a requires port of an
instance has a provides port where it is at another end-point of an instance. -/
def Directed (s : System) : Prop :=
  ∀ b ∈ s.bindings, ∀ i j : Instance,
    (At i true b.left → b.right.instanceName = some j.name → At j false b.right) ∧
      (At i true b.right → b.left.instanceName = some j.name → At j false b.left)

variable {s : System} {i j o : Instance} {fuel : Nat}

theorem Directed.leads_iff (h : s.Directed) : s.Leads i j ↔ s.RequiresToProvides i j := by
  refine and_congr_right fun _ => ⟨?_, ?_⟩
  · rintro ⟨b, hb, ⟨hi, hj⟩ | ⟨hi, hj⟩⟩
    · exact ⟨b, hb, .inl ⟨hi, (h b hb i j).1 hi hj⟩⟩
    · exact ⟨b, hb, .inr ⟨hi, (h b hb i j).2 hi hj⟩⟩
  · rintro ⟨b, hb, ⟨hi, hj⟩ | ⟨hi, hj⟩⟩
    · exact ⟨b, hb, .inl ⟨hi, hj.1⟩⟩
    · exact ⟨b, hb, .inr ⟨hi, hj.1⟩⟩

theorem mem_requiredBindings {side : Binding → EndPoint} {b : Binding} :
    b ∈ s.requiredBindings o side ↔ b ∈ s.bindings ∧ At o true (side b) := by
  simp only [requiredBindings, Instance.requiresPorts, At, List.mem_filter, decide_eq_true_eq, List.find?_isSome]
  constructor
  · rintro ⟨⟨hb, hname⟩, p, ⟨hp, hr⟩, hport⟩
    exact ⟨hb, hname.symm, p, hp, hr, hport.symm⟩
  · rintro ⟨hb, hname, p, hp, hr, hport⟩
    exact ⟨⟨hb, hname.symm⟩, p, ⟨hp, hr⟩, hport.symm⟩

theorem mem_instancesOf {bindings : List Binding} {side : Binding → EndPoint} :
    j ∈ s.instancesOf bindings side ↔ j ∈ s.instances ∧ ∃ b ∈ bindings, (side b).instanceName = some j.name := by
  simp only [instancesOf, List.mem_filter, List.find?_isSome, decide_eq_true_eq]
  simp only [eq_comm]

theorem mem_requiresInstances : j ∈ s.requiresInstances i ↔ s.Leads i j := by
  simp only [requiresInstances, List.mem_append, mem_instancesOf, mem_requiredBindings, Leads]
  constructor
  · rintro (⟨hj, b, ⟨hb, hi⟩, hname⟩ | ⟨hj, b, ⟨hb, hi⟩, hname⟩)
    · exact ⟨hj, b, hb, .inl ⟨hi, hname⟩⟩
    · exact ⟨hj, b, hb, .inr ⟨hi, hname⟩⟩
  · rintro ⟨hj, b, hb, ⟨hi, hname⟩ | ⟨hi, hname⟩⟩
    · exact .inl ⟨hj, b, ⟨hb, hi⟩, hname⟩
    · exact .inr ⟨hj, b, ⟨hb, hi⟩, hname⟩

/-- The list of an instance is found by the instance. -/
theorem req_requiredAlist (hi : i ∈ s.instances) : req s.requiredAlist i = s.requiresInstances i := by
  have hfind : ∀ l : List Instance, i ∈ l →
      (l.map fun i => (i, s.requiresInstances i)).find? (fun e => e.1 = i) = some (i, s.requiresInstances i) := by
    intro l hl
    induction l with
    | nil => cases hl
    | cons k l ih =>
      rw [List.map_cons, List.find?_cons]
      by_cases hk : k = i
      · simp [hk]
      · simp only [hk, decide_false]
        exact ih ((List.mem_cons.1 hl).resolve_left (Ne.symm hk))
  rw [req, requiredAlist, hfind s.instances hi]
  rfl

theorem req_subset (v : Instance) : ∀ w ∈ req s.requiredAlist v, w ∈ s.instances := by
  intro w hw
  by_cases hv : v ∈ s.instances
  · rw [req_requiredAlist hv, mem_requiresInstances] at hw
    exact hw.1
  · have hnone : (s.requiredAlist.find? fun e => e.1 = v) = none := by
      rw [List.find?_eq_none]
      intro e he
      obtain ⟨k, hk, rfl⟩ := List.mem_map.1 he
      rw [decide_eq_true_eq]
      rintro rfl
      exact hv hk
    rw [req, hnone] at hw
    cases hw

/-- A cycle of the lists is one of bindings. -/
theorem transGen_req (hi : i ∈ s.instances) :
    TransGen (Lasso.Edge (req s.requiredAlist)) i j ↔ TransGen s.Leads i j := by
  have hedge : ∀ {v w : Instance}, v ∈ s.instances → (Lasso.Edge (req s.requiredAlist) v w ↔ s.Leads v w) := by
    intro v w hv
    rw [Lasso.Edge, req_requiredAlist hv, mem_requiresInstances]
  have hboth : ∀ {r : Instance → Instance → Prop}, (∀ v w, v ∈ s.instances → r v w → s.Leads v w) →
      TransGen r i j → j ∈ s.instances ∧ TransGen s.Leads i j := by
    intro r hr h
    induction h with
    | single h => exact ⟨(hr _ _ hi h).1, .single (hr _ _ hi h)⟩
    | tail _ h ih => exact ⟨(hr _ _ ih.1 h).1, ih.2.tail (hr _ _ ih.1 h)⟩
  constructor
  · exact fun h => (hboth (fun v w hv hvw => (hedge hv).1 hvw) h).2
  · intro h
    have hall : ∀ {k : Instance}, TransGen s.Leads i k →
        k ∈ s.instances ∧ TransGen (Lasso.Edge (req s.requiredAlist)) i k := by
      intro k h
      induction h with
      | single h => exact ⟨h.1, .single ((hedge hi).2 h)⟩
      | tail _ h ih => exact ⟨h.1, ih.2.tail ((hedge ih.1).2 h)⟩
    exact (hall h).2

/-- The paths from an instance are followed in as many steps as there are instances, and one more. -/
theorem exists_allRequired (hfuel : s.instances.length < fuel) : ∃ all, allRequired fuel i s.requiredAlist = some all := by
  refine exists_appendMap.2 fun r hr => ?_
  obtain ⟨l, hl⟩ := Lasso.exists_lassos (fun v _ w => req_subset v w) (req_subset i r hr) List.nodup_nil
    (List.nil_subset _) (by simpa using hfuel)
  exact ⟨r :: l, by rw [hl]; rfl⟩

/-- Two requires ports that are bound to each other. -/
def requiresBoth : System where
  ports := []
  instances := [⟨0, "a", [⟨"r", ["I"], true, false⟩]⟩, ⟨1, "b", [⟨"r", ["I"], true, false⟩]⟩]
  bindings := [⟨⟨some "a", some "r"⟩, ⟨some "b", some "r"⟩⟩]
  nodup := by decide

end System

end Dezyne.Systems
