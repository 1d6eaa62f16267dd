import Dezyne.Alpha
/-!
# Compounds that are left out

`normalize:compounds` makes declarative compounds of the compounds above the
imperative statements, and leaves out the compounds that have one element or
none. Wrapping keeps them, and puts a compound around an imperative statement
that has a declarative parent.
-/

namespace Dezyne.Compounds

open Alpha (Body body_elements)

/-! ## `normalize:compounds` -/

/-- What the parent of a statement is. -/
inductive Parent where
  | behavior
  | function
  | declarative
  | compound
deriving DecidableEq

/-- `(is? <imperative>)`, which no compound is -/
def isImperative : Stmt → Bool
  | .illegal | .skip | .variableDecl _ _ _ | .assign _ _ | .action _ _ _ | .call _ _ | .ifThen _ _ | .ifElse _ _ _
  | .reply _ _ | .returnStmt _ | .defer _ _ | .outBindings _ _ => true
  | _ => false

/-- An element that stays in an imperative compound. -/
def stays : Stmt → Bool
  | .skip | .compound [] => false
  | _ => true

/-- A compound of the elements, or the only element. -/
def unwrap (wrap : Bool) (compound : List Stmt → Stmt) : List Stmt → Stmt
  | [s] => if wrap then compound [s] else s
  | ss => compound ss

/-- `normalize-compound` of a statement -/
def normalizeCompound (wrap : Bool) (parent : Parent) : Stmt → Stmt
  | .compound ss =>
    if parent = .behavior then .declarativeCompound (elements wrap .compound ss)
    else if parent ≠ .function ∧ (Stmt.compound ss).declarative then
      unwrap wrap .declarativeCompound (elements wrap .compound ss)
    else
      match (elements wrap .compound ss).filter stays with
      | [] => .skip
      | rest => unwrap wrap .compound rest
  | .declarativeCompound ss => .declarativeCompound (elements wrap .declarative ss)
  | .guard e s => .guard e (normalizeCompound wrap .declarative s)
  | .on ts s => .on ts (normalizeCompound wrap .declarative s)
  | .blocking s => .blocking (normalizeCompound wrap .declarative s)
  | s => if wrap ∧ parent = .declarative ∧ isImperative s then .compound [s] else s
where
  elements (wrap : Bool) (parent : Parent) : List Stmt → List Stmt
  | [] => []
  | s :: ss => normalizeCompound wrap parent s :: elements wrap parent ss

/-- A `<function>`; an `<expression-function>` has no statement. -/
def normalizeFunction (wrap : Bool) (f : Function) : Function :=
  match f.expression with
  | none => { f with statement := normalizeCompound wrap .function f.statement }
  | some _ => f

def normalizeBehavior (wrap : Bool) (b : Behavior) : Behavior :=
  { b with
    functions := b.functions.map (normalizeFunction wrap)
    statement := normalizeCompound wrap .behavior b.statement }

def normalizeTop (wrap : Bool) : Tick.Top → Tick.Top
  | .model m => .model { m with behavior := normalizeBehavior wrap m.behavior }
  | .function scope f => .function scope (normalizeFunction wrap f)

/-- A call and an action are imperative. -/
def imperativeExpression : Expr → Bool
  | .call _ _ | .action _ _ _ => true
  | _ => false

/-- The expressions of guards and invariants, which have a declarative parent. -/
def predicates : Stmt → List Expr
  | .compound ss | .declarativeCompound ss => elements ss
  | .guard e s => e :: predicates s
  | .on _ s | .blocking s => predicates s
  | .invariant e => [e]
  | _ => []
where
  elements : List Stmt → List Expr
  | [] => []
  | s :: ss => predicates s ++ elements ss

def topPredicates : Tick.Top → List Expr
  | .model m => predicates m.behavior.statement
  | .function _ _ => []

/-- `normalize:compounds`. When a compound gets the place of the expression of a guard or an invariant, the result is no
program. -/
def normalizeCompounds (wrap : Bool) (r : Tick.Root) : Option Tick.Root :=
  if wrap ∧ ∃ t ∈ r, ∃ e ∈ topPredicates t, imperativeExpression e then none else some (r.map (normalizeTop wrap))

/-! ## What a behavior does -/

/-- The statements that an imperative statement executes, in order. -/
def flat : Stmt → List Stmt
  | .compound ss => elements ss
  | .skip => []
  | s => [s]
where
  elements : List Stmt → List Stmt
  | [] => []
  | s :: ss => flat s ++ elements ss

/-- What stands above an imperative statement. An `otherwise` has the guards of the compound around it. -/
inductive Node (Level : Type) where
  | guard (expression : Expr)
  | otherwise (level : Level)
  | on (triggers : List Trigger)
  | blocking

def Node.ofGuard {Level : Type} (level : Level) : Expr → Node Level
  | .otherwise => .otherwise level
  | e => .guard e

def Node.map {Level Level' : Type} (f : Level → Level') : Node Level → Node Level'
  | .guard e => .guard e
  | .otherwise level => .otherwise (f level)
  | .on ts => .on ts
  | .blocking => .blocking

/-- The guards that `otherwise` complements. -/
def guardOf : Stmt → List Expr
  | .guard e _ => if e.isOtherwise then [] else [e]
  | _ => []

/-- The level of the statement of a guard; `remove-otherwise` starts again below an `otherwise`. -/
def below {Level : Type} (start : Level) : Expr → Level → Level
  | .otherwise, _ => start
  | _, level => level

/-- The imperative statements, each with what is above it. -/
def ons (level : List Expr) (path : List (Node (List Expr))) : Stmt → List (List (Node (List Expr)) × List Stmt)
  | .compound ss =>
    if (Stmt.compound ss).declarative then elements (ss.flatMap guardOf) path ss
    else [(path, flat (.compound ss))]
  | .declarativeCompound ss => elements (ss.flatMap guardOf) path ss
  | .guard e s => ons (below [] e level) (path ++ [.ofGuard level e]) s
  | .on ts s => ons level (path ++ [.on ts]) s
  | .blocking s => ons level (path ++ [.blocking]) s
  | s => [(path, flat s)]
where
  elements (level : List Expr) (path : List (Node (List Expr))) : List Stmt → List (List (Node (List Expr)) × List Stmt)
  | [] => []
  | s :: ss => ons level path s ++ elements level path ss

/-- The imperative statements of a behavior. -/
def bodyOns : Stmt → List (List (Node (List Expr)) × List Stmt)
  | .compound ss | .declarativeCompound ss => ons.elements (ss.flatMap guardOf) [] ss
  | s => ons [] [] s

/-- Does a guard hold, if it is one? -/
def Node.holds (ρ : Valuation) : Node (List Expr) → Bool
  | .guard e => e.truth ρ
  | .otherwise level => !level.any (·.truth ρ)
  | _ => true

def Node.triggers? {Level : Type} : Node Level → Option (List Trigger)
  | .on ts => some ts
  | _ => none

def Node.isBlocking {Level : Type} : Node Level → Bool
  | .blocking => true
  | _ => false

/-- Whether an imperative statement is enabled, for which triggers, whether it blocks, and what it executes. -/
def meaning (ρ : Valuation) (p : List (Node (List Expr)) × List Stmt) :
    Bool × List (List Trigger) × Bool × List Stmt :=
  (p.1.all (·.holds ρ), p.1.filterMap Node.triggers?, p.1.any Node.isBlocking, p.2)

/-- A statement of a behavior as the parser makes it; declarative and imperative statements are not mixed. -/
def Tree : Stmt → Prop
  | .compound ss => if (Stmt.compound ss).declarative then elements ss else Body (.compound ss)
  | .guard _ s | .on _ s | .blocking s => Tree s
  | .invariant _ | .declarativeIllegal => True
  | s => Body s
where
  elements : List Stmt → Prop
  | [] => True
  | s :: ss => s.declarative ∧ Tree s ∧ elements ss

/-! ## Levels -/

/-- The guards of an element when the compounds of one element are left out. -/
def wideGuards (wrap : Bool) : Stmt → List Expr
  | .compound ss => if wrap then [] else only ss
  | s => guardOf s
where
  only : List Stmt → List Expr
  | [s] => wideGuards wrap s
  | _ => []

/-- The guards in a compound, and those at the level that its elements get. -/
def levels (wrap : Bool) (level : List Expr × List Expr) (ss : List Stmt) : List Expr × List Expr :=
  (ss.flatMap guardOf, if wrap = false ∧ ss.length = 1 then level.2 else ss.flatMap (wideGuards wrap))

/-- The imperative statements, each with what is above it, where an `otherwise` has both levels. -/
def bothOns (wrap : Bool) (level : List Expr × List Expr) (path : List (Node (List Expr × List Expr))) :
    Stmt → List (List (Node (List Expr × List Expr)) × List Stmt)
  | .compound ss =>
    if (Stmt.compound ss).declarative then elements (levels wrap level ss) path ss else [(path, flat (.compound ss))]
  | .declarativeCompound ss => elements (ss.flatMap guardOf, ss.flatMap (wideGuards wrap)) path ss
  | .guard e s => bothOns wrap (below ([], []) e level) (path ++ [.ofGuard level e]) s
  | .on ts s => bothOns wrap level (path ++ [.on ts]) s
  | .blocking s => bothOns wrap level (path ++ [.blocking]) s
  | s => [(path, flat s)]
where
  elements (level : List Expr × List Expr) (path : List (Node (List Expr × List Expr))) :
      List Stmt → List (List (Node (List Expr × List Expr)) × List Stmt)
  | [] => []
  | s :: ss => bothOns wrap level path s ++ elements level path ss

def bothBody (wrap : Bool) : Stmt → List (List (Node (List Expr × List Expr)) × List Stmt)
  | .compound ss => bothOns.elements wrap (ss.flatMap guardOf, ss.flatMap (wideGuards wrap)) [] ss
  | s => bothOns wrap ([], []) [] s

/-- Above every imperative statement the guards hold with each `otherwise` at the one level just when they hold with
each at the other. -/
def SameLevels (wrap : Bool) (s : Stmt) : Prop :=
  ∀ ρ, ∀ p ∈ bothBody wrap s,
    (p.1.map (Node.map Prod.fst)).all (·.holds ρ) = (p.1.map (Node.map Prod.snd)).all (·.holds ρ)

section
variable {wrap : Bool} {p : Parent} {s t : Stmt} {ss ts : List Stmt} {level : List Expr × List Expr}
  {path : List (Node (List Expr × List Expr))}

/-! ## Imperative statements -/

theorem elements_eq_map (wrap : Bool) (p : Parent) (ss : List Stmt) :
    normalizeCompound.elements wrap p ss = ss.map (normalizeCompound wrap p) := by
  induction ss with
  | nil => rfl
  | cons s ss ih => rw [normalizeCompound.elements, ih, List.map_cons]

theorem flat_elements (ss : List Stmt) : flat.elements ss = ss.flatMap flat := by
  induction ss with
  | nil => rfl
  | cons s ss ih => rw [flat.elements, ih, List.flatMap_cons]

theorem tree_elements : Tree.elements ss ↔ ∀ s ∈ ss, s.declarative ∧ Tree s := by
  induction ss with
  | nil => simp [Tree.elements]
  | cons s ss ih => rw [Tree.elements, ih, List.forall_mem_cons, and_assoc]

theorem not_declarative (h : Body s) : s.declarative = false := by
  induction s with
  | compound ss ih =>
    cases ss with
    | nil => rfl
    | cons s ss => exact ih s (by simp) h.1
  | declarativeCompound | guard | on | blocking | invariant | declarativeIllegal => cases h
  | _ => rfl

theorem flat_not_stays (h : stays s = false) : flat s = [] := by
  unfold stays at h
  split at h
  · rfl
  · rfl
  · cases h

theorem flatMap_flat_stays (ss : List Stmt) : (ss.filter stays).flatMap flat = ss.flatMap flat := by
  induction ss with
  | nil => rfl
  | cons s ss ih =>
    cases h : stays s with
    | true => rw [List.filter_cons_of_pos h, List.flatMap_cons, List.flatMap_cons, ih]
    | false => rw [List.filter_cons_of_neg (by simp [h]), List.flatMap_cons, flat_not_stays h, ih, List.nil_append]

theorem flat_unwrap (wrap : Bool) (ss : List Stmt) : flat (unwrap wrap .compound ss) = ss.flatMap flat := by
  unfold unwrap
  split
  · split <;> simp [flat, flat.elements]
  · rw [flat, flat_elements]

theorem body_unwrap (h : ∀ s ∈ ss, Body s) : Body (unwrap wrap .compound ss) := by
  unfold unwrap
  split
  · split
    · exact body_elements.2 h
    · exact h _ (by simp)
  · exact body_elements.2 h

/-- An imperative statement stays one. -/
theorem body_normalize (h : Body s) (hp : p ≠ .behavior) : Body (normalizeCompound wrap p s) := by
  induction s generalizing p with
  | compound ss ih =>
    have hss := body_elements.1 h
    rw [normalizeCompound, if_neg hp, if_neg (by simp [not_declarative h]), elements_eq_map]
    split
    · trivial
    · apply body_unwrap
      intro t ht
      obtain ⟨s, hs, rfl⟩ := List.mem_map.1 (List.mem_filter.1 ht).1
      exact ih s hs (hss s hs) (by simp)
  | declarativeCompound | guard | on | blocking | invariant | declarativeIllegal => cases h
  | _ =>
    unfold normalizeCompound
    split
    · exact ⟨h, trivial⟩
    · exact h

/-- An imperative statement executes the same statements. -/
theorem flat_normalize (h : Body s) (hp : p ≠ .behavior) : flat (normalizeCompound wrap p s) = flat s := by
  induction s generalizing p with
  | compound ss ih =>
    have hss := body_elements.1 h
    have hflat : (ss.map (normalizeCompound wrap .compound)).flatMap flat = ss.flatMap flat := by
      rw [List.flatMap_map]
      exact List.flatMap_congr fun s hs => ih s hs (hss s hs) (by simp)
    rw [normalizeCompound, if_neg hp, if_neg (by simp [not_declarative h]), elements_eq_map, flat, flat_elements,
      ← hflat, ← flatMap_flat_stays]
    split
    · next hnil => rw [hnil]; rfl
    · exact flat_unwrap wrap _
  | declarativeCompound | guard | on | blocking | invariant | declarativeIllegal => cases h
  | _ =>
    unfold normalizeCompound
    split <;> simp [flat, flat.elements]

/-! ## Declarative statements -/

theorem ons_elements (level : List Expr) (path : List (Node (List Expr))) (ss : List Stmt) :
    ons.elements level path ss = ss.flatMap (ons level path) := by
  induction ss with
  | nil => rfl
  | cons s ss ih => rw [ons.elements, ih, List.flatMap_cons]

theorem bothOns_elements (wrap : Bool) (level : List Expr × List Expr) (path : List (Node (List Expr × List Expr)))
    (ss : List Stmt) : bothOns.elements wrap level path ss = ss.flatMap (bothOns wrap level path) := by
  induction ss with
  | nil => rfl
  | cons s ss ih => rw [bothOns.elements, ih, List.flatMap_cons]

theorem ons_body (level : List Expr) (path : List (Node (List Expr))) (h : Body s) :
    ons level path s = [(path, flat s)] := by
  have hnot := not_declarative h
  cases s with
  | compound ss => rw [ons, if_neg (by simp [hnot])]
  | declarativeCompound | guard | on | blocking => cases h
  | _ => rfl

theorem bothOns_body (h : Body s) : bothOns wrap level path s = [(path, flat s)] := by
  have hnot := not_declarative h
  cases s with
  | compound ss => rw [bothOns, if_neg (by simp [hnot])]
  | declarativeCompound | guard | on | blocking => cases h
  | _ => rfl

theorem map_below {Level Level' : Type} (f : Level → Level') (start level : Level) (e : Expr) :
    f (below start e level) = below (f start) e (f level) := by
  cases e <;> rfl

theorem map_ofGuard {Level Level' : Type} (f : Level → Level') (level : Level) (e : Expr) :
    (Node.ofGuard level e).map f = Node.ofGuard (f level) e := by
  cases e <;> rfl

/-- The first of the two levels is that of the compound around. -/
theorem ons_eq_map (h : Tree s) : ons level.1 (path.map (Node.map Prod.fst)) s =
    (bothOns wrap level path s).map (Prod.map (List.map (Node.map Prod.fst)) id) := by
  induction s generalizing level path with
  | compound ss ih =>
    cases hd : (Stmt.compound ss).declarative with
    | true =>
      rw [Tree, if_pos hd] at h
      rw [ons, if_pos hd, bothOns, if_pos hd, ons_elements, bothOns_elements, List.map_flatMap]
      exact List.flatMap_congr fun s hs => @ih s hs (levels wrap level ss) path (tree_elements.1 h s hs).2
    | false =>
      rw [Tree, if_neg (by simp [hd])] at h
      rw [ons_body _ _ h, bothOns_body h]
      rfl
  | guard e s ih =>
    have hih := @ih (below ([], []) e level) (path ++ [.ofGuard level e]) h
    rw [List.map_append, List.map_singleton, map_ofGuard, map_below Prod.fst] at hih
    exact hih
  | on us s ih =>
    have hih := @ih level (path ++ [.on us]) h
    rw [List.map_append] at hih
    exact hih
  | blocking s ih =>
    have hih := @ih level (path ++ [.blocking]) h
    rw [List.map_append] at hih
    exact hih
  | declarativeCompound => cases h
  | _ => rfl

/-- The guards that an element has when compounds are left out. -/
theorem guardOf_normalize (h : s.declarative) (ht : Tree s) :
    guardOf (normalizeCompound wrap .compound s) = wideGuards wrap s := by
  induction s with
  | compound ss ih =>
    rw [Tree, if_pos h] at ht
    rw [normalizeCompound, if_neg (by simp), if_pos ⟨by simp, h⟩, elements_eq_map, wideGuards]
    cases ss with
    | nil => cases h
    | cons s rest =>
      cases rest with
      | nil =>
        have hs := tree_elements.1 ht s (by simp)
        cases wrap with
        | true => rfl
        | false => exact ih s (by simp) hs.1 hs.2
      | cons s' rest =>
        have hnone : wideGuards.only wrap (s :: s' :: rest) = [] := rfl
        rw [hnone, ite_self]
        rfl
  | guard | on | blocking => rfl
  | declarativeCompound => cases ht
  | invariant | declarativeIllegal => simp [normalizeCompound, isImperative, wideGuards]
  | _ => cases h

theorem flatMap_guardOf (h : ∀ s ∈ ss, s.declarative ∧ Tree s) :
    (ss.map (normalizeCompound wrap .compound)).flatMap guardOf = ss.flatMap (wideGuards wrap) := by
  rw [List.flatMap_map]
  exact List.flatMap_congr fun s hs => guardOf_normalize (h s hs).1 (h s hs).2

/-- The second is that of the compound around that stays. -/
theorem ons_normalize (h : Tree s) (hp : p ≠ .behavior) (hf : p ≠ .function) :
    ons level.2 (path.map (Node.map Prod.snd)) (normalizeCompound wrap p s) =
      (bothOns wrap level path s).map (Prod.map (List.map (Node.map Prod.snd)) id) := by
  induction s generalizing p level path with
  | compound ss ih =>
    cases hd : (Stmt.compound ss).declarative with
    | true =>
      rw [Tree, if_pos hd] at h
      have hss := tree_elements.1 h
      rw [normalizeCompound, if_neg hp, if_pos ⟨hf, hd⟩, elements_eq_map, bothOns, if_pos hd, bothOns_elements,
        List.map_flatMap]
      have helements : ∀ level : List Expr × List Expr, (ss.map (normalizeCompound wrap .compound)).flatMap
          (ons level.2 (path.map (Node.map Prod.snd))) =
            ss.flatMap fun s => (bothOns wrap level path s).map (Prod.map (List.map (Node.map Prod.snd)) id) := by
        intro level
        rw [List.flatMap_map]
        exact List.flatMap_congr fun s hs => ih s hs (hss s hs).2 (by simp) (by simp)
      rw [← helements]
      have hkept : ons level.2 (path.map (Node.map Prod.snd))
          (.declarativeCompound (ss.map (normalizeCompound wrap .compound))) =
            (ss.map (normalizeCompound wrap .compound)).flatMap
              (ons (ss.flatMap (wideGuards wrap)) (path.map (Node.map Prod.snd))) := by
        rw [ons, ons_elements, flatMap_guardOf hss]
      by_cases hone : wrap = false ∧ ss.length = 1
      · obtain ⟨rfl, hlength⟩ := hone
        obtain ⟨s, rfl⟩ := List.length_eq_one_iff.1 hlength
        rw [levels, if_pos ⟨rfl, rfl⟩]
        simp [unwrap]
      · rw [levels, if_neg hone, ← hkept]
        congr 1
        match ss, hone with
        | [], _ => rfl
        | [s], hone => simp [unwrap, Bool.eq_true_of_not_eq_false fun hwrap => hone ⟨hwrap, rfl⟩]
        | s :: s' :: rest, _ => rfl
    | false =>
      rw [Tree, if_neg (by simp [hd])] at h
      rw [ons_body _ _ (body_normalize h hp), flat_normalize h hp, bothOns_body h]
      rfl
  | guard e s ih =>
    have hih := @ih .declarative (below ([], []) e level) (path ++ [.ofGuard level e]) h (by simp) (by simp)
    rw [List.map_append, List.map_singleton, map_ofGuard, map_below Prod.snd] at hih
    exact hih
  | on us s ih =>
    have hih := @ih .declarative level (path ++ [.on us]) h (by simp) (by simp)
    rw [List.map_append] at hih
    exact hih
  | blocking s ih =>
    have hih := @ih .declarative level (path ++ [.blocking]) h (by simp) (by simp)
    rw [List.map_append] at hih
    exact hih
  | declarativeCompound => cases h
  | invariant | declarativeIllegal => simp [normalizeCompound, isImperative, ons, bothOns, flat]
  | _ =>
    rw [ons_body _ _ (body_normalize h hp), flat_normalize h hp, bothOns_body h]
    rfl

/-! ## Behaviors -/

/-- The statement of a behavior as the parser makes it. -/
def DeclarativeBody : Stmt → Prop
  | .compound ss => ∀ s ∈ ss, s.declarative ∧ Tree s
  | _ => False

theorem bodyOns_eq_map (h : DeclarativeBody s) :
    bodyOns s = (bothBody wrap s).map (Prod.map (List.map (Node.map Prod.fst)) id) := by
  cases s with
  | compound ss =>
    rw [bodyOns, bothBody, ons_elements, bothOns_elements, List.map_flatMap]
    exact List.flatMap_congr fun s hs => @ons_eq_map wrap s (_, _) [] (h s hs).2
  | _ => cases h

theorem bodyOns_normalize (h : DeclarativeBody s) : bodyOns (normalizeCompound wrap .behavior s) =
    (bothBody wrap s).map (Prod.map (List.map (Node.map Prod.snd)) id) := by
  cases s with
  | compound ss =>
    rw [normalizeCompound, if_pos rfl, elements_eq_map, bodyOns, ons_elements, flatMap_guardOf h, List.flatMap_map,
      bothBody, bothOns_elements, List.map_flatMap]
    exact List.flatMap_congr fun s hs =>
      @ons_normalize wrap .compound s (ss.flatMap guardOf, ss.flatMap (wideGuards wrap)) [] (h s hs).2 (by simp)
        (by simp)
  | _ => cases h

/-- The ons are enabled under the same guards just when the levels have the same guards. -/
theorem meaning_iff (h : DeclarativeBody s) : (∀ ρ, (bodyOns (normalizeCompound wrap .behavior s)).map (meaning ρ) =
    (bodyOns s).map (meaning ρ)) ↔ SameLevels wrap s := by
  refine forall_congr' fun ρ => ?_
  rw [bodyOns_normalize h, @bodyOns_eq_map wrap _ h, List.map_map, List.map_map, List.map_inj_left]
  refine forall₂_congr fun p _ => ?_
  have htriggers : ∀ f : List Expr × List Expr → List Expr,
      (p.1.map (Node.map f)).filterMap Node.triggers? = p.1.filterMap Node.triggers? := by
    intro f
    rw [List.filterMap_map]
    congr 1
    funext node
    cases node <;> rfl
  have hblocking : ∀ f : List Expr × List Expr → List Expr,
      (p.1.map (Node.map f)).any Node.isBlocking = p.1.any Node.isBlocking := by
    intro f
    rw [List.any_map]
    congr 1
    funext node
    cases node <;> rfl
  simp only [Function.comp_apply, meaning, Prod.map_fst, Prod.map_snd, htriggers, hblocking, id_eq, Prod.mk.injEq,
    and_true]
  exact eq_comm

theorem wideGuards_true (s : Stmt) : wideGuards true s = guardOf s := by
  cases s <;> rfl

theorem map_snoc {node : Node (List Expr × List Expr)}
    (hpath : path.map (Node.map Prod.fst) = path.map (Node.map Prod.snd))
    (hnode : node.map Prod.fst = node.map Prod.snd) :
    (path ++ [node]).map (Node.map Prod.fst) = (path ++ [node]).map (Node.map Prod.snd) := by
  rw [List.map_append, List.map_append, hpath, List.map_singleton, List.map_singleton, hnode]

/-- With compounds kept there is one level. -/
theorem map_bothOns_true (hlevel : level.1 = level.2)
    (hpath : path.map (Node.map Prod.fst) = path.map (Node.map Prod.snd)) :
    ∀ p ∈ bothOns true level path s, p.1.map (Node.map Prod.fst) = p.1.map (Node.map Prod.snd) := by
  have hlevels : ∀ ss : List Stmt, ss.flatMap guardOf = ss.flatMap (wideGuards true) := fun ss =>
    List.flatMap_congr fun s _ => (wideGuards_true s).symm
  induction s generalizing level path with
  | compound ss ih =>
    rw [bothOns]
    split
    · rw [bothOns_elements]
      intro p hp
      obtain ⟨s, hs, hp⟩ := List.mem_flatMap.1 hp
      refine ih s hs ?_ hpath p hp
      rw [levels, if_neg (by simp)]
      exact hlevels ss
    · simpa using hpath
  | declarativeCompound ss ih =>
    rw [bothOns, bothOns_elements]
    intro p hp
    obtain ⟨s, hs, hp⟩ := List.mem_flatMap.1 hp
    exact ih s hs (hlevels ss) hpath p hp
  | guard e s ih =>
    refine ih ?_ (map_snoc hpath ?_)
    · rw [map_below Prod.fst, map_below Prod.snd, hlevel]
    · rw [map_ofGuard, map_ofGuard, hlevel]
  | on us s ih => exact ih hlevel (map_snoc hpath rfl)
  | blocking s ih => exact ih hlevel (map_snoc hpath rfl)
  | _ => simpa [bothOns] using hpath

theorem sameLevels_true (s : Stmt) : SameLevels true s := by
  intro ρ p hp
  have hsame : p.1.map (Node.map Prod.fst) = p.1.map (Node.map Prod.snd) := by
    cases s with
    | compound ss =>
      rw [bothBody, bothOns_elements] at hp
      obtain ⟨s, -, hp⟩ := List.mem_flatMap.1 hp
      exact map_bothOns_true (List.flatMap_congr fun s _ => (wideGuards_true s).symm) rfl p hp
    | _ => exact map_bothOns_true rfl rfl p hp
  rw [hsame]

end

end Dezyne.Compounds
