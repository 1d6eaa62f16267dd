import Dezyne.Event
import Dezyne.Otherwise
/-!
# `binding-into-blocking`

In the code pipeline the formal bindings of an on become statements of its
branches. After the merge an on has the trigger of the first canonical on it
came from, so every branch gets the bindings of that one.
-/

namespace Dezyne

open Grouping

/-! ## The pass -/

/-- `(is? <formal-binding>)` -/
def Formal.isBinding : Formal → Bool
  | .binding _ _ => true
  | .formal _ => false

/-- `formal-binding->formal` -/
def Formal.bindingToFormal (f : Formal) : Formal := .formal f.name

namespace Stmt

/-- `passdown-formal-bindings`; in an invariant or a compound that is only declarative there is no
statement to go into. -/
def passdownFormalBindings (port : Option String) (formalBindings : List Formal) : Stmt → Stmt
  | .compound ss =>
    if (Stmt.compound ss).declarative then .compound (elements port formalBindings ss)
    else .compound (.outBindings port formalBindings :: ss)
  | .declarativeIllegal => .declarativeIllegal
  | .guard e s => .guard e (s.passdownFormalBindings port formalBindings)
  | .on ts s => .on ts (s.passdownFormalBindings port formalBindings)
  | .blocking s => .blocking (s.passdownFormalBindings port formalBindings)
  | .invariant e => .invariant e
  | .declarativeCompound ss => .declarativeCompound ss
  | s => .compound [.outBindings port formalBindings, s]
where
  elements (port : Option String) (formalBindings : List Formal) : List Stmt → List Stmt
  | [] => []
  | s :: ss => s.passdownFormalBindings port formalBindings :: elements port formalBindings ss

/-- `binding-into-blocking`, which makes an on one of its first trigger. -/
def bindingIntoBlocking : Stmt → Stmt
  | .on (trigger :: ts) s =>
    let formalBindings := trigger.formals.filter Formal.isBinding
    if formalBindings = [] then .on (trigger :: ts) s
    else
      .on [{ trigger with formals := trigger.formals.map Formal.bindingToFormal }]
        (s.passdownFormalBindings trigger.port formalBindings)
  | .compound ss => .compound (elements ss)
  | .declarativeCompound ss => .declarativeCompound (elements ss)
  | .guard e s => .guard e s.bindingIntoBlocking
  | .blocking s => .blocking s.bindingIntoBlocking
  | .ifThen e s => .ifThen e s.bindingIntoBlocking
  | .ifElse e s t => .ifElse e s.bindingIntoBlocking t.bindingIntoBlocking
  | .defer as s => .defer as s.bindingIntoBlocking
  | s => s
where
  elements : List Stmt → List Stmt
  | [] => []
  | s :: ss => s.bindingIntoBlocking :: elements ss

end Stmt

/-- The statement of `code:normalize-`, from a behavior whose `otherwise` is removed. -/
def codeNormalize (m : Model) (b : Behavior) : Stmt :=
  (normalizeEventIllegals m b).statement.bindingIntoBlocking

/-! ## What is bound -/

/-- The positions of the bindings of formals, and the members they are bound to. -/
def positions (formals : List Formal) : List (Nat × String) :=
  formals.zipIdx.filterMap fun
    | (.binding _ m, i) => some (i, m)
    | (.formal _, _) => none

/-- The formals a trigger binds, by their position. -/
def Trigger.bindings (t : Trigger) : List (Nat × String) := positions t.formals

namespace Stmt

/-- The out-bindings a statement starts with. -/
def outBindings? : Stmt → List Formal
  | .compound (.outBindings _ fs :: _) => fs
  | _ => []

/-- What formals bind, by the position of their names. -/
def bindingsOf (names : List String) (fs : List Formal) : List (Nat × String) :=
  fs.filterMap fun
    | .binding n m => some (names.idxOf n, m)
    | .formal _ => none

/-- What each branch of an on of a trigger binds, of those that are enabled. -/
def boundOn (ρ : Valuation) (t : Trigger) : Stmt → List (List (Nat × String))
  | .on ts (.compound guards) =>
    if ts.any t.equal then
      (holding ρ guards).map fun r => bindingsOf (ts.flatMap Trigger.names) r.1.outBindings?
    else []
  | _ => []

def bound (ρ : Valuation) (t : Trigger) : Stmt → List (List (Nat × String))
  | .compound ons => ons.flatMap (boundOn ρ t)
  | _ => []

/-! ## Passing bindings down -/

section
variable (p : Option String) (fs : List Formal)

theorem passdown_elements (ss : List Stmt) :
    passdownFormalBindings.elements p fs ss = ss.map (passdownFormalBindings p fs) := by
  induction ss with
  | nil => rfl
  | cons s ss ih => rw [passdownFormalBindings.elements, ih, List.map_cons]

/-- An imperative statement starts with the bindings. -/
theorem outBindings_passdown {s : Stmt} (h : s.imperative) :
    (s.passdownFormalBindings p fs).outBindings? = fs := by
  cases s with
  | compound ss =>
    rw [passdownFormalBindings, imperative_not_declarative h]
    rfl
  | guard | on | blocking | invariant | declarativeCompound | declarativeIllegal => cases h
  | _ => rfl

theorem unblock_passdown (s : Stmt) :
    (s.passdownFormalBindings p fs).unblock = (s.unblock.1.passdownFormalBindings p fs, s.unblock.2) := by
  cases s with
  | compound ss => rw [passdownFormalBindings]; split <;> simp_all [unblock, passdownFormalBindings]
  | _ => rfl

theorem holding_passdown (ρ : Valuation) {guards : List Stmt} (h : ∀ g ∈ guards, g.isGuard) :
    holding ρ (guards.map (passdownFormalBindings p fs)) =
      (holding ρ guards).map fun r => (r.1.passdownFormalBindings p fs, r.2) := by
  have hany : ∀ gs : List Stmt, (∀ g ∈ gs, g.isGuard) →
      (gs.map (passdownFormalBindings p fs)).any (holds ρ) = gs.any (holds ρ) := by
    intro gs hgs
    induction gs with
    | nil => rfl
    | cons g gs ih =>
      rw [List.map_cons, List.any_cons, List.any_cons, ih fun g' hg => hgs g' (by simp [hg])]
      have hg := hgs g (by simp)
      cases g <;> first | rfl | cases hg
  rw [holding, holding, hany guards h]
  generalize guards.any (holds ρ) = other
  clear hany
  induction guards with
  | nil => rfl
  | cons g gs ih =>
    rw [List.map_cons, List.flatMap_cons, List.flatMap_cons, ih fun g' hg => h g' (by simp [hg]),
      List.map_append]
    congr 1
    have hg := h g (by simp)
    cases g with
    | guard e s =>
      rw [passdownFormalBindings, taken, taken, unblock_passdown]
      generalize (if e.isOtherwise then !other else e.truth ρ) = taken
      cases taken <;> rfl
    | _ => cases hg

end

end Stmt

/-! ## Formals keep their positions -/

theorem positions_map (f : String → String) (fs : List Formal) :
    positions (fs.map (Formal.rename f)) = positions fs := by
  unfold positions
  rw [List.zipIdx_map, List.filterMap_map]
  apply List.filterMap_congr
  rintro ⟨g, i⟩ -
  cases g <;> rfl

theorem positions_formals (names : List String) : positions (names.map .formal) = [] := by
  unfold positions
  rw [List.zipIdx_map, List.filterMap_map]
  exact List.filterMap_eq_nil_iff.2 fun x _ => rfl

/-- Names that differ tell the positions. -/
theorem bindingsOf_eq {fs : List Formal} (hn : (fs.map Formal.name).Nodup) :
    Stmt.bindingsOf (fs.map Formal.name) (fs.filter Formal.isBinding) = positions fs := by
  have hfilter : Stmt.bindingsOf (fs.map Formal.name) (fs.filter Formal.isBinding) =
      Stmt.bindingsOf (fs.map Formal.name) fs := by
    unfold Stmt.bindingsOf
    rw [List.filterMap_filter]
    apply List.filterMap_congr
    intro f _
    cases f <;> rfl
  have hidx : ∀ x ∈ fs.zipIdx, (fs.map Formal.name).idxOf x.1.name = x.2 := by
    rintro ⟨f, i⟩ hx
    obtain ⟨hi, hf⟩ := List.mem_zipIdx' hx
    have := hn.idxOf_getElem i (by simpa using hi)
    rwa [List.getElem_map, ← hf] at this
  have hfst : ∀ G : Formal → Option (Nat × String), fs.filterMap G = fs.zipIdx.filterMap (G ∘ Prod.fst) :=
    fun G => by rw [← List.filterMap_map, List.zipIdx_map_fst]
  rw [hfilter, Stmt.bindingsOf, positions, hfst]
  apply List.filterMap_congr
  rintro ⟨f, i⟩ hx
  cases f with
  | formal n => rfl
  | binding n m =>
    have hi : (fs.map Formal.name).idxOf n = i := hidx _ hx
    simp [hi]

/-- Two lists of names, zipped where they differ, map the first to the second. -/
theorem map_renameString {names new : List String} (hl : names.length = new.length) (hn : names.Nodup) :
    ∀ {before : List (String × String)}, (∀ n ∈ names, n ∉ before.map Prod.fst) →
      names.map (renameString (before ++ (names.zip new).filter fun p => p.1 ≠ p.2)) = new := by
  have hlookup : ∀ {l : List (String × String)} {n : String}, n ∉ l.map Prod.fst → l.lookup n = none := by
    intro l n h
    rw [List.lookup_eq_none_iff]
    intro p hp
    simp only [bne_iff_ne, ne_eq]
    rintro rfl
    exact h (List.mem_map_of_mem hp)
  induction names generalizing new with
  | nil => intro before _; exact (List.eq_nil_of_length_eq_zero hl.symm).symm
  | cons n names ih =>
    intro before hb
    cases new with
    | nil => cases hl
    | cons n' new =>
      have hlen : names.length = new.length := by simpa using hl
      rw [List.nodup_cons] at hn
      have hkeys : n ∉ ((names.zip new).filter fun p => p.1 ≠ p.2).map Prod.fst := by
        intro hm
        obtain ⟨⟨k, v⟩, hp, rfl⟩ := List.mem_map.1 hm
        exact hn.1 (List.of_mem_zip (List.mem_filter.1 hp).1).1
      rw [List.zip_cons_cons, List.map_cons]
      by_cases he : n = n'
      · -- the name stays, and is not in the list
        subst he
        have hf : ((n, n) :: names.zip new).filter (fun p => p.1 ≠ p.2) =
            (names.zip new).filter fun p => p.1 ≠ p.2 := by simp
        rw [hf, ih hlen hn.2 fun k hk => hb k (by simp [hk]), renameString, List.lookup_append,
          hlookup (hb n (by simp)), hlookup hkeys]
        rfl
      · have hf : ((n, n') :: names.zip new).filter (fun p => p.1 ≠ p.2) =
            (n, n') :: (names.zip new).filter fun p => p.1 ≠ p.2 := by simp [he]
        have happ : ∀ l : List (String × String), before ++ (n, n') :: l = (before ++ [(n, n')]) ++ l := by simp
        rw [hf]
        congr 1
        · rw [renameString, List.lookup_append, hlookup (hb n (by simp))]
          simp
        · rw [happ]
          apply ih hlen hn.2
          intro k hk hm
          rw [List.map_append, List.mem_append] at hm
          rcases hm with hm | hm
          · exact hb k (by simp [hk]) hm
          · rw [show k = n by simpa using hm] at hk
            exact hn.1 hk

/-! ## Canonical ons as the pipeline makes them -/

section
variable {m : Model} {members : List String} {ρ : Valuation} {t : Trigger} {ons : List CanonicalOn}

/-- A canonical on of a tree as the parser makes it, with `otherwise` removed. -/
structure CanonicalOn.Parsed (o : CanonicalOn) : Prop where
  guard : o.guard.otherwiseFree
  statement : o.statement.imperative
  unbound : o.statement.outBindings? = []

/-- The formals have names of their own, as many as the event has, and no local has one of them. -/
structure CanonicalOn.Named (m : Model) (o : CanonicalOn) : Prop where
  nodup : o.trigger.names.Nodup
  count : o.trigger.formals ≠ [] → o.trigger.formals.length = (m.eventFormals o.trigger).length
  unshadowed : ∀ n ∈ o.trigger.names, n ∉ o.statement.variableNames

instance (o : CanonicalOn) : Decidable o.Parsed :=
  decidable_of_iff (o.guard.otherwiseFree ∧ o.statement.imperative ∧ o.statement.outBindings? = [])
    ⟨fun ⟨hg, hs, hu⟩ => ⟨hg, hs, hu⟩, fun ⟨hg, hs, hu⟩ => ⟨hg, hs, hu⟩⟩

/-- The canonical on as it is merged. -/
def CanonicalOn.prepare (m : Model) (members : List String) (o : CanonicalOn) : CanonicalOn :=
  (o.alphaRename m members).simplifyGuard.groupExpressions

theorem eventOns_eq (m : Model) (members : List String) (ons : List CanonicalOn) :
    eventOns m members ons = ons.map (CanonicalOn.prepare m members) := by
  rw [eventOns, List.map_map, List.map_map]
  rfl

theorem renameString_nil : renameString [] = id := rfl

theorem formalRename_id (fs : List Formal) : fs.map (Formal.rename id) = fs := by
  have h : Formal.rename id = id := by
    funext f
    cases f <;> rfl
  rw [h, List.map_id]

theorem prepare_formals (o : CanonicalOn) : (o.prepare m members).trigger.formals =
    (m.withFormals o.trigger).formals.map
      (Formal.rename (renameString (alphaMapping m members o.trigger o.statement))) := by
  show (o.alphaRename m members).trigger.formals = _
  unfold CanonicalOn.alphaRename
  dsimp only
  split
  · rename_i h
    rw [h, renameString_nil, formalRename_id]
  · rfl

/-- Renaming keeps what is bound. -/
theorem prepare_bindings (o : CanonicalOn) : (o.prepare m members).trigger.bindings = o.trigger.bindings := by
  rw [Trigger.bindings, prepare_formals, positions_map, Trigger.bindings]
  unfold Model.withFormals
  split
  · rename_i h
    rw [h]
    exact positions_formals _
  · rfl

/-- The names of the formals of a merged on differ. -/
theorem prepare_names {o : CanonicalOn} (h : o.Named m) (hf : o.trigger.formals ≠ []) :
    ((o.prepare m members).trigger.formals.map Formal.name).Nodup := by
  have hwith : m.withFormals o.trigger = o.trigger := if_neg hf
  obtain ⟨new, he, hl, hn, -⟩ := Fresh.extend_eq fresh_not_mem members (m.eventFormals o.trigger)
  have htake : (refresh members (m.eventFormals o.trigger)).take (m.eventFormals o.trigger).length = new := by
    rw [refresh, he, ← hl, List.take_left]
  have hlen : o.trigger.names.length = new.length := by
    rw [hl, ← h.count hf, Trigger.names, List.length_map]
  have hnames : (o.prepare m members).trigger.formals.map Formal.name =
      o.trigger.names.map (renameString (alphaMapping m members o.trigger o.statement)) := by
    rw [prepare_formals, hwith, Trigger.names, List.map_map, List.map_map]
    apply List.map_congr_left
    intro f _
    cases f <;> rfl
  have hmap : o.trigger.names.map (renameString (alphaMapping m members o.trigger o.statement)) = new := by
    unfold alphaMapping
    dsimp only
    rw [hwith, htake]
    apply map_renameString hlen h.nodup
    intro n hn hm
    obtain ⟨p, hp, rfl⟩ := List.mem_map.1 hm
    exact h.unshadowed _ hn (List.of_mem_zip hp).1
  rw [hnames, hmap]
  exact hn

theorem outBindings_rename (f : String → String) {s : Stmt} (h : s.outBindings? = []) (scope : List String) :
    (s.rename f scope).outBindings? = [] := by
  cases s with
  | compound ss =>
    cases ss with
    | nil => rfl
    | cons s ss =>
      cases s with
      | outBindings p fs =>
        have hfs : fs = [] := h
        subst hfs
        rfl
      | _ => rfl
  | _ => rfl

theorem outBindings_group {s : Stmt} (h : s.outBindings? = []) : s.groupExpressions.outBindings? = [] := by
  cases s with
  | compound ss =>
    cases ss with
    | nil => rfl
    | cons s ss => cases s <;> exact h
  | _ => rfl

theorem simplify_otherwiseFree (e : Expr) : e.otherwiseFree → e.simplifyExpression.otherwiseFree := by
  have hnot : ∀ e : Expr, e.otherwiseFree → e.simplifyNot.otherwiseFree := by
    intro e he
    unfold Expr.simplifyNot
    split_ifs <;> first | rfl | exact he
  have hgroup : ∀ e : Expr, e.otherwiseFree → e.simplifyGroup.otherwiseFree := by
    intro e he
    unfold Expr.simplifyGroup
    split_ifs <;> exact he
  fun_induction Expr.simplifyExpression e with
  | case1 e ih => exact ih
  | case2 e e' he ih => intro h; rw [he] at ih; exact ih h
  | case3 e _ ih => exact fun h => hnot _ (hgroup _ (ih h))
  | case4 e _ _ ih => exact fun h => hnot _ (ih h)
  | case5 e ih => exact fun h => hgroup _ (ih h)
  | case6 l r ihl ihr =>
    intro h
    obtain ⟨hl, hr⟩ := Bool.and_eq_true_iff.1 h
    have hl := ihl hl
    have hr := ihr hr
    unfold Expr.simplifyAnd
    split_ifs <;> first | rfl | assumption | exact Bool.and_eq_true_iff.2 ⟨hl, hr⟩
  | case7 l r ihl ihr =>
    intro h
    obtain ⟨hl, hr⟩ := Bool.and_eq_true_iff.1 h
    have hl := ihl hl
    have hr := ihr hr
    unfold Expr.simplifyOr
    split_ifs <;> first | rfl | assumption | exact Bool.and_eq_true_iff.2 ⟨hl, hr⟩
  | case8 | case9 | case11 => exact id
  | case10 op l r _ _ _ _ ihl ihr =>
    intro h
    obtain ⟨hl, hr⟩ := Bool.and_eq_true_iff.1 h
    exact Bool.and_eq_true_iff.2 ⟨ihl hl, ihr hr⟩

theorem simplifyToplevel_otherwiseFree {e : Expr} (h : e.otherwiseFree) :
    e.simplifyToplevelExpression.otherwiseFree := by
  have hs := simplify_otherwiseFree e h
  unfold Expr.simplifyToplevelExpression
  split
  · rename_i e' he
    rw [he] at hs
    exact hs
  · exact hs

theorem prepare_imperative {o : CanonicalOn} (h : o.Parsed) :
    (o.prepare m members).statement.imperative := by
  rw [CanonicalOn.prepare, CanonicalOn.groupExpressions, CanonicalOn.simplifyGuard, groupExpressions_imperative,
    alphaRename_imperative, h.statement]

theorem prepare_mergeable {o : CanonicalOn} (h : o.Parsed) : (o.prepare m members).Mergeable := by
  constructor
  · exact imperative_not_blocking (prepare_imperative h)
  · refine groupExpressions_isOtherwise ?_ _
    apply Stmt.otherwiseFree_isOtherwise
    show (o.alphaRename m members).guard.simplifyToplevelExpression.otherwiseFree
    rw [alphaRename_guard]
    exact simplifyToplevel_otherwiseFree h.guard

theorem prepare_unbound {o : CanonicalOn} (h : o.Parsed) :
    (o.prepare m members).statement.outBindings? = [] := by
  apply outBindings_group
  show (o.alphaRename m members).statement.outBindings? = []
  unfold CanonicalOn.alphaRename
  dsimp only
  split
  exacts [h.unbound, outBindings_rename _ h.unbound _]

/-- What the formals of a canonical on bind under the names that `alpha-rename` gives them: a name that
two of them get is that of the first. -/
def CanonicalOn.renamedBindings (m : Model) (members : List String) (o : CanonicalOn) : List (Nat × String) :=
  let formals := (o.alphaRename m members).trigger.formals
  Stmt.bindingsOf (formals.map Formal.name) (formals.filter Formal.isBinding)

/-- Where the formals have names of their own, they bind what they bound. -/
theorem renamedBindings_eq (members : List String) {o : CanonicalOn} (h : o.Named m) :
    o.renamedBindings m members = o.trigger.bindings := by
  show Stmt.bindingsOf ((o.prepare m members).trigger.formals.map Formal.name)
    ((o.prepare m members).trigger.formals.filter Formal.isBinding) = _
  by_cases hf : o.trigger.formals = []
  · -- the formals are those of the event, and none is a binding
    have hplain : (o.prepare m members).trigger.formals.filter Formal.isBinding = [] := by
      rw [prepare_formals, Model.withFormals, if_pos hf, List.filter_eq_nil_iff]
      intro f hm
      simp only [List.map_map, List.mem_map] at hm
      obtain ⟨n, -, rfl⟩ := hm
      exact Bool.false_ne_true
    rw [hplain, Trigger.bindings, hf]
    rfl
  · rw [bindingsOf_eq (prepare_names h hf), ← Trigger.bindings, prepare_bindings]

/-! ## The merged ons -/

/-- The branches that `canonical-ons->on` makes of a group. -/
def mergedGuards (ons : List CanonicalOn) : List Stmt :=
  if !ons.any (·.guard.literalTrue) then ons.map CanonicalOn.toBranch ++ [.guard .otherwise .illegal]
  else ons.map CanonicalOn.toBranch

theorem mergedGuards_isGuard (ons : List CanonicalOn) : ∀ g ∈ mergedGuards ons, g.isGuard := by
  have hbranch : ∀ g ∈ ons.map CanonicalOn.toBranch, g.isGuard := by
    intro g hg
    obtain ⟨o, -, rfl⟩ := List.mem_map.1 hg
    rfl
  intro g hg
  unfold mergedGuards at hg
  split at hg
  · rcases List.mem_append.1 hg with hg | hg
    · exact hbranch g hg
    · rw [List.mem_singleton.1 hg]
      rfl
  · exact hbranch g hg

/-- What a branch that is taken runs. -/
theorem mem_holding (members : List String) (h : ∀ o ∈ ons, o.Parsed) {r : Stmt × Bool}
    (hr : r ∈ Stmt.holding ρ (mergedGuards (ons.map (CanonicalOn.prepare m members)))) :
    r.1.imperative ∧ r.1.outBindings? = [] := by
  have hmerge : ∀ o ∈ ons.map (CanonicalOn.prepare m members), o.Mergeable := by
    intro o' ho'
    obtain ⟨o, ho, rfl⟩ := List.mem_map.1 ho'
    exact prepare_mergeable (h o ho)
  have hg := holding_group (ρ := ρ) true hmerge
  rw [Bool.true_and] at hg
  rw [mergedGuards, hg] at hr
  unfold orIllegal at hr
  split at hr
  · rw [List.mem_singleton.1 hr]
    exact ⟨rfl, rfl⟩
  · obtain ⟨o', ho', rfl⟩ := List.mem_map.1 hr
    obtain ⟨o, ho, rfl⟩ := List.mem_map.1 (List.mem_filter.1 ho').1
    exact ⟨prepare_imperative (h o ho), prepare_unbound (h o ho)⟩

/-- Every branch of a merged on that is taken binds what the first canonical on does. -/
theorem boundOn_merged {o : CanonicalOn} {os : List CanonicalOn} (h : ∀ o' ∈ o :: os, o'.Parsed)
    (ht : t.equal o.trigger) :
    (canonicalOnsToOn true ((o :: os).map (CanonicalOn.prepare m members))).bindingIntoBlocking.boundOn ρ t =
      (Stmt.holding ρ (mergedGuards ((o :: os).map (CanonicalOn.prepare m members)))).map
        fun _ => o.renamedBindings m members := by
  have hguards := mergedGuards_isGuard ((o :: os).map (CanonicalOn.prepare m members))
  have hon : canonicalOnsToOn true ((o :: os).map (CanonicalOn.prepare m members)) =
      .on [(o.prepare m members).trigger]
        (.compound (mergedGuards ((o :: os).map (CanonicalOn.prepare m members)))) := rfl
  have hequal : t.equal (o.prepare m members).trigger := (equal_alphaRename m members o).trans ht
  have hmem := fun r => mem_holding (m := m) (ρ := ρ) members h (r := r)
  have hfirst : Stmt.bindingsOf ((o.prepare m members).trigger.formals.map Formal.name)
    ((o.prepare m members).trigger.formals.filter Formal.isBinding) = o.renamedBindings m members := rfl
  rw [hon, Stmt.bindingIntoBlocking]
  generalize mergedGuards ((o :: os).map (CanonicalOn.prepare m members)) = guards at hguards hmem ⊢
  generalize (o.prepare m members).trigger = trigger at hfirst hequal ⊢
  split
  · rename_i hnil
    -- nothing to bind, and the statements bind nothing themselves
    rw [Stmt.boundOn]
    simp only [List.any_cons, hequal, Bool.true_or, if_true]
    apply List.map_congr_left
    intro r hr
    rw [(hmem r hr).2, ← hfirst, hnil]
    rfl
  · have hd : (Stmt.compound guards).declarative = true ∨ guards = [] := by
      cases guards with
      | nil => exact .inr rfl
      | cons g gs =>
        have hg := hguards g (by simp)
        cases g <;> first | exact .inl rfl | cases hg
    rcases hd with hd | rfl
    · have hpos : { trigger with formals := trigger.formals.map Formal.bindingToFormal }.names =
          trigger.formals.map Formal.name := by
        rw [Trigger.names, List.map_map]
        rfl
      have hequal' : t.equal { trigger with formals := trigger.formals.map Formal.bindingToFormal } := hequal
      rw [Stmt.passdownFormalBindings, if_pos hd, Stmt.passdown_elements, Stmt.boundOn]
      simp only [List.any_cons, hequal', Bool.true_or, if_true, List.flatMap_cons, List.flatMap_nil,
        List.append_nil, hpos]
      rw [Stmt.holding_passdown _ _ ρ hguards, List.map_map]
      apply List.map_congr_left
      intro r hr
      rw [Function.comp_apply, Stmt.outBindings_passdown _ _ (hmem r hr).1, hfirst]
    · simp [Stmt.passdownFormalBindings, Stmt.declarative, Stmt.declarative.head, Stmt.boundOn, Stmt.holding,
        Stmt.taken]

/-! ## The theorem -/

/-- What the branches of the on of a trigger should bind, of those that are enabled: what the canonical
on binds that each came from, and nothing for the added illegal. -/
def branchBindings (ρ : Valuation) (t : Trigger) (ons : List CanonicalOn) : List (List (Nat × String)) :=
  orIllegal [] (ons.filter (t.equal ·.trigger)).isEmpty
    ((CanonicalOn.enabled ρ t (ons.map CanonicalOn.simplifyGuard)).map (·.trigger.bindings))

/-- An on of another trigger has nothing to bind for this one. -/
theorem boundOn_other {o : CanonicalOn} (os : List CanonicalOn) (ht : t.equal o.trigger = false) :
    (canonicalOnsToOn true (o :: os)).bindingIntoBlocking.boundOn ρ t = [] := by
  have hon : canonicalOnsToOn true (o :: os) = .on [o.trigger] (.compound (mergedGuards (o :: os))) := rfl
  rw [hon, Stmt.bindingIntoBlocking]
  split
  · simp [Stmt.boundOn, ht]
  · have ht' : t.equal { o.trigger with formals := o.trigger.formals.map Formal.bindingToFormal } = false := ht
    rw [Stmt.passdownFormalBindings]
    split <;> simp [Stmt.boundOn, ht']

theorem enabled_simplified (m : Model) (members : List String) (ons : List CanonicalOn) :
    (CanonicalOn.enabled ρ t (ons.map CanonicalOn.simplifyGuard)).length =
      (((ons.filter (t.equal ·.trigger)).map (CanonicalOn.prepare m members)).filter
        (·.guard.truth ρ)).length := by
  rw [CanonicalOn.enabled_eq_filter, List.filter_map, List.filter_map, List.filter_map, List.length_map,
    List.length_map]
  congr 1
  apply List.filter_congr
  intro o _
  show o.guard.simplifyToplevelExpression.truth ρ =
    ((o.alphaRename m members).guard.simplifyToplevelExpression.groupExpressions .other).truth ρ
  rw [Expr.groupExpressions_truth, alphaRename_guard]

theorem bindingIntoBlocking_elements (ss : List Stmt) :
    Stmt.bindingIntoBlocking.elements ss = ss.map Stmt.bindingIntoBlocking := by
  induction ss with
  | nil => rfl
  | cons s ss ih => rw [Stmt.bindingIntoBlocking.elements, ih, List.map_cons]

/-- The groups of prepared canonical ons are those of the canonical ons. -/
theorem sortCanonicalOns_eventOns (ons : List CanonicalOn) :
    sortCanonicalOns (eventOns m members ons) =
      (groups (fun a b => a.trigger.equal b.trigger) ons).map (List.map (CanonicalOn.prepare m members)) := by
  have hr : (fun a b : CanonicalOn => (a.prepare m members).trigger.equal (b.prepare m members).trigger) =
      fun a b => a.trigger.equal b.trigger := by
    funext a b
    have hb : ∀ t : Trigger, t.equal (b.prepare m members).trigger = t.equal b.trigger := fun t =>
      equal_alphaRename m members b
    rw [hb, Trigger.equal_comm, Trigger.equal_comm a.trigger]
    exact equal_alphaRename m members a
  rw [sortCanonicalOns, eventOns_eq, groups_map, hr]

/-- Every branch of the on of a trigger binds what the first canonical on of the trigger binds. -/
theorem bound_merged (members : List String) (h : ∀ o ∈ ons, o.Parsed) :
    (Stmt.compound ((sortCanonicalOns (eventOns m members ons)).map
      (canonicalOnsToOn true))).bindingIntoBlocking.bound ρ t =
        select (t.equal ·.trigger) (fun g => (branchBindings ρ t ons).map fun _ =>
          (g.head?.map (·.renamedBindings m members)).getD []) (ons.filter (t.equal ·.trigger)) := by
  have hbound : (Stmt.compound ((sortCanonicalOns (eventOns m members ons)).map
      (canonicalOnsToOn true))).bindingIntoBlocking.bound ρ t =
      (groups (fun a b => a.trigger.equal b.trigger) ons).flatMap
        (select (t.equal ·.trigger) fun g =>
          (canonicalOnsToOn true (g.map (CanonicalOn.prepare m members))).bindingIntoBlocking.boundOn ρ t) := by
    rw [Stmt.bindingIntoBlocking, Stmt.bound, bindingIntoBlocking_elements, sortCanonicalOns_eventOns,
      List.flatMap_map, List.flatMap_map, List.flatMap_map]
    apply List.flatMap_congr
    rintro (_ | ⟨o, os⟩) -
    · rfl
    · rw [select]
      split
      · rfl
      · rename_i ht
        apply boundOn_other
        rw [show t.equal (o.prepare m members).trigger = _ from equal_alphaRename m members o]
        simpa using ht
  rw [hbound, flatMap_groups equivalence_trigger (ofClass_trigger t)]
  have hlength : ∀ (a : Stmt × Bool) (l : List CanonicalOn) (l' : List CanonicalOn), l.length = l'.length →
      (orIllegal a false (l.map CanonicalOn.marked)).length =
        (orIllegal [] false (l'.map (·.trigger.bindings))).length := by
    intro a l l' hl
    cases l <;> cases l' <;> simp_all [orIllegal]
  cases hl : ons.filter (t.equal ·.trigger) with
  | nil => rfl
  | cons o os =>
    have hfilter : ∀ o' ∈ o :: os, o'.Parsed := fun o' ho' => h o' (List.mem_filter.1 (hl ▸ ho')).1
    have hmerge : ∀ o' ∈ (o :: os).map (CanonicalOn.prepare m members), o'.Mergeable := by
      intro o' ho'
      obtain ⟨o, ho, rfl⟩ := List.mem_map.1 ho'
      exact prepare_mergeable (hfilter o ho)
    have ht : t.equal o.trigger := (List.mem_filter.1 (hl ▸ List.mem_cons_self : o ∈ _)).2
    have hg := holding_group (ρ := ρ) true hmerge
    rw [Bool.true_and] at hg
    have henabled := enabled_simplified (ρ := ρ) (t := t) m members ons
    rw [hl] at henabled
    rw [select, select, boundOn_merged hfilter ht, mergedGuards, hg, branchBindings, hl,
      List.map_const', List.map_const', List.isEmpty_cons, Bool.not_true, hlength _ _ _ henabled.symm]
    rfl

theorem andNotGuards_otherwiseFree {gs : List Expr} (h : ∀ e ∈ gs, e.otherwiseFree) :
    (andNotGuards gs).otherwiseFree := by
  have hand : ∀ es : List Expr, (∀ e ∈ es, e.otherwiseFree) → (andExpressions es).otherwiseFree := by
    intro es hes
    refine Reduce.reduce_closed (P := fun e : Expr => e.otherwiseFree = true) ?_ rfl ?_
    · exact fun a b ha hb => Bool.and_eq_true_iff.2 ⟨ha, hb⟩
    · intro e he
      obtain ⟨d, hd, rfl⟩ := List.mem_map.1 he
      have := hes d hd
      cases d <;> exact this
  unfold andNotGuards
  split
  · rfl
  · rename_i g
    exact h g (by simp)
  · apply hand
    intro e he
    obtain ⟨d, hd, rfl⟩ := List.mem_map.1 he
    exact h d hd

/-- The canonical ons of the code pipeline. -/
def codeOns (m : Model) (b : Behavior) : List CanonicalOn :=
  implicitIllegalsToExplicitIllegals m (fun _ => .illegal) (b.statement.canonicalOns m)

theorem codeOns_parsed {b : Behavior} (h : ∀ o ∈ b.statement.canonicalOns m, o.Parsed) :
    ∀ o ∈ codeOns m b, o.Parsed := by
  have hillegal : ∀ u, (illegalOn (fun _ => .illegal) (b.statement.canonicalOns m) u).Parsed := by
    intro u
    refine ⟨?_, rfl, rfl⟩
    apply simplifyToplevel_otherwiseFree
    apply andNotGuards_otherwiseFree
    intro e he
    obtain ⟨o, ho, rfl⟩ := List.mem_map.1 he
    exact (h o (List.mem_filter.1 ho).1).guard
  intro o ho
  rcases List.mem_append.1 ho with ho | ho
  · obtain ⟨u, -, ho⟩ := List.mem_flatMap.1 ho
    rcases (mem_implicitIllegal ho).2 with ho | rfl
    exacts [h o ho, hillegal u]
  · exact h o (List.mem_filter.1 ho).1

/-- A constant list. -/
theorem map_const_eq_iff {α : Type} {l : List α} {a : α} : l.map (fun _ => a) = l ↔ ∀ b ∈ l, b = a := by
  constructor
  · intro h b hb
    rw [← h] at hb
    obtain ⟨-, -, rfl⟩ := List.mem_map.1 hb
    rfl
  · intro h
    conv_rhs => rw [← List.map_id l]
    exact List.map_congr_left fun b hb => (h b hb).symm

/-- In the code pipeline every enabled branch binds what the canonical on it came from binds exactly if
that is what the first canonical on of the trigger binds, which is what its own trigger binds as long as no
two of its formals get one name. -/
theorem codeNormalize_bound_iff (m : Model) (ρ : Valuation) (t : Trigger) (b : Behavior)
    (h : ∀ o ∈ b.statement.canonicalOns m, o.Parsed) :
    ((codeNormalize m b).bound ρ t = branchBindings ρ t (codeOns m b) ↔
      ∀ first ∈ ((codeOns m b).filter (t.equal ·.trigger)).head?,
        ∀ bindings ∈ branchBindings ρ t (codeOns m b), bindings = first.renamedBindings m b.memberNames) ∧
    ∀ first ∈ ((codeOns m b).filter (t.equal ·.trigger)).head?, first.Named m →
      first.renamedBindings m b.memberNames = first.trigger.bindings := by
  refine ⟨?_, fun first _ => renamedBindings_eq b.memberNames⟩
  have hbound := bound_merged (m := m) (ρ := ρ) (t := t) b.memberNames (codeOns_parsed h)
  have henabled := enabled_simplified (ρ := ρ) (t := t) m b.memberNames (codeOns m b)
  rw [show (codeNormalize m b).bound ρ t = _ from hbound]
  cases hl : (codeOns m b).filter (t.equal ·.trigger) with
  | nil =>
    rw [hl] at henabled
    have hnone := List.eq_nil_of_length_eq_zero henabled
    simp [select, branchBindings, hl, hnone, orIllegal]
  | cons first os =>
    have ht : t.equal first.trigger := (List.mem_filter.1 (hl ▸ List.mem_cons_self : first ∈ _)).2
    rw [select, if_pos ht]
    simp only [List.head?_cons, Option.map_some, Option.getD_some, Option.mem_some_iff, forall_eq']
    exact map_const_eq_iff

end

/-! ## The condition can fail -/

/-- `[!x] on p.e(b <- v): {} [x] on p.e(second): {}` -/
def bindingBehavior (second : Formal) : Behavior where
  members := [⟨["bool"], "x", .true⟩, ⟨["data"], "v", .literal .void⟩]
  functions := []
  statement := .compound [
    .guard (.not (.var "x")) (.on [⟨some "p", "e", [.binding "b" "v"]⟩] (.compound [])),
    .guard (.var "x") (.on [⟨some "p", "e", [second]⟩] (.compound []))]
  invariant := none

/-- Where both ons bind the parameter to `v`, so does the branch. -/
theorem codeNormalize_bound_same :
    (codeNormalize oneEvent (bindingBehavior (.binding "c" "v"))).bound clashValuation ⟨some "p", "e", []⟩ =
      [[(0, "v")]] := by
  have h := codeNormalize_bound_iff oneEvent clashValuation ⟨some "p", "e", []⟩
    (bindingBehavior (.binding "c" "v")) (by decide)
  exact (h.1.2 (by decide)).trans (by decide)

/-- Where `x` holds the second on runs, with the binding of the first. -/
theorem codeNormalize_bound_first :
    ¬ ∀ (m : Model) (ρ : Valuation) (t : Trigger) (b : Behavior),
      (∀ o ∈ b.statement.canonicalOns m, o.Parsed) →
        (codeNormalize m b).bound ρ t = branchBindings ρ t (codeOns m b) := by
  intro h
  have hparsed : ∀ o ∈ (bindingBehavior (.formal "c")).statement.canonicalOns oneEvent, o.Parsed := by decide
  have he := h oneEvent clashValuation ⟨some "p", "e", []⟩ _ hparsed
  have hbound := bound_merged (m := oneEvent) (ρ := clashValuation) (t := ⟨some "p", "e", []⟩)
    (bindingBehavior (.formal "c")).memberNames (codeOns_parsed hparsed)
  rw [show (codeNormalize oneEvent (bindingBehavior (.formal "c"))).bound clashValuation
    ⟨some "p", "e", []⟩ = _ from hbound] at he
  exact absurd he (by decide)

end Dezyne
