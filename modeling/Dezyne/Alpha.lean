import Dezyne.Binding
import Dezyne.TickNames
/-!
# Capture

`alpha-rename` gives formals the names of the event and locals fresh ones, by
name, in one list with the locals first. The names that are occupied for the
locals are those of the members and the new names of the formals that get one.
A formal that keeps its name is not among them, nor is a function or a port, and
a formal that has the name of a local gets the name of the local.
-/

namespace Dezyne.Alpha

open Tick

/-! ## What a renaming keeps -/

/-- The frames of locals and formals in scope where a local is declared, and its name. -/
abbrev Declaration := List (List String) × String

/-- The locals that are declared in an imperative statement. -/
def declarations (locals : List (List String)) : Stmt → List Declaration
  | .compound ss => elements locals [] ss
  | .ifThen _ s => declarations locals s
  | .ifElse _ s t => declarations locals s ++ declarations locals t
  | .defer _ s => declarations locals s
  | .variableDecl _ x _ => [(locals, x)]
  | _ => []
where
  elements (locals : List (List String)) (before : List String) : List Stmt → List Declaration
  | [] => []
  | s :: ss => declarations (before :: locals) s ++ elements locals (before ++ s.declares?) ss

/-- A name with an `x` added any number of times. -/
def Suffixed (name base : String) : Prop := ∃ k, name = base ++ String.ofList (List.replicate k 'x')

/-- What the uses in a statement of an on resolve to. -/
def useTargets (env : Env) (formals : List String) (s : Stmt) : List (Option Target) :=
  (sites ⟨[formals], [], []⟩ s).map fun site => env.target site.scope site.use

/-- A local does not get the name of a declaration in scope that it did not have the name of. -/
def SameShadow (members : List String) (d d' : Declaration) : Prop :=
  ∀ place, Scopes.find (d'.1 ++ [members]) d'.2 = some place → Scopes.find (d.1 ++ [members]) d.2 = some place

/-- An on with other names for its formals, those of the event up to a suffix, and its locals. -/
structure AlphaEquivalent (env : Env) (m : Dezyne.Model) (o o' : CanonicalOn) : Prop where
  statement : ∃ f, o'.statement = o.statement.rename f o.trigger.names
  distinct : o'.trigger.names.Nodup
  formals : List.Forall₂ Suffixed o'.trigger.names (m.eventFormals o.trigger)
  declarations : List.Forall₂ (SameShadow env.members) (declarations [(m.withFormals o.trigger).names] o.statement)
    (declarations [o'.trigger.names] o'.statement)
  uses : useTargets env o'.trigger.names o'.statement = useTargets env o.trigger.names o.statement

/-- An imperative statement as the parser makes it. -/
def Body : Stmt → Prop
  | .compound ss => elements ss
  | .ifThen _ s | .defer _ s => Body s
  | .ifElse _ s t => Body s ∧ Body t
  | .declarativeCompound _ | .guard _ _ | .on _ _ | .blocking _ | .invariant _ | .declarativeIllegal
  | .outBindings _ _ => False
  | _ => True
where
  elements : List Stmt → Prop
  | [] => True
  | s :: ss => Body s ∧ elements ss

/-- An on of a well-formed behavior: its formals have names of their own and are as many as the event has, all names
resolve, and those of calls to functions. -/
structure AlphaWellFormed (env : Env) (m : Dezyne.Model) (o : CanonicalOn) : Prop where
  distinct : o.trigger.names.Nodup
  count : o.trigger.formals ≠ [] → o.trigger.formals.length = (m.eventFormals o.trigger).length
  eventDistinct : (m.eventFormals o.trigger).Nodup
  body : Body o.statement
  resolves : ∀ site ∈ sites ⟨[o.trigger.names], [], []⟩ o.statement, ∃ t, env.target site.scope site.use = some t ∧
    ∀ ids, site.use = .call ids → ∃ f, env.function site.scope t = some f

/-! ## New names -/

/-- The new names of the formals. -/
def newFormals (m : Dezyne.Model) (members : List String) (o : CanonicalOn) : List String :=
  (refresh members (m.eventFormals o.trigger)).take (m.eventFormals o.trigger).length

/-- The formals that get another name, with it. -/
def renamedFormals (m : Dezyne.Model) (members : List String) (o : CanonicalOn) : List (String × String) :=
  ((m.withFormals o.trigger).names.zip (newFormals m members o)).filter fun p => p.1 ≠ p.2

/-- The names that no local gets. -/
def occupied (m : Dezyne.Model) (members : List String) (o : CanonicalOn) : List String :=
  (renamedFormals m members o).map Prod.snd ++ members

/-- The new names of the locals. -/
def newLocals (m : Dezyne.Model) (members : List String) (o : CanonicalOn) : List String :=
  (refresh (occupied m members o) o.statement.variableNames).take o.statement.variableNames.length

/-- The fresh name of a local: that of the first local with the name. -/
def freshLocal (m : Dezyne.Model) (members : List String) (o : CanonicalOn) (y : String) : String :=
  renameString (o.statement.variableNames.zip (newLocals m members o)) y

/-- What is not in `occupied` is no fresh name of a local, and the fresh name of a local that has the name of a formal
is that of the event with a suffix. -/
structure AlphaSafe (env : Env) (m : Dezyne.Model) (o : CanonicalOn) : Prop where
  kept : ∀ n, (n, n) ∈ (m.withFormals o.trigger).names.zip (newFormals m env.members o) →
    n ∉ o.statement.variableNames → ∀ y ∈ o.statement.variableNames, freshLocal m env.members o y ≠ n
  shadowed : ∀ n e, (n, e) ∈ (m.withFormals o.trigger).names.zip (m.eventFormals o.trigger) →
    n ∈ o.statement.variableNames → Suffixed (freshLocal m env.members o n) e
  used : ∀ site ∈ sites ⟨[o.trigger.names], [], []⟩ o.statement, ∀ g,
    site.use = .call [g] ∨ (∃ x, site.use = .shared g x) →
      ∀ frame ∈ site.scope.declared, ∀ y ∈ frame, freshLocal m env.members o y ≠ g

section
variable {m : Dezyne.Model} {members : List String} {o : CanonicalOn} {names : List String} {n x y : String}

theorem suffixed_fresh (occupied : List String) (name : String) : Suffixed (fresh occupied name) name := by
  obtain ⟨k, hk⟩ := Fresh.search_iterate (· ++ "x") occupied occupied.length name
  refine ⟨k, ?_⟩
  rw [fresh, hk]
  clear hk
  induction k with
  | zero => simp
  | succ k ih =>
    rw [Function.iterate_succ_apply', ih, List.replicate_succ', String.ofList_append, String.append_assoc]

/-- What `refresh` gives: names that differ and are not occupied, each with the suffix of the one in its place. -/
theorem take_refresh (occupied names : List String) :
    List.Forall₂ Suffixed ((refresh occupied names).take names.length) names ∧
      ((refresh occupied names).take names.length).Nodup ∧
      ∀ a ∈ (refresh occupied names).take names.length, a ∉ occupied := by
  obtain ⟨new, he, hl, hn, ho⟩ := Fresh.extend_eq fresh_not_mem occupied names
  obtain ⟨new', he', hsuffixed⟩ := Fresh.extend_forall₂ suffixed_fresh occupied names
  obtain rfl : new = new' := List.append_cancel_right (he.symm.trans he')
  have htake : (refresh occupied names).take names.length = new := by rw [refresh, he, ← hl, List.take_left]
  rw [htake]
  exact ⟨hsuffixed, hn, ho⟩

/-- A name that has a partner is renamed to one. -/
theorem renameString_zip {new : List String} (hl : names.length = new.length) (hy : y ∈ names)
    (rest : List (String × String)) : (y, renameString (names.zip new ++ rest) y) ∈ names.zip new ∧
      renameString (names.zip new ++ rest) y = renameString (names.zip new) y := by
  have hkey : ∃ v, (names.zip new).lookup y = some v := by
    cases hlookup : (names.zip new).lookup y with
    | some v => exact ⟨v, rfl⟩
    | none =>
      rw [List.lookup_eq_none_iff] at hlookup
      obtain ⟨i, hi, rfl⟩ := List.mem_iff_getElem.1 hy
      have hmem : (names[i], new[i]) ∈ names.zip new := by
        rw [List.mem_iff_getElem]
        exact ⟨i, by simp; omega, by simp⟩
      simpa using hlookup _ hmem
  obtain ⟨v, hv⟩ := hkey
  rw [renameString, renameString, List.lookup_append, hv]
  refine ⟨?_, rfl⟩
  obtain ⟨l, r, heq, -⟩ := List.lookup_eq_some_iff.1 hv
  rw [heq]
  simp

theorem renameString_append (first rest : List (String × String)) (hn : n ∉ first.map Prod.fst) :
    renameString (first ++ rest) n = renameString rest n := by
  have hnone : first.lookup n = none := by
    rw [List.lookup_eq_none_iff]
    intro p hp
    simp only [bne_iff_ne, ne_eq]
    rintro rfl
    exact hn (List.mem_map_of_mem hp)
  rw [renameString, renameString, List.lookup_append, hnone, Option.none_or]

theorem map_fst_zip_subset {new : List String} (hy : y ∈ (names.zip new).map Prod.fst) : y ∈ names := by
  obtain ⟨p, hp, rfl⟩ := List.mem_map.1 hy
  exact (List.of_mem_zip hp).1

/-- The renaming of `alpha-rename` -/
def newName (m : Dezyne.Model) (members : List String) (o : CanonicalOn) : String → String :=
  renameString (alphaMapping m members o.trigger o.statement)

theorem alphaMapping_eq : alphaMapping m members o.trigger o.statement =
    o.statement.variableNames.zip (newLocals m members o) ++ renamedFormals m members o := rfl

theorem length_newLocals : o.statement.variableNames.length = (newLocals m members o).length :=
  (take_refresh (occupied m members o) o.statement.variableNames).1.length_eq.symm

theorem newName_local (hy : y ∈ o.statement.variableNames) : newName m members o y = freshLocal m members o y := by
  rw [newName, alphaMapping_eq]
  exact (renameString_zip length_newLocals hy _).2

theorem mem_newLocals (hy : y ∈ o.statement.variableNames) :
    (y, freshLocal m members o y) ∈ o.statement.variableNames.zip (newLocals m members o) := by
  have h := (renameString_zip (@length_newLocals m members o) hy []).1
  rwa [List.append_nil] at h

/-- A name in the second list has one partner. -/
theorem zip_unique {new : List String} {a b c : String} (hn : new.Nodup) (ha : (a, c) ∈ names.zip new)
    (hb : (b, c) ∈ names.zip new) : a = b := by
  obtain ⟨i, hi, hia⟩ := List.mem_iff_getElem.1 ha
  obtain ⟨j, hj, hjb⟩ := List.mem_iff_getElem.1 hb
  rw [List.getElem_zip, Prod.mk.injEq] at hia hjb
  obtain rfl : i = j := (hn.getElem_inj_iff).1 (hia.2.trans hjb.2.symm)
  exact hia.1.symm.trans hjb.1

theorem zip_unique_right {new : List String} {a b c : String} (hn : names.Nodup) (ha : (c, a) ∈ names.zip new)
    (hb : (c, b) ∈ names.zip new) : a = b := by
  obtain ⟨i, hi, hia⟩ := List.mem_iff_getElem.1 ha
  obtain ⟨j, hj, hjb⟩ := List.mem_iff_getElem.1 hb
  rw [List.getElem_zip, Prod.mk.injEq] at hia hjb
  obtain rfl : i = j := (hn.getElem_inj_iff).1 (hia.1.trans hjb.1.symm)
  exact hia.2.symm.trans hjb.2

theorem freshLocal_inj (hx : x ∈ o.statement.variableNames) (hy : y ∈ o.statement.variableNames)
    (heq : freshLocal m members o x = freshLocal m members o y) : x = y := by
  have hxmem : (x, freshLocal m members o x) ∈ _ := mem_newLocals hx
  rw [heq] at hxmem
  exact zip_unique (take_refresh _ _).2.1 hxmem (mem_newLocals hy)

theorem freshLocal_not_mem (hy : y ∈ o.statement.variableNames) :
    freshLocal m members o y ∉ occupied m members o :=
  (take_refresh _ _).2.2 _ (List.of_mem_zip (mem_newLocals hy)).2

/-- The names of the formals of the trigger, which has those of the event if it has none. -/
structure FormalsOk (m : Dezyne.Model) (o : CanonicalOn) : Prop where
  distinct : (m.withFormals o.trigger).names.Nodup
  length : (m.withFormals o.trigger).names.length = (m.eventFormals o.trigger).length
  given : o.trigger.names = [] ∨ o.trigger.names = (m.withFormals o.trigger).names

theorem AlphaWellFormed.formalsOk {env : Env} (h : AlphaWellFormed env m o) : FormalsOk m o := by
  by_cases hf : o.trigger.formals = []
  · have hnames : (m.withFormals o.trigger).names = m.eventFormals o.trigger := by
      rw [Dezyne.Model.withFormals, if_pos hf, Trigger.names, List.map_map]
      exact List.map_id _
    exact ⟨by rw [hnames]; exact h.eventDistinct, by rw [hnames], .inl (by rw [Trigger.names, hf]; rfl)⟩
  · have hwith : m.withFormals o.trigger = o.trigger := if_neg hf
    rw [← hwith] at hf
    refine ⟨by rw [hwith]; exact h.distinct, ?_, .inr (by rw [hwith])⟩
    rw [hwith, Trigger.names, List.length_map, h.count (hwith ▸ hf)]

theorem length_newFormals : (newFormals m members o).length = (m.eventFormals o.trigger).length :=
  (take_refresh _ _).1.length_eq

/-- A formal without the name of a local gets the new name in its place. -/
theorem newName_formal (h : FormalsOk m o) (hn : n ∈ (m.withFormals o.trigger).names)
    (hlocal : n ∉ o.statement.variableNames) :
    (n, newName m members o n) ∈ (m.withFormals o.trigger).names.zip (newFormals m members o) := by
  rw [newName, alphaMapping_eq, renameString_append _ _ fun hm => hlocal (map_fst_zip_subset hm)]
  have hlength : (m.withFormals o.trigger).names.length = (newFormals m members o).length := by
    rw [h.length, length_newFormals]
  have hmap := @map_renameString _ _ hlength h.distinct [] (by simp)
  obtain ⟨i, hi, rfl⟩ := List.mem_iff_getElem.1 hn
  have hi' : i < (newFormals m members o).length := by rwa [hlength] at hi
  have hnew : renameString (renamedFormals m members o) (m.withFormals o.trigger).names[i] =
      (newFormals m members o)[i] := by
    have hget := congrArg (fun l : List String => l[i]?) hmap
    simpa [renamedFormals, hi, List.getElem?_eq_getElem hi'] using hget
  rw [hnew, List.mem_iff_getElem]
  exact ⟨i, by simp; omega, by simp⟩

/-- New names are not those of members. -/
theorem newName_not_member (h : FormalsOk m o)
    (hx : x ∈ o.statement.variableNames ∨ x ∈ (m.withFormals o.trigger).names) : newName m members o x ∉ members := by
  by_cases hlocal : x ∈ o.statement.variableNames
  · rw [newName_local hlocal]
    exact fun hm => freshLocal_not_mem hlocal (List.mem_append_right _ hm)
  · have hmem : (x, newName m members o x) ∈ _ := newName_formal h (hx.resolve_left hlocal) hlocal
    exact (take_refresh _ _).2.2 _ (List.of_mem_zip hmem).2

/-- Two names in the on. -/
def Named (m : Dezyne.Model) (o : CanonicalOn) (x : String) : Prop :=
  x ∈ o.statement.variableNames ∨ x ∈ (m.withFormals o.trigger).names

/-- No two names get the same name when the first part of the condition holds. -/
theorem newName_inj (h : FormalsOk m o)
    (hkept : ∀ n, (n, n) ∈ (m.withFormals o.trigger).names.zip (newFormals m members o) →
      n ∉ o.statement.variableNames → ∀ y ∈ o.statement.variableNames, freshLocal m members o y ≠ n) :
    ∀ x y, Named m o x → Named m o y → newName m members o x = newName m members o y → x = y := by
  -- a local and a formal without the name of a local
  have hmixed : ∀ x y, x ∈ o.statement.variableNames → y ∉ o.statement.variableNames →
      y ∈ (m.withFormals o.trigger).names → newName m members o x ≠ newName m members o y := by
    intro x y hx hy hformal heq
    have hmem : (y, newName m members o y) ∈ _ := newName_formal h hformal hy
    rw [newName_local hx] at heq
    by_cases hsame : newName m members o y = y
    · rw [hsame] at hmem heq
      exact hkept y hmem hy x hx heq
    · have hoccupied : newName m members o y ∈ occupied m members o := List.mem_append_left _ (List.mem_map.2
        ⟨(y, newName m members o y), List.mem_filter.2 ⟨hmem, by simpa using Ne.symm hsame⟩, rfl⟩)
      rw [← heq] at hoccupied
      exact freshLocal_not_mem hx hoccupied
  intro x y hx hy heq
  by_cases hxl : x ∈ o.statement.variableNames
  · by_cases hyl : y ∈ o.statement.variableNames
    · rw [newName_local hxl, newName_local hyl] at heq
      exact freshLocal_inj hxl hyl heq
    · exact absurd heq (hmixed x y hxl hyl (hy.resolve_left hyl))
  · by_cases hyl : y ∈ o.statement.variableNames
    · exact absurd heq.symm (hmixed y x hyl hxl (hx.resolve_left hxl))
    · have hxmem : (x, newName m members o x) ∈ _ := newName_formal h (hx.resolve_left hxl) hxl
      rw [heq] at hxmem
      exact zip_unique (take_refresh _ _).2.1 hxmem (newName_formal h (hy.resolve_left hyl) hyl)

/-! ## The renamed on -/

theorem exprRename_id (scope : List String) (e : Expr) : e.rename id scope = e := by
  have hargs : ∀ as : List Expr, (∀ a ∈ as, a.rename id scope = a) → Expr.rename.arguments id scope as = as := by
    intro as h
    induction as with
    | nil => rfl
    | cons a as ih =>
      obtain ⟨ha, has⟩ := List.forall_mem_cons.1 h
      rw [Expr.rename.arguments, ha, ih has]
  induction e with
  | group e ih | not e ih | otherwiseValue e ih => rw [Expr.rename, ih]
  | binary op l r ihl ihr => rw [Expr.rename, ihl, ihr]
  | var x | fieldTest x g => simp [Expr.rename]
  | action p e as ih | call g as ih => rw [Expr.rename, hargs as ih]
  | _ => rfl

theorem argumentsRename_id (scope : List String) (as : List Expr) : Expr.rename.arguments id scope as = as := by
  induction as with
  | nil => rfl
  | cons a as ih => rw [Expr.rename.arguments, exprRename_id, ih]

theorem stmtRename_id (scope : List String) (s : Stmt) : s.rename id scope = s := by
  have helements : ∀ ss : List Stmt, (∀ s ∈ ss, ∀ scope, s.rename id scope = s) → ∀ scope,
      Stmt.rename.elements id scope ss = ss := by
    intro ss h
    induction ss with
    | nil => exact fun _ => rfl
    | cons s ss ih =>
      obtain ⟨hs, hss⟩ := List.forall_mem_cons.1 h
      intro scope
      rw [Stmt.rename.elements, hs, ih hss]
  have htrigger : Trigger.rename id = id := by
    funext t
    rw [Trigger.rename, formalRename_id]
    rfl
  induction s generalizing scope with
  | compound ss ih | declarativeCompound ss ih => rw [Stmt.rename, helements ss ih]
  | guard e s ih | ifThen e s ih => rw [Stmt.rename, exprRename_id, ih]
  | on ts s ih => rw [Stmt.rename, ih, htrigger, List.map_id]
  | blocking s ih => rw [Stmt.rename, ih]
  | ifElse e s t ihs iht => rw [Stmt.rename, exprRename_id, ihs, iht]
  | defer as s ih =>
    have harguments : Expr.rename.arguments id scope = id := funext (argumentsRename_id scope)
    rw [Stmt.rename, ih, harguments, Option.map_id]
    rfl
  | invariant e | variableDecl t x e | reply p e | returnStmt e => rw [Stmt.rename, exprRename_id]; try rfl
  | assign x e => rw [Stmt.rename, exprRename_id]; simp
  | action p e as | call g as => rw [Stmt.rename, argumentsRename_id]
  | outBindings p fs => rw [Stmt.rename, formalRename_id]
  | _ => rfl

theorem statement_alphaRename (m : Dezyne.Model) (members : List String) (o : CanonicalOn) :
    (o.alphaRename m members).statement = o.statement.rename (newName m members o) o.trigger.names := by
  unfold CanonicalOn.alphaRename newName
  dsimp only
  split
  · rename_i h
    rw [h, renameString_nil, stmtRename_id]
  · rfl

theorem names_alphaRename (m : Dezyne.Model) (members : List String) (o : CanonicalOn) :
    (o.alphaRename m members).trigger.names = (m.withFormals o.trigger).names.map (newName m members o) := by
  unfold CanonicalOn.alphaRename newName
  dsimp only
  split
  · rename_i h
    rw [h, renameString_nil, List.map_id]
  · simp only [Trigger.names, Trigger.rename, List.map_map]
    refine List.map_congr_left fun f _ => ?_
    cases f <;> rfl

end

/-! ## Scopes of the renamed on -/

section
variable {f : String → String} {locals formals formals' scope : List String} {sc sc' : Scope} {s : Stmt}
  {ss : List Stmt}

/-- The use with its new name. -/
def renameUse (f : String → String) (scope : List String) : Use → Use
  | .var x => .var (if x ∈ scope then f x else x)
  | u => u

theorem arguments_eq (f : String → String) (scope : List String) (as : List Expr) :
    Expr.rename.arguments f scope as = as.map (Expr.rename f scope) := by
  induction as with
  | nil => rfl
  | cons a as ih => rw [Expr.rename.arguments, ih, List.map_cons]

theorem uses_rename (f : String → String) (scope : List String) (e : Expr) :
    uses (e.rename f scope) = (uses e).map (renameUse f scope) := by
  have hargs : ∀ as : List Expr, (∀ a ∈ as, uses (a.rename f scope) = (uses a).map (renameUse f scope)) →
      uses.arguments (Expr.rename.arguments f scope as) = (uses.arguments as).map (renameUse f scope) := by
    intro as h
    rw [arguments_eq, uses_arguments, uses_arguments, List.flatMap_map, List.map_flatMap]
    exact List.flatMap_congr h
  induction e with
  | group e ih | not e ih | otherwiseValue e ih => exact ih
  | binary op l r ihl ihr => rw [Expr.rename, uses, uses, ihl, ihr, List.map_append]
  | action p e as ih => exact hargs as ih
  | call g as ih => rw [Expr.rename, uses, uses, hargs as ih]; rfl
  | _ => rfl

theorem flatMap_uses (f : String → String) (scope : List String) (as : List Expr) :
    (Expr.rename.arguments f scope as).flatMap uses = (as.flatMap uses).map (renameUse f scope) := by
  rw [arguments_eq, List.flatMap_map, List.map_flatMap]
  exact List.flatMap_congr fun a _ => uses_rename f scope a

/-- The scopes around a place and around the renamed one. -/
structure Around (f : String → String) (locals formals formals' scope : List String) (sc sc' : Scope) : Prop where
  mem : ∀ x, x ∈ scope ↔ ∃ frame ∈ sc.locals, x ∈ frame
  frames : ∃ ls, sc.locals = ls ++ [formals] ∧ sc'.locals = ls.map (List.map f) ++ [formals'] ∧
    ∀ frame ∈ ls, ∀ x ∈ frame, x ∈ locals
  declared : sc'.declared = sc.declared.map (List.map f)
  locals : ∀ frame ∈ sc.declared, ∀ x ∈ frame, x ∈ locals

/-- A use and the renamed one. -/
def SiteRenamed (f : String → String) (locals formals formals' : List String) (site site' : Site) : Prop :=
  ∃ scope, Around f locals formals formals' scope site.scope site'.scope ∧ site'.use = renameUse f scope site.use

theorem Around.declare (h : Around f locals formals formals' scope sc sc') {frame frame' : List String}
    (hframe : frame' = frame.map f) (hlocals : ∀ x ∈ frame, x ∈ locals) :
    Around f locals formals formals' scope { sc with declared := frame :: sc.declared }
      { sc' with declared := frame' :: sc'.declared } where
  mem := h.mem
  frames := h.frames
  declared := by rw [List.map_cons, ← h.declared, hframe]
  locals := List.forall_mem_cons.2 ⟨hlocals, h.locals⟩

/-- A frame of locals inside the others. -/
theorem Around.enter (h : Around f locals formals formals' scope sc sc') {before : List String}
    (hlocals : ∀ x ∈ before, x ∈ locals) :
    Around f locals formals formals' (before ++ scope) { sc with locals := before :: sc.locals }
      { sc' with locals := before.map f :: sc'.locals } where
  mem := by
    intro x
    rw [List.mem_append, h.mem]
    simp
  frames := by
    obtain ⟨ls, hls, hls', hnames⟩ := h.frames
    exact ⟨before :: ls, by rw [hls]; rfl, by rw [hls']; rfl, List.forall_mem_cons.2 ⟨hlocals, hnames⟩⟩
  declared := h.declared
  locals := h.locals

theorem Around.congr {scope' counted counted' : List String} (h : Around f locals formals formals' scope sc sc')
    (hscope : ∀ x, x ∈ scope' ↔ x ∈ scope) :
    Around f locals formals formals' scope' { sc with counted := counted } { sc' with counted := counted' } where
  mem x := (hscope x).trans (h.mem x)
  frames := h.frames
  declared := h.declared
  locals := h.locals

theorem sites_uses (h : Around f locals formals formals' scope sc sc') (us : List Use) :
    List.Forall₂ (SiteRenamed f locals formals formals') (us.map sc.site)
      ((us.map (renameUse f scope)).map sc'.site) := by
  rw [List.forall₂_map_left_iff, List.forall₂_map_right_iff, List.forall₂_map_right_iff, List.forall₂_same]
  exact fun u _ => ⟨scope, h, rfl⟩

theorem sites_expr (h : Around f locals formals formals' scope sc sc') (e : Expr) :
    List.Forall₂ (SiteRenamed f locals formals formals') ((uses e).map sc.site)
      ((uses (e.rename f scope)).map sc'.site) := by
  rw [uses_rename]
  exact sites_uses h _

theorem sites_args (h : Around f locals formals formals' scope sc sc') (as : List Expr) :
    List.Forall₂ (SiteRenamed f locals formals formals') ((as.flatMap uses).map sc.site)
      (((Expr.rename.arguments f scope as).flatMap uses).map sc'.site) := by
  rw [flatMap_uses]
  exact sites_uses h _

theorem declares_rename (f : String → String) (scope : List String) (s : Stmt) :
    (s.rename f scope).declares? = s.declares?.map f := by
  cases s <;> rfl

theorem declares_elements (f : String → String) (scope : List String) (ss : List Stmt) :
    (Stmt.rename.elements f scope ss).flatMap Stmt.declares? = (ss.flatMap Stmt.declares?).map f := by
  induction ss generalizing scope with
  | nil => rfl
  | cons s ss ih =>
    rw [Stmt.rename.elements, List.flatMap_cons, List.flatMap_cons, declares_rename, ih, List.map_append]

theorem variablesOf_rename (f : String → String) (scope : List String) (s : Stmt) :
    variablesOf (s.rename f scope) = (variablesOf s).map f := by
  cases s with
  | compound ss => exact declares_elements f scope ss
  | _ => rfl

theorem variableNames_rename (f : String → String) (scope : List String) (s : Stmt) :
    (s.rename f scope).variableNames = s.variableNames.map f := by
  have helements : ∀ ss : List Stmt, (∀ s ∈ ss, ∀ scope, (s.rename f scope).variableNames = s.variableNames.map f) →
      ∀ scope, Stmt.variableNames.elements (Stmt.rename.elements f scope ss) =
        (Stmt.variableNames.elements ss).map f := by
    intro ss h
    induction ss with
    | nil => exact fun _ => rfl
    | cons s ss ih =>
      obtain ⟨hs, hss⟩ := List.forall_mem_cons.1 h
      intro scope
      rw [Stmt.rename.elements, Stmt.variableNames.elements, Stmt.variableNames.elements, hs, ih hss, List.map_append]
  induction s generalizing scope with
  | compound ss ih | declarativeCompound ss ih => exact helements ss ih scope
  | ifElse e s t ihs iht => rw [Stmt.rename, Stmt.variableNames, Stmt.variableNames, ihs, iht, List.map_append]
  | guard e s ih | on ts s ih | blocking s ih | ifThen e s ih | defer as s ih => exact ih _
  | _ => rfl

theorem declares_subset (s : Stmt) : s.declares? ⊆ s.variableNames := by
  cases s with
  | variableDecl t x e => exact List.Subset.refl _
  | _ => exact List.nil_subset _

theorem mem_variableNames_elements {x : String} :
    x ∈ Stmt.variableNames.elements ss ↔ ∃ s ∈ ss, x ∈ s.variableNames := by
  induction ss with
  | nil => simp [Stmt.variableNames.elements]
  | cons s ss ih => simp [Stmt.variableNames.elements, ih]

theorem variablesOf_subset (s : Stmt) : variablesOf s ⊆ s.variableNames := by
  cases s with
  | compound ss =>
    intro x hx
    obtain ⟨s, hs, hx⟩ := List.mem_flatMap.1 hx
    exact mem_variableNames_elements.2 ⟨s, hs, declares_subset s hx⟩
  | variableDecl t x e => exact List.Subset.refl _
  | _ => exact List.nil_subset _

theorem SiteRenamed.inside {site site' : Site} (h : SiteRenamed f locals formals formals' site site') (s s' : Stmt) :
    SiteRenamed f locals formals formals' (Tick.inside s site) (Tick.inside s' site') := by
  obtain ⟨scope, haround, huse⟩ := h
  refine ⟨scope, ?_, ?_⟩
  · cases s <;> cases s' <;> exact haround
  · cases s <;> cases s' <;> exact huse

theorem body_elements : Body.elements ss ↔ ∀ s ∈ ss, Body s := by
  induction ss with
  | nil => simp [Body.elements]
  | cons s ss ih => rw [Body.elements, ih, List.forall_mem_cons]

/-- The uses in a renamed compound. -/
theorem sites_elements
    (ih : ∀ s ∈ ss, ∀ {scope sc sc'}, Around f locals formals formals' scope sc sc' →
      List.Forall₂ (SiteRenamed f locals formals formals') (sites sc s) (sites sc' (s.rename f scope)))
    (h : Around f locals formals formals' scope sc sc') {before inScope : List String}
    (hscope : ∀ x, x ∈ inScope ↔ x ∈ before ++ scope) (hbefore : ∀ x ∈ before, x ∈ locals)
    (hlocals : ∀ s ∈ ss, ∀ x ∈ s.variableNames, x ∈ locals) :
    List.Forall₂ (SiteRenamed f locals formals formals') (sites.elements sc before ss)
      (sites.elements sc' (before.map f) (Stmt.rename.elements f inScope ss)) := by
  induction ss generalizing before inScope sc sc' with
  | nil => exact .nil
  | cons s ss ihss =>
    obtain ⟨ihs, ihrest⟩ := List.forall_mem_cons.1 ih
    obtain ⟨hs, hrest⟩ := List.forall_mem_cons.1 hlocals
    rw [Stmt.rename.elements, sites.elements, sites.elements, declares_rename, ← List.map_append]
    refine List.rel_append ?_ ?_
    · rw [List.forall₂_map_left_iff, List.forall₂_map_right_iff]
      exact (ihs ((h.enter hbefore).congr hscope)).imp fun _ _ hsite => hsite.inside _ _
    · refine ihss ihrest (h.congr fun _ => Iff.rfl) ?_ ?_ hrest
      · intro x
        rw [List.mem_append, hscope]
        simp only [List.mem_append]
        tauto
      · intro x hx
        rcases List.mem_append.1 hx with hx | hx
        · exact hbefore x hx
        · exact hs x (declares_subset s hx)

/-- The uses in a renamed statement are the renamed uses. -/
theorem sites_rename (h : Around f locals formals formals' scope sc sc') (hs : Body s)
    (hlocals : ∀ x ∈ s.variableNames, x ∈ locals) :
    List.Forall₂ (SiteRenamed f locals formals formals') (sites sc s) (sites sc' (s.rename f scope)) := by
  induction s generalizing scope sc sc' with
  | compound ss ih =>
    have hbody := body_elements.1 hs
    have hnames : ∀ s ∈ ss, ∀ x ∈ s.variableNames, x ∈ locals :=
      fun s hmem x hx => hlocals x (mem_variableNames_elements.2 ⟨s, hmem, hx⟩)
    have hdeclare := h.declare (variablesOf_rename f scope (.compound ss))
      fun x hx => hlocals x (variablesOf_subset (.compound ss) hx)
    exact sites_elements (fun s hmem _ _ _ h => ih s hmem h (hbody s hmem) (hnames s hmem)) hdeclare
      (fun _ => Iff.rfl) (by simp) hnames
  | ifThen e s ih =>
    have hdeclare := h.declare (variablesOf_rename f scope s) fun x hx => hlocals x (variablesOf_subset s hx)
    exact List.rel_append (sites_expr hdeclare e) (ih hdeclare hs hlocals)
  | ifElse e s t ihs iht =>
    have hs' : ∀ x ∈ s.variableNames, x ∈ locals := fun x hx => hlocals x (List.mem_append_left _ hx)
    have ht' : ∀ x ∈ t.variableNames, x ∈ locals := fun x hx => hlocals x (List.mem_append_right _ hx)
    have hvariables : variablesOf (s.rename f scope) ++ variablesOf (t.rename f scope) =
        (variablesOf s ++ variablesOf t).map f := by
      rw [variablesOf_rename, variablesOf_rename, List.map_append]
    have hdeclare := h.declare hvariables fun x hx =>
      (List.mem_append.1 hx).elim (fun hx => hs' x (variablesOf_subset s hx)) fun hx => ht' x (variablesOf_subset t hx)
    exact List.rel_append (List.rel_append (sites_expr hdeclare e) (ihs hdeclare hs.1 hs')) (iht hdeclare hs.2 ht')
  | defer as s ih =>
    have hdeclare := h.declare (variableNames_rename f scope s) hlocals
    refine List.rel_append ?_ (ih hdeclare hs hlocals)
    have harguments : (as.map (Expr.rename.arguments f scope)).getD [] =
        Expr.rename.arguments f scope (as.getD []) := by
      cases as <;> rfl
    rw [harguments]
    exact sites_args hdeclare _
  | variableDecl t x e | reply p e | returnStmt e => exact sites_expr h e
  | assign x e => exact .cons ⟨scope, h, rfl⟩ (sites_expr h e)
  | action p e as => exact sites_args h as
  | call g as => exact .cons ⟨scope, h, rfl⟩ (sites_args h as)
  | guard | on | blocking | invariant | declarativeCompound | declarativeIllegal | outBindings => exact hs.elim
  | _ => exact .nil

/-- A declaration and the renamed one. -/
def DeclarationRenamed (f : String → String) (locals formals formals' : List String) (d d' : Declaration) : Prop :=
  (∃ ls, d.1 = ls ++ [formals] ∧ d'.1 = ls.map (List.map f) ++ [formals'] ∧ ∀ frame ∈ ls, ∀ x ∈ frame, x ∈ locals) ∧
    d.2 ∈ locals ∧ d'.2 = f d.2

/-- The locals in a renamed statement. -/
theorem declarations_rename {ls : List (List String)} (hls : ∀ frame ∈ ls, ∀ x ∈ frame, x ∈ locals) (hs : Body s)
    (hlocals : ∀ x ∈ s.variableNames, x ∈ locals) :
    List.Forall₂ (DeclarationRenamed f locals formals formals') (declarations (ls ++ [formals]) s)
      (declarations (ls.map (List.map f) ++ [formals']) (s.rename f scope)) := by
  induction s generalizing ls scope with
  | compound ss ih =>
    have hbody := body_elements.1 hs
    have hnames : ∀ s ∈ ss, ∀ x ∈ s.variableNames, x ∈ locals :=
      fun s hmem x hx => hlocals x (mem_variableNames_elements.2 ⟨s, hmem, hx⟩)
    suffices helements : ∀ before : List String, (∀ x ∈ before, x ∈ locals) → ∀ scope,
        List.Forall₂ (DeclarationRenamed f locals formals formals') (declarations.elements (ls ++ [formals]) before ss)
          (declarations.elements (ls.map (List.map f) ++ [formals']) (before.map f)
            (Stmt.rename.elements f scope ss)) from helements [] (by simp) scope
    clear hs hlocals
    induction ss with
    | nil => exact fun _ _ _ => .nil
    | cons s ss ihss =>
      obtain ⟨ihs, ihrest⟩ := List.forall_mem_cons.1 ih
      obtain ⟨hs, hrest⟩ := List.forall_mem_cons.1 hnames
      obtain ⟨hbodys, hbodyrest⟩ := List.forall_mem_cons.1 hbody
      intro before hbefore scope
      rw [Stmt.rename.elements, declarations.elements, declarations.elements, declares_rename, ← List.map_append]
      refine List.rel_append ?_ (ihss ihrest hbodyrest hrest (before ++ s.declares?) ?_ _)
      · exact @ihs scope (before :: ls) (List.forall_mem_cons.2 ⟨hbefore, hls⟩) hbodys hs
      · intro x hx
        rcases List.mem_append.1 hx with hx | hx
        · exact hbefore x hx
        · exact hs x (declares_subset s hx)
  | ifThen e s ih | defer as s ih => exact ih hls hs hlocals
  | ifElse e s t ihs iht =>
    exact List.rel_append (ihs hls hs.1 fun x hx => hlocals x (List.mem_append_left _ hx))
      (iht hls hs.2 fun x hx => hlocals x (List.mem_append_right _ hx))
  | variableDecl t x e => exact .cons ⟨⟨ls, rfl, rfl, hls⟩, hlocals x List.mem_cons_self, rfl⟩ .nil
  | guard | on | blocking | invariant | declarativeCompound | declarativeIllegal | outBindings => exact hs.elim
  | _ => exact .nil

/-- The first declaration of a name has no other of that name in scope. -/
theorem exists_declaration {y : String} {frames : List (List String)} (hs : Body s) (hy : y ∈ s.variableNames) :
    ∃ d ∈ declarations frames s, d.2 = y ∧ ∃ ls, d.1 = ls ++ frames ∧ ∀ frame ∈ ls, y ∉ frame := by
  induction s generalizing frames with
  | compound ss ih =>
    have hbody := body_elements.1 hs
    have hmem := mem_variableNames_elements.1 hy
    suffices helements : ∀ before : List String, y ∉ before →
        ∃ d ∈ declarations.elements frames before ss, d.2 = y ∧ ∃ ls, d.1 = ls ++ frames ∧ ∀ frame ∈ ls, y ∉ frame from
      helements [] (by simp)
    clear hs hy
    induction ss with
    | nil => simp at hmem
    | cons s ss ihss =>
      obtain ⟨ihs, ihrest⟩ := List.forall_mem_cons.1 ih
      obtain ⟨hbodys, hbodyrest⟩ := List.forall_mem_cons.1 hbody
      intro before hbefore
      by_cases hys : y ∈ s.variableNames
      · obtain ⟨d, hd, hname, ls, hls, hnot⟩ := @ihs (before :: frames) hbodys hys
        refine ⟨d, List.mem_append_left _ hd, hname, ls ++ [before], by simp [hls], ?_⟩
        intro frame hframe
        rcases List.mem_append.1 hframe with hframe | hframe
        · exact hnot frame hframe
        · rwa [List.mem_singleton.1 hframe]
      · obtain ⟨s', hs', hys'⟩ := hmem
        have hss : s' ∈ ss := (List.mem_cons.1 hs').resolve_left (by rintro rfl; exact hys hys')
        have hnew : y ∉ before ++ s.declares? := by
          rw [List.mem_append, not_or]
          exact ⟨hbefore, fun hm => hys (declares_subset s hm)⟩
        obtain ⟨d, hd, hrest⟩ := ihss ihrest hbodyrest ⟨s', hss, hys'⟩ _ hnew
        exact ⟨d, List.mem_append_right _ hd, hrest⟩
  | ifThen e s ih | defer as s ih => exact ih hs hy
  | ifElse e s t ihs iht =>
    rcases List.mem_append.1 hy with hy | hy
    · obtain ⟨d, hd, hrest⟩ := @ihs frames hs.1 hy
      exact ⟨d, List.mem_append_left _ hd, hrest⟩
    · obtain ⟨d, hd, hrest⟩ := @iht frames hs.2 hy
      exact ⟨d, List.mem_append_right _ hd, hrest⟩
  | variableDecl t x e =>
    obtain rfl := List.mem_singleton.1 hy
    exact ⟨(frames, y), List.mem_cons_self, rfl, [], rfl, by simp⟩
  | guard | on | blocking | invariant | declarativeCompound | declarativeIllegal | outBindings => exact hs.elim
  | _ => cases hy

end

/-! ## What uses resolve to -/

section
variable {f : String → String} {locals formals formals' names members : List String} {env : Env} {site site' : Site}
  {x g : String} {D : String → Prop}

/-- A variable is found where it was, when no two names get the same name and none that of a member. -/
theorem var_target (hinj : ∀ x y, D x → D y → f x = f y → x = y) (hmembers : ∀ x, D x → f x ∉ env.members)
    (hlocals : ∀ x ∈ locals, D x) (hnames : ∀ x ∈ names, D x) (hformals : formals = [] ∨ formals = names)
    (h : SiteRenamed f locals formals (names.map f) site site') (huse : site.use = .var x)
    (hresolves : (env.target site.scope site.use).isSome) :
    env.target site'.scope site'.use = env.target site.scope site.use := by
  obtain ⟨scope, haround, huse'⟩ := h
  obtain ⟨ls, hls, hls', hframes⟩ := haround.frames
  have hin : ∀ frame ∈ ls, ∀ y ∈ frame, D y := fun frame hframe y hy => hlocals y (hframes frame hframe y hy)
  rw [huse'] at *
  rw [huse] at *
  simp only [renameUse, Env.target, Option.isSome_map] at hresolves ⊢
  congr 1
  rw [hls, hls', List.append_assoc, List.append_assoc]
  rw [hls, List.append_assoc] at hresolves
  by_cases hx : ∃ frame ∈ ls, x ∈ frame
  · -- a local
    have hscope : x ∈ scope := by
      rw [haround.mem, hls]
      obtain ⟨frame, hframe, hx⟩ := hx
      exact ⟨frame, List.mem_append_left _ hframe, hx⟩
    obtain ⟨frame, hframe, hmem⟩ := hx
    have hfound : Scopes.find ls x ≠ none := fun hnone => Scopes.find_eq_none_iff.1 hnone frame hframe hmem
    rw [if_pos hscope, Scopes.find_append (ls.map _), Scopes.find_append ls,
      Scopes.find_map hinj hin (hin frame hframe x hmem)]
    cases hfind : Scopes.find ls x with
    | none => exact absurd hfind hfound
    | some p => rfl
  · have hnone : Scopes.find ls x = none := Scopes.find_eq_none_iff.2 fun frame hframe hmem => hx ⟨frame, hframe, hmem⟩
    by_cases hformal : x ∈ formals
    · -- a formal
      obtain rfl : formals = names := hformals.resolve_left (by rintro rfl; cases hformal)
      have hscope : x ∈ scope := by
        rw [haround.mem, hls]
        exact ⟨formals, by simp, hformal⟩
      have hall : ∀ frame ∈ ls ++ [formals], ∀ y ∈ frame, D y := by
        intro frame hframe
        rcases List.mem_append.1 hframe with hframe | hframe
        · exact hin frame hframe
        · rw [List.mem_singleton.1 hframe]
          exact hnames
      have hmap := Scopes.find_map hinj hall (hnames x hformal)
      rw [List.map_append] at hmap
      have hfound : Scopes.find (ls ++ [formals]) x ≠ none := fun hnone =>
        Scopes.find_eq_none_iff.1 hnone formals (by simp) hformal
      rw [if_pos hscope, ← List.append_assoc, ← List.append_assoc, Scopes.find_append (_ ++ _) [env.members],
        Scopes.find_append (ls ++ [formals])]
      have hsingle : [formals.map f] = [formals].map (List.map f) := rfl
      rw [hsingle, hmap]
      cases hfind : Scopes.find (ls ++ [formals]) x with
      | none => exact absurd hfind hfound
      | some p => rfl
    · -- a member
      have hscope : x ∉ scope := by
        rw [haround.mem, hls]
        rintro ⟨frame, hframe, hmem⟩
        rcases List.mem_append.1 hframe with hframe | hframe
        · exact hx ⟨frame, hframe, hmem⟩
        · rw [List.mem_singleton.1 hframe] at hmem
          exact hformal hmem
      have hmember : x ∈ env.members := by
        by_contra hmember
        have hnotfound : Scopes.find (ls ++ ([formals] ++ [env.members])) x = none := by
          rw [Scopes.find_append, hnone, Scopes.find_eq_none_iff.2 (by simpa using ⟨hformal, hmember⟩)]
          rfl
        rw [hnotfound] at hresolves
        cases hresolves
      have hnot : ∀ y, D y → f y ≠ x := fun y hy heq => hmembers y hy (heq ▸ hmember)
      have hnone' : Scopes.find (ls.map (List.map f)) x = none := by
        rw [Scopes.find_eq_none_iff]
        intro frame hframe hmem
        obtain ⟨old, hold, rfl⟩ := List.mem_map.1 hframe
        obtain ⟨y, hy, heq⟩ := List.mem_map.1 hmem
        exact hnot y (hin old hold y hy) heq
      have hformal' : x ∉ names.map f := by
        intro hmem
        obtain ⟨y, hy, heq⟩ := List.mem_map.1 hmem
        exact hnot y (hnames y hy) heq
      have hskip : ∀ frame : List String, x ∉ frame → Scopes.find ([frame] ++ [env.members]) x =
          (Scopes.find [env.members] x).map fun p => (p.1 + 1, p.2) := fun frame hframe =>
        Scopes.find_cons_of_not_mem hframe
      rw [if_neg hscope, Scopes.find_append (ls.map _), Scopes.find_append ls, hnone, hnone', hskip _ hformal,
        hskip _ hformal', List.length_map]

theorem Env.port_of_declared {place : Nat × Nat} (hfind : Scopes.find scope.declared g = some place) :
    env.port scope g = none := by
  have hlt := Scopes.find_lt hfind
  rw [Env.port, Scopes.find_append, hfind, Option.some_or, Option.bind_some, if_neg (by omega)]

theorem Env.port_of_not_declared (hfind : Scopes.find scope.declared g = none) :
    env.port scope g = (Scopes.find env.declarations g).bind fun place =>
      if place.1 = 1 then (env.ports[place.2]?).map fun port => (place.2, port) else none := by
  rw [Env.port, Scopes.find_append, hfind, Option.none_or, Option.bind_map]
  congr 1
  funext place
  simp only [Function.comp_apply]
  congr 1
  rw [Nat.add_comm, Nat.add_left_cancel_iff]

/-- A function or a port is found as before, just when no local that is declared around gets its name. -/
theorem name_target_iff (h : SiteRenamed f locals formals formals' site site')
    (huse : site.use = .call [g] ∨ ∃ x, site.use = .shared g x)
    (hresolves : ∃ t, env.target site.scope site.use = some t ∧
      ∀ ids, site.use = .call ids → ∃ f, env.function site.scope t = some f) :
    env.target site'.scope site'.use = env.target site.scope site.use ↔
      ∀ frame ∈ site.scope.declared, ∀ y ∈ frame, f y ≠ g := by
  obtain ⟨scope, haround, huse'⟩ := h
  obtain ⟨ls, hls, hls', -⟩ := haround.frames
  have hlength : site'.scope.locals.length = site.scope.locals.length := by rw [hls, hls']; simp
  have hdeclared : site'.scope.declared.length = site.scope.declared.length := by rw [haround.declared, List.length_map]
  have hnot : (∀ frame ∈ site.scope.declared, ∀ y ∈ frame, f y ≠ g) ↔ Scopes.find site'.scope.declared g = none := by
    rw [haround.declared, Scopes.find_eq_none_iff]
    simp
  rw [hnot]
  obtain ⟨t, htarget, hfunction⟩ := hresolves
  rcases huse with huse | ⟨x, huse⟩
  · have hsame : site'.use = .call [g] := by rw [huse', huse]; rfl
    obtain ⟨fn, hfn⟩ := hfunction _ huse
    rw [huse] at htarget
    rw [hsame, huse, htarget]
    rw [Env.target, Scopes.find_append] at htarget ⊢
    have hold : Scopes.find site.scope.declared g = none := by
      cases hfind : Scopes.find site.scope.declared g with
      | none => rfl
      | some place =>
        rw [hfind, Option.some_or] at htarget
        obtain rfl := Option.some.inj htarget
        simp only [Env.function] at hfn
        have hlt := Scopes.find_lt hfind
        rw [if_neg (by omega)] at hfn
        cases hfn
    rw [hold, Option.none_or] at htarget
    cases hfind : Scopes.find site'.scope.declared g with
    | none =>
      rw [Option.none_or, hdeclared, htarget]
      simp
    | some place =>
      have hlt := Scopes.find_lt hfind
      rw [Option.some_or]
      simp only [reduceCtorEq, iff_false]
      rintro heq
      obtain rfl := Option.some.inj heq
      cases hdecl : Scopes.find env.declarations g with
      | none =>
        rw [hdecl] at htarget
        cases hglobal : env.global [g] <;> simp [hglobal] at htarget
      | some q =>
        rw [hdecl] at htarget
        simp only [Option.map_some, Option.some.injEq, Target.declaration.injEq] at htarget
        rw [← htarget] at hlt
        simp only at hlt
        omega
  · have hsame : site'.use = .shared g x := by rw [huse', huse]; rfl
    rw [huse] at htarget
    rw [hsame, huse]
    have hold : Scopes.find site.scope.declared g = none := by
      cases hfind : Scopes.find site.scope.declared g with
      | none => rfl
      | some place =>
        rw [Env.target, Env.port_of_declared hfind] at htarget
        cases htarget
    rw [htarget]
    rw [Env.target, Env.port_of_not_declared hold] at htarget
    rw [Env.target, hlength]
    cases hfind : Scopes.find site'.scope.declared g with
    | none =>
      rw [Env.port_of_not_declared hfind]
      simp only [iff_true]
      exact htarget
    | some place =>
      rw [Env.port_of_declared hfind]
      simp

end

/-! ## When the renaming is right -/

section
variable {env : Env} {m : Dezyne.Model} {o : CanonicalOn}

theorem AlphaWellFormed.sites (h : AlphaWellFormed env m o) :
    List.Forall₂ (SiteRenamed (newName m env.members o) o.statement.variableNames o.trigger.names
      ((m.withFormals o.trigger).names.map (newName m env.members o))) (sites ⟨[o.trigger.names], [], []⟩ o.statement)
      (sites ⟨[(o.alphaRename m env.members).trigger.names], [], []⟩ (o.alphaRename m env.members).statement) := by
  rw [names_alphaRename, statement_alphaRename]
  have haround : Around (newName m env.members o) o.statement.variableNames o.trigger.names
      ((m.withFormals o.trigger).names.map (newName m env.members o)) o.trigger.names ⟨[o.trigger.names], [], []⟩
      ⟨[(m.withFormals o.trigger).names.map (newName m env.members o)], [], []⟩ :=
    ⟨by simp, ⟨[], rfl, rfl, by simp⟩, rfl, by simp⟩
  exact sites_rename haround h.body fun _ hx => hx

theorem AlphaWellFormed.declarations (h : AlphaWellFormed env m o) :
    List.Forall₂ (DeclarationRenamed (newName m env.members o) o.statement.variableNames (m.withFormals o.trigger).names
      ((m.withFormals o.trigger).names.map (newName m env.members o)))
      (declarations [(m.withFormals o.trigger).names] o.statement)
      (declarations [(o.alphaRename m env.members).trigger.names] (o.alphaRename m env.members).statement) := by
  rw [names_alphaRename, statement_alphaRename]
  have hnone : ∀ frame ∈ ([] : List (List String)), ∀ x ∈ frame, x ∈ o.statement.variableNames := by simp
  exact declarations_rename hnone h.body fun _ hx => hx

/-- An element has a partner for both relations. -/
theorem exists_both {α β : Type} {R P : α → β → Prop} {l : List α} {l' : List β} {a : α} (h : List.Forall₂ R l l')
    (h' : List.Forall₂ P l l') (ha : a ∈ l) : ∃ b ∈ l', R a b ∧ P a b := by
  induction h with
  | nil => cases ha
  | @cons x y l l' hR _ ih =>
    cases h' with
    | cons hP h' =>
      rcases List.mem_cons.1 ha with rfl | ha
      · exact ⟨y, List.mem_cons_self, hR, hP⟩
      · obtain ⟨b, hb, hboth⟩ := ih h' ha
        exact ⟨b, List.mem_cons_of_mem _ hb, hboth⟩

/-- What a use needs. -/
def Used (m : Dezyne.Model) (members : List String) (o : CanonicalOn) (site : Site) : Prop :=
  ∀ g, site.use = .call [g] ∨ (∃ x, site.use = .shared g x) → ∀ frame ∈ site.scope.declared, ∀ y ∈ frame,
    freshLocal m members o y ≠ g

theorem AlphaWellFormed.name_iff (h : AlphaWellFormed env m o) {site site' : Site}
    (hsite : site ∈ Tick.sites ⟨[o.trigger.names], [], []⟩ o.statement)
    (hrenamed : SiteRenamed (newName m env.members o) o.statement.variableNames o.trigger.names
      ((m.withFormals o.trigger).names.map (newName m env.members o)) site site') {g : String}
    (huse : site.use = .call [g] ∨ ∃ x, site.use = .shared g x) :
    env.target site'.scope site'.use = env.target site.scope site.use ↔ Used m env.members o site := by
  rw [name_target_iff hrenamed huse (h.resolves site hsite)]
  obtain ⟨scope, haround, -⟩ := hrenamed
  have hfresh : ∀ frame ∈ site.scope.declared, ∀ y ∈ frame,
      newName m env.members o y = freshLocal m env.members o y := fun frame hframe y hy =>
    newName_local (haround.locals frame hframe y hy)
  constructor
  · intro hnot g' huse' frame hframe y hy
    have hg : g' = g := by
      rcases huse with huse | ⟨x, huse⟩ <;> rcases huse' with huse' | ⟨x', huse'⟩ <;> rw [huse] at huse' <;>
        cases huse' <;> rfl
    rw [hg, ← hfresh frame hframe y hy]
    exact hnot frame hframe y hy
  · intro hused frame hframe y hy
    rw [hfresh frame hframe y hy]
    exact hused g huse frame hframe y hy

/-- The names of functions and ports are not those of locals that are declared around. -/
theorem AlphaEquivalent.used (h : AlphaWellFormed env m o)
    (heq : AlphaEquivalent env m o (o.alphaRename m env.members)) :
    ∀ site ∈ Tick.sites ⟨[o.trigger.names], [], []⟩ o.statement, Used m env.members o site := by
  have huses : List.Forall₂ (fun site site' => env.target site'.scope site'.use = env.target site.scope site.use)
      (Tick.sites ⟨[o.trigger.names], [], []⟩ o.statement)
      (Tick.sites ⟨[(o.alphaRename m env.members).trigger.names], [], []⟩ (o.alphaRename m env.members).statement) := by
    have hmap := heq.uses
    unfold useTargets at hmap
    rw [← List.forall₂_eq_eq_eq, List.forall₂_map_left_iff, List.forall₂_map_right_iff] at hmap
    exact hmap.flip
  intro site hsite g huse
  obtain ⟨site', -, hrenamed, htarget⟩ := exists_both h.sites huses hsite
  exact (h.name_iff hsite hrenamed huse).1 htarget g huse

/-- A local does not get the name of a formal that keeps its name. -/
theorem AlphaEquivalent.kept (h : AlphaWellFormed env m o)
    (heq : AlphaEquivalent env m o (o.alphaRename m env.members)) {n y : String}
    (hn : (n, n) ∈ (m.withFormals o.trigger).names.zip (newFormals m env.members o))
    (hnot : n ∉ o.statement.variableNames) (hy : y ∈ o.statement.variableNames) :
    freshLocal m env.members o y ≠ n := by
  intro hfresh
  have hok := h.formalsOk
  have hformal := (List.of_mem_zip hn).1
  have hself : newName m env.members o n = n := zip_unique_right hok.distinct (newName_formal hok hformal hnot) hn
  have hsame : newName m env.members o y = newName m env.members o n := by rw [newName_local hy, hfresh, hself]
  have hdistinct := heq.distinct
  rw [names_alphaRename] at hdistinct
  by_cases hyformal : y ∈ (m.withFormals o.trigger).names
  · obtain rfl := List.inj_on_of_nodup_map hdistinct hyformal hformal hsame
    exact hnot hy
  · -- the first declaration of the local has the formal around
    obtain ⟨d, hd, hname, ls, hls, hfirst⟩ := @exists_declaration _ y [(m.withFormals o.trigger).names] h.body hy
    obtain ⟨d', -, ⟨⟨ls', hls', hframes, hlocals⟩, -, hnew⟩, hshadow⟩ := exists_both h.declarations heq.declarations hd
    obtain rfl : ls = ls' := List.append_cancel_right (hls.symm.trans hls')
    unfold SameShadow at hshadow
    have hnone : Scopes.find (ls.map (List.map (newName m env.members o))) (newName m env.members o y) = none := by
      rw [Scopes.find_eq_none_iff]
      intro frame hframe hmem
      obtain ⟨old, hold, rfl⟩ := List.mem_map.1 hframe
      obtain ⟨z, hz, hzeq⟩ := List.mem_map.1 hmem
      rw [newName_local hy, newName_local (hlocals old hold z hz)] at hzeq
      rw [freshLocal_inj (hlocals old hold z hz) hy hzeq] at hz
      exact hfirst old hold hz
    have hmem : newName m env.members o y ∈ (m.withFormals o.trigger).names.map (newName m env.members o) :=
      List.mem_map.2 ⟨n, hformal, hsame.symm⟩
    obtain ⟨j, hj⟩ : ∃ j, ((m.withFormals o.trigger).names.map (newName m env.members o)).idxOf?
        (newName m env.members o y) = some j := by
      cases hidx : ((m.withFormals o.trigger).names.map (newName m env.members o)).idxOf?
        (newName m env.members o y) with
      | some j => exact ⟨j, rfl⟩
      | none => exact absurd hmem (List.idxOf?_eq_none_iff.1 hidx)
    have hplace := hshadow (ls.length, j) (by
      rw [hnew, hname, hframes, List.append_assoc, Scopes.find_append, hnone, List.singleton_append, Scopes.find, hj]
      simp)
    rw [hname, hls, List.append_assoc] at hplace
    have hentry := Scopes.entry_of_find hplace
    rw [← Nat.add_zero ls.length, Scopes.entry_append] at hentry
    exact hyformal (List.mem_of_getElem? hentry)

/-- A renamed local has the declarations around that it had. -/
theorem DeclarationRenamed.sameShadow {f : String → String} {locals names members : List String} {D : String → Prop}
    {d d' : Declaration} (hinj : ∀ x y, D x → D y → f x = f y → x = y) (hmembers : ∀ x, D x → f x ∉ members)
    (hlocals : ∀ x ∈ locals, D x) (hnames : ∀ x ∈ names, D x)
    (h : DeclarationRenamed f locals names (names.map f) d d') : SameShadow members d d' := by
  obtain ⟨⟨ls, hls, hls', hframes⟩, hlocal, hname⟩ := h
  have hall : ∀ frame ∈ ls ++ [names], ∀ y ∈ frame, D y := by
    intro frame hframe y hy
    rcases List.mem_append.1 hframe with hframe | hframe
    · exact hlocals y (hframes frame hframe y hy)
    · rw [List.mem_singleton.1 hframe] at hy
      exact hnames y hy
  have hmap := Scopes.find_map hinj hall (hlocals _ hlocal)
  rw [List.map_append] at hmap
  have hsingle : [names.map f] = [names].map (List.map f) := rfl
  have hnone : Scopes.find [members] (f d.2) = none :=
    Scopes.find_eq_none_iff.2 (by simpa using hmembers _ (hlocals _ hlocal))
  intro place hplace
  rw [hls', hname, hsingle, Scopes.find_append, hmap, hnone, Option.map_none, Option.or_none] at hplace
  rw [hls, Scopes.find_append, hplace, Option.some_or]

/-- The formals have the names of the event, each with a suffix. -/
theorem AlphaSafe.formals (h : AlphaSafe env m o) (hok : FormalsOk m o) :
    List.Forall₂ Suffixed ((m.withFormals o.trigger).names.map (newName m env.members o))
      (m.eventFormals o.trigger) := by
  rw [List.forall₂_map_left_iff, List.forall₂_iff_zip]
  refine ⟨hok.length, ?_⟩
  intro n e hmem
  by_cases hlocal : n ∈ o.statement.variableNames
  · rw [newName_local hlocal]
    exact h.shadowed n e hmem hlocal
  · have hnew : (n, newName m env.members o n) ∈ _ := newName_formal hok (List.of_mem_zip hmem).1 hlocal
    obtain ⟨i, hi, heq⟩ := List.mem_iff_getElem.1 hmem
    rw [List.getElem_zip, Prod.mk.injEq] at heq
    obtain ⟨rfl, rfl⟩ := heq
    have hlength : (newFormals m env.members o).length = _ := length_newFormals
    have hi' : i < (m.eventFormals o.trigger).length := by
      rw [List.length_zip, hok.length, min_self] at hi
      exact hi
    have hiformal : i < (m.withFormals o.trigger).names.length := by rwa [hok.length]
    have hinew : i < (newFormals m env.members o).length := by rwa [hlength]
    have hplace : ((m.withFormals o.trigger).names[i], (newFormals m env.members o)[i]) ∈
        (m.withFormals o.trigger).names.zip (newFormals m env.members o) := by
      rw [List.mem_iff_getElem]
      exact ⟨i, by rw [List.length_zip, hok.length, hlength, min_self]; exact hi', by simp⟩
    rw [zip_unique_right hok.distinct hnew hplace]
    exact (take_refresh env.members (m.eventFormals o.trigger)).1.get hinew hi'

/-- The renaming is right just when no name that `occupied` misses is given to a local. -/
theorem alphaRename_iff (env : Env) (m : Dezyne.Model) (o : CanonicalOn) (h : AlphaWellFormed env m o) :
    AlphaEquivalent env m o (o.alphaRename m env.members) ↔ AlphaSafe env m o := by
  have hok := h.formalsOk
  constructor
  · intro heq
    refine ⟨fun n hn hnot y hy => heq.kept h hn hnot hy, ?_, heq.used h⟩
    intro n e hmem hlocal
    have hformals := heq.formals
    rw [names_alphaRename, List.forall₂_map_left_iff, List.forall₂_iff_zip] at hformals
    have hsuffixed := hformals.2 hmem
    rwa [newName_local hlocal] at hsuffixed
  · intro hsafe
    have hinj := newName_inj hok hsafe.kept
    have hmembers : ∀ x, Named m o x → newName m env.members o x ∉ env.members :=
      fun x hx => newName_not_member hok hx
    have hlocals : ∀ x ∈ o.statement.variableNames, Named m o x := fun x hx => .inl hx
    have hnames : ∀ x ∈ (m.withFormals o.trigger).names, Named m o x := fun x hx => .inr hx
    refine ⟨⟨_, statement_alphaRename m env.members o⟩, ?_, ?_, ?_, ?_⟩
    · rw [names_alphaRename]
      exact hok.distinct.map_on fun x hx y hy heq => hinj x y (hnames x hx) (hnames y hy) heq
    · rw [names_alphaRename]
      exact hsafe.formals hok
    · exact h.declarations.imp fun d d' hd => hd.sameShadow hinj hmembers hlocals hnames
    · unfold useTargets
      rw [← List.forall₂_eq_eq_eq, List.forall₂_map_left_iff, List.forall₂_map_right_iff]
      refine List.Forall₂.flip ?_
      have hpairs : List.Forall₂ (fun site site' => env.target site'.scope site'.use = env.target site.scope site.use)
          (Tick.sites ⟨[o.trigger.names], [], []⟩ o.statement)
          (Tick.sites ⟨[(o.alphaRename m env.members).trigger.names], [], []⟩
            (o.alphaRename m env.members).statement) := by
        rw [List.forall₂_iff_get]
        refine ⟨h.sites.length_eq, fun i hi hi' => ?_⟩
        have hrenamed := h.sites.get hi hi'
        have hsite := List.get_mem (Tick.sites ⟨[o.trigger.names], [], []⟩ o.statement) ⟨i, hi⟩
        generalize (Tick.sites ⟨[o.trigger.names], [], []⟩ o.statement).get ⟨i, hi⟩ = site at hrenamed hsite
        generalize (Tick.sites ⟨[(o.alphaRename m env.members).trigger.names], [], []⟩
          (o.alphaRename m env.members).statement).get ⟨i, hi'⟩ = site' at hrenamed
        have hresolves := h.resolves site hsite
        cases huse : site.use with
        | var x =>
          have hsome : (env.target site.scope site.use).isSome := by
            obtain ⟨target, htarget, -⟩ := hresolves
            rw [htarget, Option.isSome_some]
          rw [← huse]
          exact var_target hinj hmembers hlocals hnames hok.given hrenamed huse hsome
        | shared g x => rw [← huse]; exact (h.name_iff hsite hrenamed (.inr ⟨x, huse⟩)).2 (hsafe.used site hsite)
        | call ids =>
          by_cases hids : ∃ g, ids = [g]
          · obtain ⟨g, rfl⟩ := hids
            rw [← huse]
            exact (h.name_iff hsite hrenamed (.inl huse)).2 (hsafe.used site hsite)
          · have hids : ∀ g, ids ≠ [g] := fun g hg => hids ⟨g, hg⟩
            obtain ⟨scope, -, huse'⟩ := hrenamed
            have hsame : renameUse (newName m env.members o) scope (.call ids) = .call ids := rfl
            rw [huse', huse, hsame, target_call env _ hids, target_call env _ hids]
      exact hpairs

end

/-! ## The condition can fail -/

/-- A component with a provides port that has an in-event with one formal. -/
def oneFormal (formal : String) : Dezyne.Model := .component [⟨"p", true, [⟨"e", true, false, [formal]⟩]⟩]

/-- A behavior with one variable. -/
def oneMember : Env := ⟨["y"], [], [], [], [], [], []⟩

def onEvent (formal : String) (ss : List Stmt) : CanonicalOn :=
  ⟨false, .true, ⟨some "p", "e", [.formal formal]⟩, .compound ss⟩

/-- `on p.e(t): {int a = t;}` -/
def declaringOn : CanonicalOn := onEvent "t" [.variableDecl ["int"] "a" (.var "t")]

theorem declaringOn_wellFormed : AlphaWellFormed oneMember (oneFormal "a") declaringOn where
  distinct := by decide
  count := by decide
  eventDistinct := by decide
  body := by simp [declaringOn, onEvent, Body, Body.elements]
  resolves := by
    intro site hsite
    simp only [declaringOn, onEvent, sites, sites.elements, uses, List.map_cons, List.map_nil, List.append_nil,
      List.mem_singleton] at hsite
    subst hsite
    exact ⟨.var (1, 0), by decide, fun ids h => by cases h⟩

/-- The local makes place for the formal. -/
theorem alphaRename_declaring :
    AlphaEquivalent oneMember (oneFormal "a") declaringOn
      (declaringOn.alphaRename (oneFormal "a") oneMember.members) := by
  have hnew : ((oneFormal "a").withFormals declaringOn.trigger).names.zip
      (newFormals (oneFormal "a") oneMember.members declaringOn) = [("t", "a")] := by decide
  refine (alphaRename_iff _ _ _ declaringOn_wellFormed).2 ⟨?_, ?_, ?_⟩
  · intro n hn
    simp only [hnew, List.mem_singleton, Prod.mk.injEq] at hn
    exact absurd (hn.1.symm.trans hn.2) (by decide)
  · intro n e hn hlocal
    have hformal : n = "t" := by simpa [declaringOn, onEvent, Dezyne.Model.withFormals, Trigger.names, Formal.name]
      using (List.of_mem_zip hn).1
    rw [hformal] at hlocal
    exact absurd hlocal (by decide)
  · intro site hsite g huse
    simp only [declaringOn, onEvent, sites, sites.elements, uses, List.map_cons, List.map_nil, List.append_nil,
      List.mem_singleton] at hsite
    subst hsite
    simp [Scope.site, inside] at huse

/-- `on p.e(tx): {{int t = 0; y = tx;} {int t = 0;}}` -/
def siblingsOn : CanonicalOn := onEvent "tx"
  [.compound [.variableDecl ["int"] "t" (.literal (.int 0)), .assign "y" (.var "tx")],
    .compound [.variableDecl ["int"] "t" (.literal (.int 0))]]

theorem siblingsOn_wellFormed : AlphaWellFormed oneMember (oneFormal "tx") siblingsOn where
  distinct := by decide
  count := by decide
  eventDistinct := by decide
  body := by simp [siblingsOn, onEvent, Body, Body.elements]
  resolves := by
    intro site hsite
    simp only [siblingsOn, onEvent, sites, sites.elements, uses, List.map_cons, List.map_nil, List.append_nil] at hsite
    simp at hsite
    rcases hsite with rfl | rfl
    · exact ⟨.var (3, 0), by decide, fun ids h => by cases h⟩
    · exact ⟨.var (2, 0), by decide, fun ids h => by cases h⟩

/-- The locals get a name with a suffix, which the formal that keeps its name already has. -/
theorem alphaRename_siblings : ¬ ∀ (env : Env) (m : Dezyne.Model) (o : CanonicalOn), AlphaWellFormed env m o →
    AlphaEquivalent env m o (o.alphaRename m env.members) := by
  intro h
  have huses := (h oneMember (oneFormal "tx") siblingsOn siblingsOn_wellFormed).uses
  exact absurd huses (by decide)

end Dezyne.Alpha
