import Dezyne.Compounds
/-!
# Names and compounds that are left out

A compound that is left out is no scope any more. When a declaration is all
there is in it, the variable gets in scope in the compound around it, for the
statements that follow. Declarations are told apart by their place in the text,
which `normalize:compounds` keeps.
-/

namespace Dezyne.Compounds

open Alpha (Body body_elements)
open Tick (Use uses variablesOf)

/-! ## What names refer to -/

/-- What a use refers to: the declaration at a place, a member, or what is declared outside the behavior; `hidden` when
a variable in a scope around has the name of a port or a function. -/
inductive Ref where
  | var (name : String) (place : Option Nat)
  | shared (port name : String)
  | call (function : ScopeName)
  | hidden
deriving DecidableEq

/-- The variables and formals in scope with their places, the nearest first, and the names in the scopes around. -/
structure Names where
  locals : List (String × Nat)
  declared : List String

namespace Names

def refer (names : Names) : Use → Ref
  | .var x => .var x (names.locals.lookup x)
  | .shared p x => if p ∈ names.declared then .hidden else .shared p x
  | .call [f] => if f ∈ names.declared then .hidden else .call [f]
  | .call ids => .call ids

def declare (names : Names) (declared : List String) : Names :=
  { names with declared := declared ++ names.declared }

def bind (names : Names) (locals : List (String × Nat)) : Names :=
  { names with locals := locals ++ names.locals }

end Names

/-- The declarations in a statement. -/
def count : Stmt → Nat
  | .compound ss | .declarativeCompound ss => elements ss
  | .guard _ s | .blocking s | .ifThen _ s | .defer _ s => count s
  | .on ts s => (ts.flatMap Trigger.names).length + count s
  | .ifElse _ s t => count s + count t
  | .variableDecl _ _ _ => 1
  | _ => 0
where
  elements : List Stmt → Nat
  | [] => 0
  | s :: ss => count s + elements ss

/-- The uses in a statement itself. -/
def direct : Stmt → List Use
  | .guard e _ | .invariant e | .variableDecl _ _ e | .ifThen e _ | .ifElse e _ _ | .reply _ e | .returnStmt e => uses e
  | .assign x e => .var x :: uses e
  | .action _ _ as => as.flatMap uses
  | .call f as => .call f :: as.flatMap uses
  | .defer as _ => (as.getD []).flatMap uses
  | _ => []

/-- What the uses in a statement refer to; `n` declarations are before it. -/
def refs (n : Nat) (names : Names) : Stmt → List Ref
  | .compound ss => elements n (names.declare (variablesOf (.compound ss))) [] ss
  | .declarativeCompound ss => each n names ss
  | .guard e s => (direct (.guard e s)).map names.refer ++ refs n names s
  | .on ts s =>
    let formals := ts.flatMap Trigger.names
    refs (n + formals.length) (names.bind (formals.zipIdx n)) s
  | .blocking s => refs n names s
  | .ifThen e s =>
    let names := names.declare (variablesOf s)
    (direct (.ifThen e s)).map names.refer ++ refs n names s
  | .ifElse e s t =>
    let names := names.declare (variablesOf s ++ variablesOf t)
    (direct (.ifElse e s t)).map names.refer ++ refs n names s ++ refs (n + count s) names t
  | .defer as s =>
    let names := names.declare s.variableNames
    (direct (.defer as s)).map names.refer ++ refs n names s
  | s => (direct s).map names.refer
where
  /-- The variables before a statement are in scope. -/
  elements (n : Nat) (names : Names) (before : List (String × Nat)) : List Stmt → List Ref
  | [] => []
  | s :: ss => refs n (names.bind before) s ++ elements (n + count s) names (before ++ s.declares?.map (·, n)) ss
  each (n : Nat) (names : Names) : List Stmt → List Ref
  | [] => []
  | s :: ss => refs n names s ++ each (n + count s) names ss

/-! ## Scopes with the compounds that are left out -/

/-- A statement of which nothing is left. -/
def vacuous : Stmt → Bool
  | .compound ss => elements ss
  | .skip => true
  | _ => false
where
  elements : List Stmt → Bool
  | [] => true
  | s :: ss => vacuous s && elements ss

/-- Does a compound stand? -/
def stands (wrap : Bool) (ss : List Stmt) : Bool := wrap || (ss.filter (!vacuous ·)).length != 1

/-- What a statement declares in the compound around it, and whether it is in a compound that is left out. -/
def given (wrap : Bool) : Stmt → List (String × Bool)
  | .variableDecl _ x _ => [(x, false)]
  | .compound ss => if stands wrap ss then [] else (elements ss).map fun g => (g.1, true)
  | _ => []
where
  elements : List Stmt → List (String × Bool)
  | [] => []
  | s :: ss => given wrap s ++ elements ss

/-- The declarations in scope, each with whether it is in a compound that is left out, and the names in the scopes
around with all compounds and with those that stand. -/
structure Scope where
  locals : List (String × Nat × Bool)
  declared : List String
  kept : List String

namespace Scope

/-- The names in scope, with (`all`) and without the compounds that are left out. -/
def names (sc : Scope) (all : Bool) : Names where
  locals := (sc.locals.filter fun e => all || !e.2.2).map fun e => (e.1, e.2.1)
  declared := if all then sc.kept else sc.declared

def declare (sc : Scope) (declared : List String) : Scope :=
  { sc with declared := declared ++ sc.declared, kept := declared ++ sc.kept }

def bind (sc : Scope) (locals : List (String × Nat × Bool)) : Scope :=
  { sc with locals := locals ++ sc.locals }

/-- The scope of the elements of a compound. -/
def enter (sc : Scope) (wrap : Bool) (ss : List Stmt) : Scope :=
  { sc with
    declared := variablesOf (.compound ss) ++ sc.declared
    kept := (if stands wrap ss then (ss.flatMap (given wrap)).map Prod.fst else []) ++ sc.kept }

/-- The scope of a statement that may get a compound around it. -/
def wrapped (sc : Scope) (wrap : Bool) (p : Parent) (s : Stmt) : Scope :=
  { sc with kept := (if wrap ∧ p = .declarative then s.declares? else []) ++ sc.kept }

end Scope

/-- The uses in a statement with their scopes. Nothing is left out below an if or a defer. -/
def sites (wrap : Bool) (n : Nat) (sc : Scope) : Stmt → List (Scope × Use)
  | .compound ss => elements wrap n (sc.enter wrap ss) [] ss
  | .declarativeCompound ss => each wrap n sc ss
  | .guard e s => (direct (.guard e s)).map (sc, ·) ++ sites wrap n (sc.wrapped wrap .declarative s) s
  | .on ts s =>
    let formals := ts.flatMap Trigger.names
    sites wrap (n + formals.length)
      ((sc.bind ((formals.zipIdx n).map fun e => (e.1, e.2, false))).wrapped wrap .declarative s) s
  | .blocking s => sites wrap n (sc.wrapped wrap .declarative s) s
  | .ifThen e s =>
    let sc := sc.declare (variablesOf s)
    (direct (.ifThen e s)).map (sc, ·) ++ sites true n sc s
  | .ifElse e s t =>
    let sc := sc.declare (variablesOf s ++ variablesOf t)
    (direct (.ifElse e s t)).map (sc, ·) ++ sites true n sc s ++ sites true (n + count s) sc t
  | .defer as s =>
    let sc := sc.declare s.variableNames
    (direct (.defer as s)).map (sc, ·) ++ sites true n sc s
  | s => (direct s).map (sc, ·)
where
  elements (wrap : Bool) (n : Nat) (sc : Scope) (before : List (String × Nat × Bool)) : List Stmt → List (Scope × Use)
  | [] => []
  | s :: ss =>
    sites wrap n (sc.bind before) s ++
      elements wrap (n + count s) sc (before ++ (given wrap s).map fun g => (g.1, n, g.2)) ss
  each (wrap : Bool) (n : Nat) (sc : Scope) : List Stmt → List (Scope × Use)
  | [] => []
  | s :: ss => sites wrap n (sc.wrapped wrap .declarative s) s ++ each wrap (n + count s) sc ss

/-- The nearest declaration of the name of a variable is in no compound that is left out, and no declaration around has
the name of a port or function. -/
def Uncaptured (site : Scope × Use) : Prop :=
  match site.2 with
  | .var x => ∀ e, site.1.locals.lookup x = some e → e.2 = false
  | .shared g _ | .call [g] => g ∉ site.1.kept
  | .call _ => True

section
variable {wrap all : Bool} {p : Parent} {s t : Stmt} {ss ts : List Stmt} {n : Nat} {sc : Scope} {names : Names}

/-! ## What is left out -/

theorem vacuous_elements (ss : List Stmt) : vacuous.elements ss = ss.all vacuous := by
  induction ss with
  | nil => rfl
  | cons s ss ih => rw [vacuous.elements, ih, List.all_cons]

theorem given_elements (wrap : Bool) (ss : List Stmt) : given.elements wrap ss = ss.flatMap (given wrap) := by
  induction ss with
  | nil => rfl
  | cons s ss ih => rw [given.elements, ih, List.flatMap_cons]

theorem count_elements (ss : List Stmt) : count.elements ss = (ss.map count).sum := by
  induction ss with
  | nil => rfl
  | cons s ss ih => rw [count.elements, ih, List.map_cons, List.sum_cons]

/-- The elements of a compound are all declarative or all imperative. -/
theorem Tree.cases (h : Tree (.compound ss)) : (∀ s ∈ ss, s.declarative ∧ Tree s) ∧ (Stmt.compound ss).declarative ∨
    (∀ s ∈ ss, Body s) ∧ (Stmt.compound ss).declarative = false := by
  rw [Tree] at h
  split at h
  · next hd => exact .inl ⟨tree_elements.1 h, hd⟩
  · next hd => exact .inr ⟨body_elements.1 h, by simpa using hd⟩

theorem tree_of_body (h : Body s) : Tree s := by
  cases s with
  | compound ss => rw [Tree, if_neg (by simp [not_declarative h])]; exact h
  | declarativeCompound | guard | on | blocking | invariant | declarativeIllegal => cases h
  | _ => exact h

theorem Tree.mem (h : Tree (.compound ss)) : ∀ s ∈ ss, Tree s := by
  rcases h.cases with ⟨hss, -⟩ | ⟨hss, -⟩
  · exact fun s hs => (hss s hs).2
  · exact fun s hs => tree_of_body (hss s hs)

theorem not_vacuous (h : s.declarative) : vacuous s = false := by
  induction s with
  | compound ss ih =>
    cases ss with
    | nil => cases h
    | cons s ss => rw [vacuous, vacuous_elements, List.all_cons, ih s (by simp) h, Bool.false_and]
  | skip => cases h
  | _ => rfl

theorem normalize_declarative (h : (Stmt.compound ss).declarative) (hp : p ≠ .behavior) (hf : p ≠ .function) :
    normalizeCompound wrap p (.compound ss) =
      unwrap wrap .declarativeCompound (ss.map (normalizeCompound wrap .compound)) := by
  rw [normalizeCompound, if_neg hp, if_pos ⟨hf, h⟩, elements_eq_map]

/-- An element is dropped just when nothing is left of it. -/
theorem stays_normalize (h : Tree s) : stays (normalizeCompound wrap .compound s) = !vacuous s := by
  induction s with
  | compound ss ih =>
    rcases h.cases with ⟨hss, hd⟩ | ⟨hss, hd⟩
    · rw [not_vacuous hd, normalize_declarative hd (by simp) (by simp)]
      obtain _ | ⟨s, _ | ⟨s', rest⟩⟩ := ss
      · cases hd
      · cases wrap with
        | true => rfl
        | false => exact (ih s (by simp) (h.mem s (by simp))).trans (by rw [not_vacuous (hss s (by simp)).1])
      · rfl
    · have hall : ((ss.map (normalizeCompound wrap .compound)).filter stays = []) ↔ vacuous (.compound ss) := by
        rw [vacuous, vacuous_elements, List.filter_eq_nil_iff, List.forall_mem_map, List.all_eq_true]
        refine forall₂_congr fun s hs => ?_
        rw [ih s hs (h.mem s hs)]
        simp
      rw [normalizeCompound, if_neg (by simp), if_neg (by simp [hd]), elements_eq_map]
      split
      · next hnil => rw [hall.1 hnil]; rfl
      · next hcons =>
        have hvacuous : vacuous (.compound ss) = false := by
          rw [← Bool.not_eq_true, ← hall]
          exact hcons
        rw [hvacuous]
        rcases hrest : (ss.map (normalizeCompound wrap .compound)).filter stays with _ | ⟨t, _ | ⟨t', rest⟩⟩
        · exact absurd hrest hcons
        · have ht : t ∈ (ss.map (normalizeCompound wrap .compound)).filter stays := by rw [hrest]; simp
          cases wrap with
          | true => rfl
          | false => exact (List.mem_filter.1 ht).2
        · rfl
  | guard | on | blocking => rfl
  | declarativeCompound => cases h
  | _ => simp [normalizeCompound, vacuous, stays]

/-- The compound of a declarative or imperative compound that stands. -/
def kind (ss : List Stmt) : List Stmt → Stmt :=
  if (Stmt.compound ss).declarative then .declarativeCompound else .compound

/-- The elements that stay are in a compound, unless there is one or none. -/
theorem normalize_compound (h : Tree (.compound ss)) (hp : p ≠ .behavior)
    (hf : p = .function → (Stmt.compound ss).declarative = false) :
    normalizeCompound wrap p (.compound ss) = match (ss.map (normalizeCompound wrap .compound)).filter stays with
      | [] => .skip
      | rest => unwrap wrap (kind ss) rest := by
  rcases h.cases with ⟨hss, hd⟩ | ⟨-, hd⟩
  · have hstays : (ss.map (normalizeCompound wrap .compound)).filter stays =
        ss.map (normalizeCompound wrap .compound) := by
      rw [List.filter_eq_self, List.forall_mem_map]
      intro s hs
      rw [stays_normalize (h.mem s hs), not_vacuous (hss s hs).1, Bool.not_false]
    have hp' : p ≠ .function := fun hpf => by rw [hf hpf] at hd; cases hd
    rw [normalize_declarative hd hp hp', hstays, kind, if_pos hd]
    cases ss with
    | nil => cases hd
    | cons s ss => rfl
  · have hkind : kind ss = .compound := if_neg (by simp [hd])
    rw [hkind, ← elements_eq_map]
    exact (if_neg hp).trans (if_neg (by simp [hd]))

theorem length_filter_stays (h : ∀ s ∈ ss, Tree s) :
    ((ss.map (normalizeCompound wrap .compound)).filter stays).length = (ss.filter (!vacuous ·)).length := by
  rw [List.filter_map, List.length_map]
  congr 1
  exact List.filter_congr fun s hs => stays_normalize (h s hs)

/-- What goes for the compound and for its only element goes for what is left of a compound. -/
theorem normalize_compound_cases {P : Stmt → Prop} (h : Tree (.compound ss)) (hp : p ≠ .behavior)
    (hf : p = .function → (Stmt.compound ss).declarative = false)
    (hnone : (ss.map (normalizeCompound wrap .compound)).filter stays = [] → stands wrap ss → P .skip)
    (hone : ∀ t, (ss.map (normalizeCompound wrap .compound)).filter stays = [t] → stands wrap ss = false → P t)
    (hrest : stands wrap ss → P (kind ss ((ss.map (normalizeCompound wrap .compound)).filter stays))) :
    P (normalizeCompound wrap p (.compound ss)) := by
  have hlength := @length_filter_stays wrap ss h.mem
  rw [normalize_compound h hp hf]
  match hmatch : (ss.map (normalizeCompound wrap .compound)).filter stays with
  | [] =>
    rw [hmatch, List.length_nil] at hlength
    exact hnone hmatch (by simp [stands, ← hlength])
  | [t] =>
    rw [hmatch, List.length_singleton] at hlength
    cases wrap with
    | true => rw [hmatch] at hrest; exact hrest rfl
    | false => exact hone t hmatch (by simp [stands, ← hlength])
  | t :: t' :: rest =>
    rw [hmatch, List.length_cons, List.length_cons] at hlength
    rw [hmatch] at hrest
    exact hrest (by simp [stands, ← hlength])

theorem declares_not_stays (h : stays s = false) : s.declares? = [] := by
  unfold stays at h
  split at h
  · rfl
  · rfl
  · cases h

theorem count_not_stays (h : stays s = false) : count s = 0 := by
  unfold stays at h
  split at h
  · rfl
  · rfl
  · cases h

theorem refs_not_stays (h : stays s = false) : refs n names s = [] := by
  unfold stays at h
  split at h
  · rfl
  · rfl
  · cases h

theorem flatMap_declares_stays (ss : List Stmt) :
    (ss.filter stays).flatMap Stmt.declares? = ss.flatMap Stmt.declares? := by
  induction ss with
  | nil => rfl
  | cons s ss ih =>
    cases h : stays s with
    | true => rw [List.filter_cons_of_pos h, List.flatMap_cons, List.flatMap_cons, ih]
    | false => rw [List.filter_cons_of_neg (by simp [h]), List.flatMap_cons, declares_not_stays h, ih, List.nil_append]

theorem count_stays (ss : List Stmt) : count.elements (ss.filter stays) = count.elements ss := by
  induction ss with
  | nil => rfl
  | cons s ss ih =>
    cases h : stays s with
    | true => rw [List.filter_cons_of_pos h, count.elements, count.elements, ih]
    | false => rw [List.filter_cons_of_neg (by simp [h]), count.elements, count_not_stays h, ih, Nat.zero_add]

theorem refs_stays (before : List (String × Nat)) (ss : List Stmt) :
    refs.elements n names before (ss.filter stays) = refs.elements n names before ss := by
  induction ss generalizing n before with
  | nil => rfl
  | cons s ss ih =>
    cases h : stays s with
    | true => rw [List.filter_cons_of_pos h, refs.elements, refs.elements, ih]
    | false =>
      rw [List.filter_cons_of_neg (by simp [h]), refs.elements, refs_not_stays h, count_not_stays h,
        declares_not_stays h, ih]
      simp

theorem count_kind (ss ts : List Stmt) : count (kind ss ts) = count.elements ts := by
  unfold kind
  split <;> rfl

/-- The declarations are counted the same. -/
theorem count_normalize (h : Tree s) (hp : p ≠ .behavior) (hf : p = .function → s.declarative = false) :
    count (normalizeCompound wrap p s) = count s := by
  induction s generalizing p with
  | compound ss ih =>
    have helements : count.elements ((ss.map (normalizeCompound wrap .compound)).filter stays) = count.elements ss := by
      rw [count_stays, count_elements, count_elements, List.map_map]
      congr 1
      exact List.map_congr_left fun s hs => ih s hs (h.mem s hs) (by simp) (by simp)
    refine @normalize_compound_cases wrap p ss (fun t => count t = count (.compound ss)) h hp hf ?_ ?_ ?_
    · intro hnone _
      rw [hnone] at helements
      exact helements
    · intro t hone _
      rw [hone] at helements
      exact helements
    · intro _
      rw [count_kind, helements]
      rfl
  | guard e s ih => exact ih h (by simp) (by simp)
  | on us s ih => exact congrArg ((us.flatMap Trigger.names).length + ·) (ih h (by simp) (by simp))
  | blocking s ih => exact ih h (by simp) (by simp)
  | declarativeCompound => cases h
  | _ =>
    unfold normalizeCompound
    split <;> simp [count, count.elements]

/-! ## What a compound gives to the one around it -/

/-- The variables that an element declares when compounds are left out. -/
theorem given_normalize (h : Tree s) :
    (given wrap s).map Prod.fst = (normalizeCompound wrap .compound s).declares? := by
  induction s with
  | compound ss ih =>
    have helements : ((ss.map (normalizeCompound wrap .compound)).filter stays).flatMap Stmt.declares? =
        (given.elements wrap ss).map Prod.fst := by
      rw [flatMap_declares_stays, given_elements, List.map_flatMap, List.flatMap_map]
      exact List.flatMap_congr fun s hs => (ih s hs (h.mem s hs)).symm
    refine @normalize_compound_cases wrap .compound ss
      (fun t => (given wrap (.compound ss)).map Prod.fst = t.declares?) h (by simp) (by simp) ?_ ?_ ?_
    · intro _ hstands
      rw [given, if_pos hstands]
      rfl
    · intro t hone hstands
      rw [hone, List.flatMap_singleton] at helements
      rw [given, if_neg (by simp [hstands]), List.map_map, helements]
      rfl
    · intro hstands
      rw [given, if_pos hstands]
      unfold kind
      split <;> rfl
  | guard | on | blocking => rfl
  | declarativeCompound => cases h
  | _ => simp [normalizeCompound, given, Stmt.declares?]

/-- Those that are not in a compound that is left out. -/
theorem given_filter (s : Stmt) : ((given wrap s).filter (!·.2)).map Prod.fst = s.declares? := by
  cases s with
  | compound ss =>
    rw [given]
    split
    · rfl
    · simp [Stmt.declares?]
  | _ => rfl

theorem given_true (s : Stmt) : (given true s).map Prod.fst = s.declares? := by
  cases s <;> rfl

theorem given_true_snd (s : Stmt) : ∀ g ∈ given true s, g.2 = false := by
  cases s <;> simp [given, stands]

theorem given_declarative (h : s.declarative) (ht : Tree s) : given wrap s = [] := by
  induction s with
  | compound ss ih =>
    rcases ht.cases with ⟨hss, -⟩ | ⟨-, hd⟩
    · have hnone : given.elements wrap ss = [] := by
        rw [given_elements, List.flatMap_eq_nil_iff]
        exact fun s hs => ih s hs (hss s hs).1 (hss s hs).2
      rw [given, hnone]
      split <;> rfl
    · rw [hd] at h
      cases h
  | variableDecl => cases h
  | _ => rfl

/-! ## The original -/

section
variable {before : List (String × Nat × Bool)}

/-- The names that are added to a scope. -/
def view (all : Bool) (before : List (String × Nat × Bool)) : List (String × Nat) :=
  (before.filter fun e => all || !e.2.2).map fun e => (e.1, e.2.1)

theorem names_bind (all : Bool) (sc : Scope) (before : List (String × Nat × Bool)) :
    (sc.bind before).names all = (sc.names all).bind (view all before) := by
  simp [Scope.names, Scope.bind, Names.bind, view]

theorem names_declare (all : Bool) (sc : Scope) (declared : List String) :
    (sc.declare declared).names all = (sc.names all).declare declared := by
  cases all <;> rfl

theorem names_wrapped (h : all → wrap = false ∨ p ≠ .declarative) : (sc.wrapped wrap p s).names all = sc.names all := by
  cases all with
  | false => rfl
  | true =>
    have hnot : ¬ (wrap = true ∧ p = .declarative) := by
      rintro ⟨rfl, rfl⟩
      simp at h
    simp [Scope.names, Scope.wrapped, hnot]

theorem names_enter (h : all → wrap) (sc : Scope) (ss : List Stmt) :
    (sc.enter wrap ss).names all = (sc.names all).declare (variablesOf (.compound ss)) := by
  cases all with
  | false => rfl
  | true =>
    obtain rfl := h rfl
    have hgiven : (ss.flatMap (given true)).map Prod.fst = ss.flatMap Stmt.declares? := by
      rw [List.map_flatMap]
      exact List.flatMap_congr fun s _ => given_true s
    simp [Scope.names, Scope.enter, Names.declare, stands, hgiven, variablesOf]

theorem view_given (h : all → wrap) (n : Nat) (before : List (String × Nat × Bool)) (s : Stmt) :
    view all (before ++ (given wrap s).map fun g => (g.1, n, g.2)) = view all before ++ s.declares?.map (·, n) := by
  have hgiven : view all ((given wrap s).map fun g => (g.1, n, g.2)) = s.declares?.map (·, n) := by
    rw [← @given_filter wrap s, view, List.filter_map, List.map_map, List.map_map]
    congr 1
    apply List.filter_congr
    intro g hg
    cases all with
    | false => rfl
    | true =>
      obtain rfl := h rfl
      simp [given_true_snd s g hg]
  rw [view, List.filter_append, List.map_append, ← view, ← view, hgiven]

theorem view_formals (all : Bool) (n : Nat) (formals : List String) :
    view all ((formals.zipIdx n).map fun e => (e.1, e.2, false)) = formals.zipIdx n := by
  simp [view, List.filter_map, Function.comp_def]

/-- A use in its scope. -/
def refer (all : Bool) (site : Scope × Use) : Ref := (site.1.names all).refer site.2

theorem map_refer (all : Bool) (sc : Scope) (us : List Use) :
    (us.map (sc, ·)).map (refer all) = us.map (sc.names all).refer := by
  rw [List.map_map]
  rfl

/-- The names in a statement as it is, in a scope with or without the compounds that are left out around it. -/
theorem refs_eq_map (h : Tree s) (hall : all → wrap ∧ Body s) :
    refs n (sc.names all) s = (sites wrap n sc s).map (refer all) := by
  induction s generalizing n sc wrap with
  | compound ss ih =>
    have helements : ∀ (ts : List Stmt) (n : Nat) (before : List (String × Nat × Bool)), (∀ t ∈ ts, t ∈ ss) →
        refs.elements n ((sc.enter wrap ss).names all) (view all before) ts =
          (sites.elements wrap n (sc.enter wrap ss) before ts).map (refer all) := by
      intro ts
      induction ts with
      | nil => exact fun _ _ _ => rfl
      | cons t ts iht =>
        intro n before hts
        have ht := hts t (by simp)
        rw [refs.elements, sites.elements, List.map_append, ← iht _ _ fun t' ht' => hts t' (by simp [ht']),
          view_given (fun ha => (hall ha).1), ← names_bind]
        congr 1
        exact ih t ht (h.mem t ht) fun ha => ⟨(hall ha).1, body_elements.1 (hall ha).2 t ht⟩
    rw [refs, sites, ← names_enter fun ha => (hall ha).1]
    exact helements ss n [] fun _ h => h
  | guard e s ih =>
    cases all with
    | true => cases (hall rfl).2
    | false =>
      rw [refs, sites, List.map_append, map_refer, ← ih h (by simp), names_wrapped (by simp)]
  | on us s ih =>
    cases all with
    | true => cases (hall rfl).2
    | false =>
      rw [refs, sites, ← ih h (by simp), names_wrapped (by simp), names_bind, view_formals]
  | blocking s ih =>
    cases all with
    | true => cases (hall rfl).2
    | false => rw [refs, sites, ← ih h (by simp), names_wrapped (by simp)]
  | declarativeCompound => cases h
  | ifThen e s ih =>
    have hs : Body s := h
    rw [refs, sites, List.map_append, map_refer, ← ih (tree_of_body hs) fun _ => ⟨rfl, hs⟩, names_declare]
  | ifElse e s t ihs iht =>
    obtain ⟨hs, ht⟩ : Body s ∧ Body t := h
    rw [refs, sites, List.map_append, List.map_append, map_refer, ← ihs (tree_of_body hs) fun _ => ⟨rfl, hs⟩,
      ← iht (tree_of_body ht) fun _ => ⟨rfl, ht⟩, names_declare]
  | defer as s ih =>
    have hs : Body s := h
    rw [refs, sites, List.map_append, map_refer, ← ih (tree_of_body hs) fun _ => ⟨rfl, hs⟩, names_declare]
  | _ => simp only [refs, sites, map_refer]

/-! ## The normalized statement -/

theorem view_true (before : List (String × Nat × Bool)) : view true before = before.map fun e => (e.1, e.2.1) := by
  simp [view]

theorem view_normalize (h : Tree s) (n : Nat) (before : List (String × Nat × Bool)) :
    view true (before ++ (given wrap s).map fun g => (g.1, n, g.2)) =
      view true before ++ (normalizeCompound wrap .compound s).declares?.map (·, n) := by
  rw [← given_normalize h, view_true, view_true, List.map_append, List.map_map, List.map_map]
  rfl

theorem wrapped_of_declares (h : s.declares? = []) : sc.wrapped wrap p s = sc := by
  rw [Scope.wrapped, h, ite_self]
  rfl

theorem wrapped_of_ne (h : p ≠ .declarative) : sc.wrapped wrap p s = sc := by
  rw [Scope.wrapped, if_neg fun hwrap => h hwrap.2]
  rfl

theorem refs_each (h : ∀ t ∈ ts, t.declares? = []) : refs.each n names ts = refs.elements n names [] ts := by
  induction ts generalizing n with
  | nil => rfl
  | cons t ts ih =>
    obtain ⟨ht, hts⟩ := List.forall_mem_cons.1 h
    rw [refs.each, refs.elements, ht, ih hts]
    rfl

theorem refs_kind (hrest : ∀ t ∈ ts, (Stmt.compound ss).declarative → t.declares? = []) :
    refs n names (kind ss ts) = refs.elements n (names.declare (ts.flatMap Stmt.declares?)) [] ts := by
  unfold kind
  split
  · next hd =>
    have hdeclares : ∀ t ∈ ts, t.declares? = [] := fun t ht => hrest t ht hd
    rw [List.flatMap_eq_nil_iff.2 hdeclares, refs, refs_each hdeclares]
    rfl
  · rfl

theorem names_enter_true (h : ∀ s ∈ ss, Tree s) (hstands : stands wrap ss) :
    (sc.enter wrap ss).names true = (sc.names true).declare
      (((ss.map (normalizeCompound wrap .compound)).filter stays).flatMap Stmt.declares?) := by
  have hgiven : (ss.flatMap (given wrap)).map Prod.fst =
      (ss.map (normalizeCompound wrap .compound)).flatMap Stmt.declares? := by
    rw [List.map_flatMap, List.flatMap_map]
    exact List.flatMap_congr fun s hs => given_normalize (h s hs)
  simp [Scope.names, Scope.enter, Names.declare, hstands, hgiven, flatMap_declares_stays]

/-- What goes for the elements goes for a list of them. -/
theorem refs_elements_normalize (h : ∀ s ∈ ss, Tree s) (hss : ∀ s ∈ ss, ∀ n sc,
    refs n (sc.names true) (normalizeCompound wrap .compound s) = (sites wrap n sc s).map (refer true)) :
    refs.elements n (sc.names true) (view true before) (ss.map (normalizeCompound wrap .compound)) =
      (sites.elements wrap n sc before ss).map (refer true) := by
  induction ss generalizing n before with
  | nil => rfl
  | cons s ss ih =>
    obtain ⟨hs, hrest⟩ := List.forall_mem_cons.1 h
    obtain ⟨hrefs, hrefsrest⟩ := List.forall_mem_cons.1 hss
    rw [List.map_cons, refs.elements, sites.elements, List.map_append, ← ih hrest hrefsrest, view_normalize hs,
      ← names_bind, count_normalize hs (by simp) (by simp), hrefs]

/-- Nothing is left out below an imperative statement that is no compound. -/
theorem refs_plain (h : Body s) (hs : ∀ ss, s ≠ .compound ss) :
    refs n (sc.names true) s = (sites wrap n sc s).map (refer true) := by
  cases s with
  | compound ss => exact absurd rfl (hs ss)
  | ifThen e s =>
    have hbody : Body s := h
    rw [refs, sites, List.map_append, map_refer, ← refs_eq_map (tree_of_body hbody) fun _ => ⟨rfl, hbody⟩,
      names_declare]
  | ifElse e s t =>
    obtain ⟨hs, ht⟩ : Body s ∧ Body t := h
    rw [refs, sites, List.map_append, List.map_append, map_refer, ← refs_eq_map (tree_of_body hs) fun _ => ⟨rfl, hs⟩,
      ← refs_eq_map (tree_of_body ht) fun _ => ⟨rfl, ht⟩, names_declare]
  | defer as s =>
    have hbody : Body s := h
    rw [refs, sites, List.map_append, map_refer, ← refs_eq_map (tree_of_body hbody) fun _ => ⟨rfl, hbody⟩,
      names_declare]
  | declarativeCompound | guard | on | blocking | invariant | declarativeIllegal => cases h
  | _ => simp only [refs, sites, map_refer]

/-- An imperative statement may get a compound around it. -/
theorem refs_single (h : Body s) (hs : ∀ ss, s ≠ .compound ss)
    (heq : normalizeCompound wrap p s = if wrap ∧ p = .declarative ∧ isImperative s then .compound [s] else s) :
    refs n (sc.names true) (normalizeCompound wrap p s) =
      (sites wrap n (sc.wrapped wrap p s) s).map (refer true) := by
  rw [heq, ← refs_plain h hs]
  split
  · next hwrap =>
    have hnames : (sc.wrapped wrap p s).names true = (sc.names true).declare s.declares? := by
      simp [Scope.names, Scope.wrapped, Names.declare, hwrap]
    have hvariables : variablesOf (.compound [s]) = s.declares? := by simp [variablesOf]
    rw [hnames, refs, refs.elements, refs.elements, List.append_nil, hvariables]
    rfl
  · next hnot =>
    by_cases hp : p = .declarative
    · cases wrap with
      | false => rfl
      | true =>
        have himperative : isImperative s = false := by simpa [hp] using hnot
        rw [wrapped_of_declares]
        cases s <;> first | rfl | cases himperative
    · rw [wrapped_of_ne hp]

/-- The names in the statement that is left, in the scopes of the compounds that stand. -/
theorem refs_normalize (h : Tree s) (hp : p ≠ .behavior) (hf : p = .function → s.declarative = false) :
    refs n (sc.names true) (normalizeCompound wrap p s) =
      (sites wrap n (sc.wrapped wrap p s) s).map (refer true) := by
  induction s generalizing n sc p with
  | compound ss ih =>
    have helements := @refs_elements_normalize wrap ss n (sc.enter wrap ss) [] h.mem fun s hs n sc => by
      rw [ih s hs (h.mem s hs) (by simp) (by simp), wrapped_of_ne (by simp)]
    have hrest : refs.elements n ((sc.enter wrap ss).names true) []
        ((ss.map (normalizeCompound wrap .compound)).filter stays) =
          (sites wrap n sc (.compound ss)).map (refer true) := by
      rw [refs_stays]
      exact helements
    rw [wrapped_of_declares rfl, ← hrest]
    refine @normalize_compound_cases wrap p ss (fun t => refs n (sc.names true) t = _) h hp hf ?_ ?_ ?_
    · intro hnone _
      rw [hnone]
      rfl
    · intro t hone hstands
      have henter : sc.enter wrap ss = { sc with declared := variablesOf (.compound ss) ++ sc.declared } := by
        simp [Scope.enter, hstands]
      rw [hone, henter, refs.elements, refs.elements, List.append_nil]
      rfl
    · intro hstands
      rw [refs_kind, names_enter_true h.mem hstands]
      intro t ht hd
      obtain ⟨s, hs, rfl⟩ := List.mem_map.1 (List.mem_filter.1 ht).1
      rcases h.cases with ⟨hss, -⟩ | ⟨-, hd'⟩
      · rw [← given_normalize (hss s hs).2, given_declarative (hss s hs).1 (hss s hs).2]
        rfl
      · rw [hd] at hd'
        cases hd'
  | guard e s ih =>
    rw [wrapped_of_declares rfl, normalizeCompound, refs, sites, List.map_append, map_refer,
      ih h (by simp) (by simp)]
    rfl
  | on us s ih =>
    have hih := @ih .declarative (n + (us.flatMap Trigger.names).length)
      (sc.bind (((us.flatMap Trigger.names).zipIdx n).map fun e => (e.1, e.2, false))) h (by simp) (by simp)
    rw [names_bind, view_formals] at hih
    rw [wrapped_of_declares rfl, normalizeCompound, refs, sites, hih]
  | blocking s ih =>
    rw [wrapped_of_declares rfl, normalizeCompound, refs, sites, ih h (by simp) (by simp)]
  | declarativeCompound => cases h
  | invariant e => rw [wrapped_of_declares rfl]; simp [normalizeCompound, isImperative, refs, sites, refer]
  | declarativeIllegal => rw [wrapped_of_declares rfl]; simp [normalizeCompound, isImperative, refs, sites, refer]
  | _ => exact refs_single h (by simp) (by simp [normalizeCompound])

theorem DeclarativeBody.tree (h : DeclarativeBody s) : Tree s := by
  cases s with
  | compound ss =>
    rw [Tree]
    split
    · exact tree_elements.2 h
    · next hnot =>
      cases ss with
      | nil => trivial
      | cons s ss => exact absurd (h s (by simp)).1 hnot
  | _ => cases h

/-- The names in the normalized statement of a behavior. -/
theorem refs_normalize_behavior (h : DeclarativeBody s) :
    refs n (sc.names true) (normalizeCompound wrap .behavior s) = (sites wrap n sc s).map (refer true) := by
  have htree := h.tree
  cases s with
  | compound ss =>
    have hdeclares : ∀ t ∈ ss.map (normalizeCompound wrap .compound), t.declares? = [] := by
      rw [List.forall_mem_map]
      intro s hs
      rw [← given_normalize (h s hs).2, given_declarative (h s hs).1 (h s hs).2]
      rfl
    have hgiven : ss.flatMap (given wrap) = [] :=
      List.flatMap_eq_nil_iff.2 fun s hs => given_declarative (h s hs).1 (h s hs).2
    have henter : (sc.enter wrap ss).names true = sc.names true := by
      simp [Scope.names, Scope.enter, hgiven]
    have helements := @refs_elements_normalize wrap ss n (sc.enter wrap ss) [] htree.mem fun s hs n sc => by
      rw [refs_normalize (htree.mem s hs) (by simp) (by simp), wrapped_of_ne (by simp)]
    rw [normalizeCompound, if_pos rfl, elements_eq_map, sites, ← helements, henter, refs, refs_each hdeclares]
    rfl
  | _ => cases h

/-! ## Places -/

/-- The declarations in scope have places of their own, before the next one. -/
structure Placed (n : Nat) (locals : List (String × Nat × Bool)) : Prop where
  nodup : (locals.map (·.2.1)).Nodup
  before : ∀ e ∈ locals, e.2.1 < n

theorem declares_length (s : Stmt) : s.declares?.length ≤ 1 ∧ s.declares?.length ≤ count s := by
  cases s <;> simp [Stmt.declares?, count]

theorem given_length (h : Tree s) : (given wrap s).length ≤ 1 ∧ (given wrap s).length ≤ count s := by
  have hlength := congrArg List.length (@given_normalize wrap s h)
  have hcount := @count_normalize wrap .compound s h (by simp) (by simp)
  have hdeclares := declares_length (normalizeCompound wrap .compound s)
  rw [List.length_map] at hlength
  omega

/-- What is declared after gets the next places. -/
theorem Placed.append {locals new : List (String × Nat × Bool)} {m : Nat} (h : Placed n (before ++ locals))
    (hnodup : (new.map (·.2.1)).Nodup) (hnew : ∀ e ∈ new, n ≤ e.2.1 ∧ e.2.1 < m) (hm : n ≤ m) :
    Placed m ((before ++ new) ++ locals) := by
  have hperm : ((before ++ new) ++ locals).Perm (new ++ (before ++ locals)) := by
    rw [List.append_assoc]
    exact List.perm_append_comm_assoc before new locals
  constructor
  · rw [(hperm.map _).nodup_iff, List.map_append, List.nodup_append']
    refine ⟨hnodup, h.nodup, ?_⟩
    intro i hi hi'
    obtain ⟨e, he, rfl⟩ := List.mem_map.1 hi
    obtain ⟨e', he', heq⟩ := List.mem_map.1 hi'
    have hlt := h.before e' he'
    have hle := (hnew e he).1
    omega
  · intro e he
    rcases List.mem_append.1 (hperm.mem_iff.1 he) with he | he
    · exact (hnew e he).2
    · exact Nat.lt_of_lt_of_le (h.before e he) hm

theorem Placed.given {locals : List (String × Nat × Bool)} (h : Placed n (before ++ locals)) (hs : Tree s) :
    Placed (n + count s) ((before ++ (given wrap s).map fun g => (g.1, n, g.2)) ++ locals) := by
  obtain ⟨hone, hcount⟩ := @given_length wrap s hs
  apply h.append
  · match hgiven : Compounds.given wrap s with
    | [] => exact List.nodup_nil
    | [g] => exact List.nodup_singleton _
    | g :: g' :: rest => rw [hgiven] at hone; simp at hone
  · intro e he
    obtain ⟨g, hg, rfl⟩ := List.mem_map.1 he
    have hpos := List.length_pos_of_mem hg
    exact ⟨Nat.le_refl n, by simp only; omega⟩
  · exact Nat.le_add_right n _

theorem placed_formals (formals : List String) {locals : List (String × Nat × Bool)} (h : Placed n locals) :
    Placed (n + formals.length) (((formals.zipIdx n).map fun e => (e.1, e.2, false)) ++ locals) := by
  have hplaced : Placed n ([] ++ locals) := h
  refine hplaced.append ?_ ?_ (Nat.le_add_right n _)
  · rw [List.map_map]
    show ((formals.zipIdx n).map Prod.snd).Nodup
    rw [List.zipIdx_map_snd]
    exact List.nodup_range'
  · intro e he
    obtain ⟨a, ha, rfl⟩ := List.mem_map.1 he
    exact ⟨List.le_snd_of_mem_zipIdx ha, by rw [Nat.add_comm]; exact List.snd_lt_of_mem_zipIdx ha⟩

theorem direct_placed (us : List Use) (hsc : (sc.locals.map (·.2.1)).Nodup) :
    ∀ site ∈ us.map (sc, ·), (site.1.locals.map (·.2.1)).Nodup := by
  intro site hsite
  obtain ⟨u, -, rfl⟩ := List.mem_map.1 hsite
  exact hsc

/-- The declarations in the scope of a use have places of their own. -/
theorem sites_placed (h : Tree s) (hsc : Placed n sc.locals) :
    ∀ site ∈ sites wrap n sc s, (site.1.locals.map (·.2.1)).Nodup := by
  induction s generalizing n sc wrap with
  | compound ss ih =>
    have helements : ∀ (ts : List Stmt) (n : Nat) (sc : Scope) (before : List (String × Nat × Bool)),
        (∀ t ∈ ts, t ∈ ss) → Placed n (before ++ sc.locals) →
        ∀ site ∈ sites.elements wrap n sc before ts, (site.1.locals.map (·.2.1)).Nodup := by
      intro ts
      induction ts with
      | nil => exact fun _ _ _ _ _ _ h => by cases h
      | cons t ts iht =>
        intro n sc before hts hplaced
        have ht := hts t (by simp)
        rw [sites.elements, List.forall_mem_append]
        exact ⟨ih t ht (h.mem t ht) hplaced,
          iht _ _ _ (fun t' ht' => hts t' (by simp [ht'])) (hplaced.given (h.mem t ht))⟩
    exact helements ss n (sc.enter wrap ss) [] (fun _ ht => ht) hsc
  | guard e s ih =>
    rw [sites, List.forall_mem_append]
    exact ⟨direct_placed _ hsc.nodup, ih h hsc⟩
  | on us s ih => exact ih h (placed_formals _ hsc)
  | blocking s ih => exact ih h hsc
  | declarativeCompound => cases h
  | ifThen e s ih =>
    rw [sites, List.forall_mem_append]
    exact ⟨direct_placed _ hsc.nodup, ih (tree_of_body h) hsc⟩
  | ifElse e s t ihs iht =>
    obtain ⟨hs, ht⟩ : Body s ∧ Body t := h
    rw [sites, List.forall_mem_append, List.forall_mem_append]
    have hlater : Placed (n + count s) sc.locals :=
      ⟨hsc.nodup, fun e he => Nat.lt_of_lt_of_le (hsc.before e he) (Nat.le_add_right n _)⟩
    exact ⟨⟨direct_placed _ hsc.nodup, ihs (tree_of_body hs) hsc⟩, iht (tree_of_body ht) hlater⟩
  | defer as s ih =>
    rw [sites, List.forall_mem_append]
    exact ⟨direct_placed _ hsc.nodup, ih (tree_of_body h) hsc⟩
  | _ => exact direct_placed _ hsc.nodup

theorem mem_view {l : List (String × Nat × Bool)} {x : String} {i : Nat} (h : (view all l).lookup x = some i) :
    i ∈ l.map (·.2.1) := by
  obtain ⟨before, after, heq, -⟩ := List.lookup_eq_some_iff.1 h
  have hmem : (x, i) ∈ view all l := by rw [heq]; simp
  obtain ⟨e, he, heq⟩ := List.mem_map.1 hmem
  exact List.mem_map.2 ⟨e, (List.mem_filter.1 he).1, congrArg Prod.snd heq⟩

/-- A name is found at the same place just when the nearest declaration is in no compound that is left out. -/
theorem lookup_view_iff {l : List (String × Nat × Bool)} (h : (l.map (·.2.1)).Nodup) (x : String) :
    (view true l).lookup x = (view false l).lookup x ↔ ∀ e, l.lookup x = some e → e.2 = false := by
  induction l with
  | nil => simp [view]
  | cons a l ih =>
    obtain ⟨y, i, left⟩ := a
    rw [List.map_cons, List.nodup_cons] at h
    have hall : view true ((y, i, left) :: l) = (y, i) :: view true l := by simp [view]
    by_cases hxy : x = y
    · obtain rfl := hxy
      have hfound : ((x, i, left) :: l).lookup x = some (i, left) := List.lookup_cons_self
      rw [hall, hfound, List.lookup_cons_self]
      cases left with
      | false =>
        have hkept : view false ((x, i, false) :: l) = (x, i) :: view false l := by simp [view]
        rw [hkept, List.lookup_cons_self]
        simp
      | true =>
        have hleft : view false ((x, i, true) :: l) = view false l := by simp [view]
        rw [hleft]
        constructor
        · exact fun heq => absurd (mem_view heq.symm) h.1
        · intro hnone
          cases hnone (i, true) rfl
    · have hskip : ∀ {β : Type} (b : β) (rest : List (String × β)), ((y, b) :: rest).lookup x = rest.lookup x := by
        intro β b rest
        rw [List.lookup_cons, beq_eq_false_iff_ne.2 hxy]
      have hview : (view false ((y, i, left) :: l)).lookup x = (view false l).lookup x := by
        cases left with
        | false =>
          have hkept : view false ((y, i, false) :: l) = (y, i) :: view false l := by simp [view]
          rw [hkept, hskip]
        | true =>
          have hleft : view false ((y, i, true) :: l) = view false l := by simp [view]
          rw [hleft]
      rw [hall, hskip, hview, hskip, ih h.2]

/-- A use refers to what it did just when it is not captured. -/
theorem refer_iff {site : Scope × Use} (h : (site.1.locals.map (·.2.1)).Nodup) (hvisible : refer false site ≠ .hidden) :
    refer true site = refer false site ↔ Uncaptured site := by
  obtain ⟨sc, u⟩ := site
  have hdeclared : (sc.names false).declared = sc.declared := rfl
  have hkept : (sc.names true).declared = sc.kept := rfl
  unfold refer Uncaptured at *
  cases u with
  | var x =>
    simp only [Names.refer, Ref.var.injEq, true_and]
    exact lookup_view_iff h x
  | shared g x =>
    simp only [Names.refer, hdeclared, hkept] at hvisible ⊢
    rw [if_neg fun hg => hvisible (if_pos hg)]
    split <;> simp [*]
  | call ids =>
    match ids with
    | [] => simp [Names.refer]
    | [g] =>
      simp only [Names.refer, hdeclared, hkept] at hvisible ⊢
      rw [if_neg fun hg => hvisible (if_pos hg)]
      split <;> simp [*]
    | g :: g' :: rest => simp [Names.refer]

/-- All uses in a statement do when none is captured. -/
theorem map_refer_iff (h : Tree s) (hsc : Placed n sc.locals) (hvisible : Ref.hidden ∉ refs n (sc.names false) s) :
    (sites wrap n sc s).map (refer true) = (sites wrap n sc s).map (refer false) ↔
      ∀ site ∈ sites wrap n sc s, Uncaptured site := by
  rw [List.map_inj_left]
  refine forall₂_congr fun site hsite => refer_iff (sites_placed h hsc site hsite) ?_
  intro heq
  have hrefs := @refs_eq_map wrap false s n sc h (by simp)
  exact hvisible (by rw [hrefs]; exact List.mem_map.2 ⟨site, hsite, heq⟩)

end

end

/-! ## Programs -/

/-- The scope of the statement of a function. -/
def functionScope (f : Function) : Scope :=
  let formals := f.formals.map Prod.snd
  ⟨(formals.zipIdx 0).map fun e => (e.1, e.2, false), formals, formals⟩

/-- What the uses in a function refer to. -/
def functionRefs (f : Function) : List Ref :=
  match f.expression with
  | none => refs f.formals.length ((functionScope f).names false) f.statement
  | some e => (uses e).map ((functionScope f).names false).refer

/-- The scope of the statement of a behavior. -/
def behaviorScope : Scope := ⟨[], [], []⟩

def behaviorRefs (b : Behavior) : List Ref := refs 0 (behaviorScope.names false) b.statement

/-- A function with another statement that executes the same, with the same references. -/
structure SameFunction (f f' : Function) : Prop where
  signature : f' = { f with statement := f'.statement }
  executes : flat f'.statement = flat f.statement
  refs : functionRefs f' = functionRefs f

/-- A behavior with other statements: the ons are enabled under the same guards and execute the same, with the same
references. -/
structure SameBehavior (b b' : Behavior) : Prop where
  members : b'.members = b.members
  invariant : b'.invariant = b.invariant
  ons : ∀ ρ, (bodyOns b'.statement).map (meaning ρ) = (bodyOns b.statement).map (meaning ρ)
  refs : behaviorRefs b' = behaviorRefs b
  functions : List.Forall₂ SameFunction b.functions b'.functions

def SameTop : Tick.Top → Tick.Top → Prop
  | .model m, .model m' => m' = { m with behavior := m'.behavior } ∧ SameBehavior m.behavior m'.behavior
  | .function scope f, .function scope' f' => scope' = scope ∧ SameFunction f f'
  | _, _ => False

/-- A function of a well-formed program. -/
structure FunctionWellFormed (f : Function) : Prop where
  body : Body f.statement
  visible : Ref.hidden ∉ functionRefs f

/-- A behavior of a well-formed program. -/
structure BehaviorWellFormed (b : Behavior) : Prop where
  body : DeclarativeBody b.statement
  visible : Ref.hidden ∉ behaviorRefs b
  functions : ∀ f ∈ b.functions, FunctionWellFormed f

def TopWellFormed : Tick.Top → Prop
  | .model m => BehaviorWellFormed m.behavior
  | .function _ f => FunctionWellFormed f

/-- No use in a function is captured. -/
def FunctionSafe (wrap : Bool) (f : Function) : Prop :=
  f.expression = none → ∀ site ∈ sites wrap f.formals.length (functionScope f) f.statement, Uncaptured site

/-- No use in a behavior is captured, and no `otherwise` gets other guards to complement. -/
structure BehaviorSafe (wrap : Bool) (b : Behavior) : Prop where
  levels : wrap = false → SameLevels false b.statement
  uncaptured : ∀ site ∈ sites wrap 0 behaviorScope b.statement, Uncaptured site
  functions : ∀ f ∈ b.functions, FunctionSafe wrap f

def TopSafe (wrap : Bool) : Tick.Top → Prop
  | .model m => BehaviorSafe wrap m.behavior
  | .function _ f => FunctionSafe wrap f

section
variable {wrap : Bool} {f : Function} {b : Behavior}

theorem placed_function (f : Function) : Placed f.formals.length (functionScope f).locals := by
  have h := @placed_formals 0 (f.formals.map Prod.snd) [] ⟨List.nodup_nil, by simp⟩
  rwa [List.append_nil, Nat.zero_add, List.length_map] at h

theorem names_function (f : Function) : (functionScope f).names true = (functionScope f).names false := by
  simp [Scope.names, functionScope, List.filter_map, Function.comp_def]

theorem sameFunction_iff (h : FunctionWellFormed f) :
    SameFunction f (normalizeFunction wrap f) ↔ FunctionSafe wrap f := by
  cases hexpression : f.expression with
  | some e =>
    have hsame : normalizeFunction wrap f = f := by rw [normalizeFunction, hexpression]
    rw [hsame, FunctionSafe, hexpression]
    exact iff_of_true ⟨rfl, rfl, rfl⟩ fun hnone => by cases hnone
  | none =>
    have hnormalize : normalizeFunction wrap f =
        { f with statement := normalizeCompound wrap .function f.statement } := by
      rw [normalizeFunction, hexpression]
    have htree := tree_of_body h.body
    have hrefs : functionRefs f = (sites wrap f.formals.length (functionScope f) f.statement).map (refer false) := by
      rw [functionRefs, hexpression]
      exact refs_eq_map htree (by simp)
    have hrefs' : functionRefs (normalizeFunction wrap f) =
        (sites wrap f.formals.length (functionScope f) f.statement).map (refer true) := by
      have hnormalized := @refs_normalize wrap .function f.statement f.formals.length (functionScope f) htree (by simp)
        fun _ => not_declarative h.body
      rw [wrapped_of_ne (by simp), names_function] at hnormalized
      rw [hnormalize, functionRefs, hexpression]
      exact hnormalized
    have hvisible := h.visible
    rw [functionRefs, hexpression] at hvisible
    have hiff := @map_refer_iff wrap f.statement f.formals.length (functionScope f) htree (placed_function f) hvisible
    rw [← hrefs, ← hrefs'] at hiff
    constructor
    · exact fun hsame _ => hiff.1 hsame.refs
    · intro hsafe
      refine ⟨by rw [hnormalize], ?_, hiff.2 (hsafe hexpression)⟩
      rw [hnormalize]
      exact flat_normalize h.body (by simp)

theorem sameBehavior_iff (h : BehaviorWellFormed b) :
    SameBehavior b (normalizeBehavior wrap b) ↔ BehaviorSafe wrap b := by
  have hrefs : behaviorRefs b = (sites wrap 0 behaviorScope b.statement).map (refer false) :=
    refs_eq_map h.body.tree (by simp)
  have hrefs' : behaviorRefs (normalizeBehavior wrap b) =
      (sites wrap 0 behaviorScope b.statement).map (refer true) := by
    rw [← refs_normalize_behavior h.body]
    rfl
  have hiff := @map_refer_iff wrap b.statement 0 behaviorScope h.body.tree ⟨List.nodup_nil, by simp [behaviorScope]⟩
    h.visible
  rw [← hrefs, ← hrefs'] at hiff
  constructor
  · intro hsame
    refine ⟨fun hwrap => hwrap ▸ (meaning_iff h.body).1 hsame.ons, hiff.1 hsame.refs, ?_⟩
    have hfunctions := hsame.functions
    rw [normalizeBehavior, List.forall₂_map_right_iff, List.forall₂_same] at hfunctions
    exact fun f hf => (sameFunction_iff (h.functions f hf)).1 (hfunctions f hf)
  · intro hsafe
    refine ⟨rfl, rfl, (meaning_iff h.body).2 ?_, hiff.2 hsafe.uncaptured, ?_⟩
    · cases wrap with
      | true => exact sameLevels_true _
      | false => exact hsafe.levels rfl
    · rw [normalizeBehavior, List.forall₂_map_right_iff, List.forall₂_same]
      exact fun f hf => (sameFunction_iff (h.functions f hf)).2 (hsafe.functions f hf)

theorem sameTop_iff {t : Tick.Top} (h : TopWellFormed t) : SameTop t (normalizeTop wrap t) ↔ TopSafe wrap t := by
  cases t with
  | model m => exact (and_iff_right rfl).trans (sameBehavior_iff h)
  | function scope f => exact (and_iff_right rfl).trans (sameFunction_iff h)

end

/-- The meaning of a program is kept just when no guard or invariant is a call that gets wrapped, no `otherwise` gets
other guards to complement, and no use is captured by a variable whose compound is left out. -/
theorem normalizeCompounds_iff (wrap : Bool) (r : Tick.Root) (h : ∀ t ∈ r, TopWellFormed t) :
    (∃ r', normalizeCompounds wrap r = some r' ∧ List.Forall₂ SameTop r r') ↔
      (wrap → ∀ t ∈ r, ∀ e ∈ topPredicates t, imperativeExpression e = false) ∧ ∀ t ∈ r, TopSafe wrap t := by
  have hsame : List.Forall₂ SameTop r (r.map (normalizeTop wrap)) ↔ ∀ t ∈ r, TopSafe wrap t := by
    rw [List.forall₂_map_right_iff, List.forall₂_same]
    exact forall₂_congr fun t ht => sameTop_iff (h t ht)
  unfold normalizeCompounds
  split
  · next hnone =>
    obtain ⟨hwrap, t, ht, e, he, himperative⟩ := hnone
    refine iff_of_false (by simp) fun hsafe => ?_
    rw [hsafe.1 hwrap t ht e he] at himperative
    cases himperative
  · next hsome =>
    have hpredicates : wrap → ∀ t ∈ r, ∀ e ∈ topPredicates t, imperativeExpression e = false := by
      intro hwrap t ht e he
      rw [← Bool.not_eq_true]
      exact fun himperative => hsome ⟨hwrap, t, ht, e, he, himperative⟩
    rw [and_iff_right hpredicates, ← hsame]
    simp

/-- `[x] {on e: {{bool z = x;} y = x;}}` -/
def blockBehavior : Behavior where
  members := [⟨["bool"], "x", .true⟩, ⟨["bool"], "y", .true⟩]
  functions := []
  statement := .compound [.guard (.var "x") (.compound [.on [⟨none, "e", []⟩]
    (.compound [.compound [.variableDecl ["bool"] "z" (.var "x")], .assign "y" (.var "x")])])]
  invariant := none

def blockModel : Tick.Top := .model ⟨[], "I", [], ["e"], [], [], blockBehavior⟩

theorem blockModel_wellFormed : ∀ t ∈ [blockModel], TopWellFormed t := by
  intro t ht
  rw [List.mem_singleton.1 ht]
  refine ⟨?_, by decide, by simp [blockBehavior]⟩
  simp [blockBehavior, DeclarativeBody, Stmt.declarative, Stmt.declarative.head, Tree, Tree.elements, Alpha.Body,
    Alpha.Body.elements]

/-- The block with the variable is left out. -/
theorem normalizeCompounds_block : ∃ r', normalizeCompounds false [blockModel] = some r' ∧
    List.Forall₂ SameTop [blockModel] r' := by
  refine (normalizeCompounds_iff false [blockModel] blockModel_wellFormed).2 ⟨by simp, ?_⟩
  intro t ht
  rw [List.mem_singleton.1 ht]
  refine ⟨fun _ => ?_, ?_, by simp [blockBehavior]⟩
  · intro ρ p hp
    simp [blockBehavior, bothBody, bothOns, bothOns.elements, Stmt.declarative, Stmt.declarative.head] at hp
    rw [hp]
    rfl
  · simp [blockBehavior, sites, sites.elements, direct, Uncaptured, Scope.bind, Scope.wrapped, Scope.enter, given,
      given.elements, stands, vacuous, Tick.uses, behaviorScope, Trigger.names, List.lookup_cons]

/-! ## The condition can fail -/

/-- `bool f(bool x) {{bool x = true;} return x;}` -/
def shadowingFunction : Function :=
  ⟨"f", ["bool"], [(["bool"], "x")],
    .compound [.compound [.variableDecl ["bool"] "x" .true], .returnStmt (.var "x")], none⟩

theorem shadowingFunction_wellFormed : ∀ t ∈ [Tick.Top.function [] shadowingFunction], TopWellFormed t := by
  intro t ht
  rw [List.mem_singleton.1 ht]
  exact ⟨by simp [shadowingFunction, Alpha.Body, Alpha.Body.elements], by decide⟩

/-- The variable of the block that is left out is returned instead of the formal. -/
theorem normalizeCompounds_shadowing : ¬ ∀ (wrap : Bool) (r : Tick.Root), (∀ t ∈ r, TopWellFormed t) →
    ∃ r', normalizeCompounds wrap r = some r' ∧ List.Forall₂ SameTop r r' := by
  intro h
  obtain ⟨r', hr', hsame⟩ := h false _ shadowingFunction_wellFormed
  simp only [normalizeCompounds, Bool.false_eq_true, false_and, if_false, Option.some.injEq] at hr'
  rw [← hr'] at hsame
  cases hsame with
  | cons hfunction _ => exact absurd hfunction.2.refs (by decide)

end Dezyne.Compounds
