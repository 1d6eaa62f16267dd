import Mathlib.Data.List.Nodup
import Mathlib.Data.List.Perm.Subperm
import Dezyne.Lib.Nearest
import Dezyne.TestLts
/-!
# Paths of the test driver

`path` looks for a shortest sequence of transitions between two states, level by
level. At each level its candidates are as long as each other and lead to every
state at that distance: an extension that is dropped is a transition of a
candidate, which leads to its end at an earlier level.
-/

namespace Dezyne.Test

/-- A transition where it is in memory, which is what `eq?` compares. -/
structure Record (σ α : Type) extends Transition σ α where
  address : Nat
  deriving DecidableEq

/-- Transitions from the last one back to the first. -/
abbrev Path (σ α : Type) := {p : List (Record σ α) // p ≠ []}

variable {σ α : Type}

def Path.car (path : Path σ α) : Record σ α := path.1.head path.2

def Path.cons (t : Record σ α) (path : Path σ α) : Path σ α := ⟨t :: path.1, List.cons_ne_nil t path.1⟩

/-- `(list t)` -/
def Path.list (t : Record σ α) : Path σ α := ⟨[t], List.cons_ne_nil t []⟩

@[simp] theorem car_cons (t : Record σ α) (p : Path σ α) : (Path.cons t p).car = t := rfl

@[simp] theorem car_list (t : Record σ α) : (Path.list t).car = t := rfl

variable [DecidableEq σ] [DecidableEq α]

/-- `node->transitions` -/
def nodeTransitions (fromState : σ) (lts : List (Record σ α)) : List (Record σ α) :=
  lts.filter (·.fromState = fromState)

/-- `lset-difference eq?` -/
def lsetDifference (xs ys : List (Record σ α)) : List (Record σ α) := xs.filter (· ∉ ys)

/-- `extend`: determine extensions for each path, remove candidates already covered. -/
def extend (lts : List (Record σ α)) (paths : List (Path σ α)) : List (Path σ α) :=
  paths.flatMap fun path =>
    let extensions := nodeTransitions path.car.toState lts
    let extensions := lsetDifference extensions (paths.flatMap (·.1))
    extensions.map (Path.cons · path)

/-- `equal?`, which compares what is in the records. -/
def Path.equal (p q : Path σ α) : Bool := p.1.map (·.toTransition) = q.1.map (·.toTransition)

/-- What the fold of `reduce` does with a path. -/
def reducePath (path : Path σ α) (paths : List (Path σ α)) : List (Path σ α) :=
  match paths.find? fun p => path.car.toState = p.car.toState with
  | none => path :: paths
  | some join =>
    if join.1.length ≤ path.1.length then paths else path :: paths.filter fun p => !join.equal p

/-- `reduce`: remove the longer path joining a shorter path. -/
def reduce (paths : List (Path σ α)) : List (Path σ α) := paths.foldl (fun paths path => reducePath path paths) []

/-- The `loop` of `path`, for so many levels. -/
def pathLoop (lts : List (Record σ α)) (toState : σ) : Nat → List (Path σ α) → Option (List (Record σ α))
  | 0, _ => none
  | fuel + 1, paths =>
    if paths.isEmpty then some []
    else
      match paths.find? (·.car.toState = toState) with
      | some shortest => some shortest.1
      | none => pathLoop lts toState fuel (reduce (extend lts paths))

/-- `path`: the shortest path between two states, from its end. -/
def path (fuel : Nat) (lts : List (Record σ α)) (fromState toState : σ) : Option (List (Record σ α)) :=
  if fromState = toState then some [] else pathLoop lts toState fuel ((nodeTransitions fromState lts).map Path.list)

/-! ## Candidates -/

/-- A transition of the LTS. -/
def Step (lts : List (Record σ α)) (s : σ) (t : Record σ α) (s' : σ) : Prop := t ∈ lts ∧ t.fromState = s ∧ t.toState = s'

/-- The candidates of a level: walks without a transition twice, to every state at that distance. -/
structure Candidates (lts : List (Record σ α)) (s : σ) (d : Nat) (paths : List (Path σ α)) : Prop where
  walk : ∀ p ∈ paths, Walk (Step lts) s p.1.reverse p.car.toState
  length : ∀ p ∈ paths, p.1.length = d
  nodup : ∀ p ∈ paths, p.1.Nodup
  cover : ∀ t, Nearest (Step lts) s d t → ∃ p ∈ paths, p.car.toState = t

variable {lts : List (Record σ α)} {s s' : σ} {d : Nat} {paths : List (Path σ α)} {t : Record σ α} {p q : Path σ α}

omit [DecidableEq α] in
theorem mem_nodeTransitions : t ∈ nodeTransitions s lts ↔ t ∈ lts ∧ t.fromState = s := by
  rw [nodeTransitions, List.mem_filter, decide_eq_true_eq]

omit [DecidableEq α] in
theorem candidates_list : Candidates lts s 1 ((nodeTransitions s lts).map Path.list) where
  walk p hp := by
    obtain ⟨t, ht, rfl⟩ := List.mem_map.1 hp
    obtain ⟨hmem, hfrom⟩ := mem_nodeTransitions.1 ht
    exact .single ⟨hmem, hfrom, rfl⟩
  length p hp := by
    obtain ⟨t, -, rfl⟩ := List.mem_map.1 hp
    rfl
  nodup p hp := by
    obtain ⟨t, -, rfl⟩ := List.mem_map.1 hp
    exact List.nodup_singleton t
  cover s' h := by
    obtain ⟨u, t, hu, hmem, hfrom, hto⟩ := h.pred
    obtain ⟨p, hp, hlen⟩ := hu.walk
    obtain rfl := List.length_eq_zero_iff.1 hlen
    cases hp
    exact ⟨Path.list t, List.mem_map_of_mem (mem_nodeTransitions.2 ⟨hmem, hfrom⟩), hto⟩

theorem mem_extend : q ∈ extend lts paths ↔
    ∃ p ∈ paths, ∃ t, t ∈ lts ∧ t.fromState = p.car.toState ∧ (∀ p' ∈ paths, t ∉ p'.1) ∧ q = Path.cons t p := by
  simp only [extend, lsetDifference, List.mem_flatMap, List.mem_map, List.mem_filter, mem_nodeTransitions, decide_eq_true_eq,
    not_exists, not_and]
  constructor
  · rintro ⟨p, hp, t, ⟨⟨hmem, hfrom⟩, hnew⟩, rfl⟩
    exact ⟨p, hp, t, hmem, hfrom, hnew, rfl⟩
  · rintro ⟨p, hp, t, hmem, hfrom, hnew, rfl⟩
    exact ⟨p, hp, t, ⟨⟨hmem, hfrom⟩, hnew⟩, rfl⟩

theorem Candidates.extend (h : Candidates lts s d paths) : Candidates lts s (d + 1) (extend lts paths) where
  walk q hq := by
    obtain ⟨p, hp, t, hmem, hfrom, -, rfl⟩ := mem_extend.1 hq
    have hwalk := (h.walk p hp).snoc (e := t) ⟨hmem, hfrom, rfl⟩
    rwa [← List.reverse_cons] at hwalk
  length q hq := by
    obtain ⟨p, hp, t, -, -, -, rfl⟩ := mem_extend.1 hq
    exact congrArg (· + 1) (h.length p hp)
  nodup q hq := by
    obtain ⟨p, hp, t, -, -, hnew, rfl⟩ := mem_extend.1 hq
    exact List.nodup_cons.2 ⟨hnew p hp, h.nodup p hp⟩
  cover s' hs' := by
    obtain ⟨u, t, hu, hmem, hfrom, hto⟩ := hs'.pred
    obtain ⟨p, hp, hcar⟩ := h.cover u hu
    refine ⟨Path.cons t p, mem_extend.2 ⟨p, hp, t, hmem, hfrom.trans hcar.symm, fun p' hp' hin => ?_, rfl⟩, hto⟩
    -- a candidate with this transition would be a shorter walk to its end
    have hlen : p'.1.reverse.length < d + 1 := by
      rw [List.length_reverse, h.length p' hp']
      exact Nat.lt_succ_self d
    refine hs'.not_mem (h.walk p' hp') hlen (fun a b hstep => ?_) (List.mem_reverse.2 hin)
    exact hstep.2.2.symm.trans hto

/-- Of paths of one length, the first one to a state stays. -/
theorem mem_reducePath {path : Path σ α} (hpath : path.1.length = d) (hlen : ∀ p ∈ paths, p.1.length = d) :
    (∀ p ∈ reducePath path paths, p = path ∨ p ∈ paths) ∧ (∀ p ∈ paths, p ∈ reducePath path paths) ∧
    ∃ q ∈ reducePath path paths, q.car.toState = path.car.toState := by
  unfold reducePath
  split
  · exact ⟨fun p hp => List.mem_cons.1 hp, fun p hp => List.mem_cons_of_mem path hp, path, List.mem_cons_self, rfl⟩
  · rename_i join hfind
    have hjoin := List.mem_of_find?_eq_some hfind
    have hto : path.car.toState = join.car.toState := by simpa using List.find?_some hfind
    rw [if_pos (by rw [hlen join hjoin, hpath])]
    exact ⟨fun p hp => .inr hp, fun p hp => hp, join, hjoin, hto.symm⟩

theorem foldl_reducePath (rest : List (Path σ α)) {kept : List (Path σ α)} (hrest : ∀ p ∈ rest, p.1.length = d)
    (hkept : ∀ p ∈ kept, p.1.length = d) :
    (∀ p ∈ rest.foldl (fun paths path => reducePath path paths) kept, p ∈ rest ∨ p ∈ kept) ∧
    ∀ p, p ∈ rest ∨ p ∈ kept →
      ∃ q ∈ rest.foldl (fun paths path => reducePath path paths) kept, q.car.toState = p.car.toState := by
  induction rest generalizing kept with
  | nil => exact ⟨fun p hp => .inr hp, fun p hp => ⟨p, hp.resolve_left List.not_mem_nil, rfl⟩⟩
  | cons path rest ih =>
    rw [List.forall_mem_cons] at hrest
    obtain ⟨hold, hkeep, q, hq, hcar⟩ := mem_reducePath hrest.1 hkept
    have hlen : ∀ p ∈ reducePath path kept, p.1.length = d := by
      intro p hp
      rcases hold p hp with rfl | hp
      · exact hrest.1
      · exact hkept p hp
    obtain ⟨hsub, hall⟩ := ih hrest.2 hlen
    refine ⟨fun p hp => ?_, fun p hp => ?_⟩
    · rcases hsub p hp with hp | hp
      · exact .inl (List.mem_cons_of_mem path hp)
      · rcases hold p hp with rfl | hp
        · exact .inl List.mem_cons_self
        · exact .inr hp
    · rcases hp with hp | hp
      · rcases List.mem_cons.1 hp with rfl | hp
        · rw [← hcar]
          exact hall q (.inr hq)
        · exact hall p (.inl hp)
      · exact hall p (.inr (hkeep p hp))

theorem Candidates.reduce (h : Candidates lts s d paths) : Candidates lts s d (reduce paths) := by
  obtain ⟨hmem, hall⟩ := foldl_reducePath paths h.length (List.forall_mem_nil _)
  have hsub : ∀ p ∈ Test.reduce paths, p ∈ paths := fun p hp => (hmem p hp).resolve_right List.not_mem_nil
  refine ⟨fun p hp => h.walk p (hsub p hp), fun p hp => h.length p (hsub p hp), fun p hp => h.nodup p (hsub p hp),
    fun t ht => ?_⟩
  obtain ⟨p, hp, hcar⟩ := h.cover t ht
  obtain ⟨q, hq, hto⟩ := hall p (.inl hp)
  exact ⟨q, hq, hto.trans hcar⟩

omit [DecidableEq σ] [DecidableEq α] in
/-- The transitions of a candidate are different ones of the LTS. -/
theorem Candidates.le_length (h : Candidates lts s d paths) (hp : p ∈ paths) : d ≤ lts.length := by
  have hsub : ∀ {s s' : σ} {w : List (Record σ α)}, Walk (Step lts) s w s' → w ⊆ lts := by
    intro s s' w hw
    induction hw with
    | nil => exact List.nil_subset lts
    | cons he _ ih => exact List.cons_subset.2 ⟨he.1, ih⟩
  have hle := (List.subperm_of_subset (h.nodup p hp) fun t ht => hsub (h.walk p hp) (List.mem_reverse.2 ht)).length_le
  rwa [h.length p hp] at hle

/-! ## The search -/

/-- A shortest walk back from its end, or nothing where there is none. -/
structure Shortest (lts : List (Record σ α)) (s s' : σ) (result : List (Record σ α)) : Prop where
  walk : (∃ w, Walk (Step lts) s w s') → Walk (Step lts) s result.reverse s'
  le : ∀ w, Walk (Step lts) s w s' → result.length ≤ w.length
  nil : result = [] ↔ s = s' ∨ ¬ ∃ w, Walk (Step lts) s w s'

theorem pathLoop_spec (hne : s ≠ s') {fuel : Nat} (hpos : 0 < fuel) (hfuel : lts.length + 2 ≤ fuel + d)
    (h : Candidates lts s d paths) (hfar : ∀ w, Walk (Step lts) s w s' → d ≤ w.length) :
    ∃ result, pathLoop lts s' fuel paths = some result ∧ Shortest lts s s' result := by
  induction fuel generalizing d paths with
  | zero => cases hpos
  | succ fuel ih =>
    rw [pathLoop]
    split
    · rename_i hempty
      -- a state that is reached is as far or farther, and so there is one at this distance
      have hnone : ¬ ∃ w, Walk (Step lts) s w s' := by
        rintro ⟨w, hw⟩
        obtain ⟨e, he⟩ := Nearest.exists_of_walk hw
        obtain ⟨w', hw', hlen⟩ := he.walk
        obtain ⟨u, hu⟩ := he.exists_of_le (hlen ▸ hfar w' hw')
        obtain ⟨p, hp, -⟩ := h.cover u hu
        rw [List.isEmpty_iff.1 hempty] at hp
        cases hp
      exact ⟨[], rfl, fun hw => absurd hw hnone, fun w _ => Nat.zero_le w.length, fun _ => .inr hnone, fun _ => rfl⟩
    · rename_i hempty
      obtain ⟨p, hp⟩ := List.exists_mem_of_ne_nil paths fun heq => hempty (List.isEmpty_iff.2 heq)
      have hle := h.le_length hp
      cases hfind : paths.find? fun p => decide (p.car.toState = s') with
      | some shortest =>
        have hmem := List.mem_of_find?_eq_some hfind
        have hto : shortest.car.toState = s' := by simpa using List.find?_some hfind
        have hwalk := h.walk shortest hmem
        rw [hto] at hwalk
        refine ⟨shortest.1, rfl, fun _ => hwalk, fun w hw => ?_, fun hnil => absurd hnil shortest.2, fun hor => ?_⟩
        · rw [h.length shortest hmem]
          exact hfar w hw
        · rcases hor with heq | hnone
          · exact absurd heq hne
          · exact absurd ⟨_, hwalk⟩ hnone
      | none =>
        have hother : ∀ p ∈ paths, p.car.toState ≠ s' := by simpa using hfind
        refine ih (by omega) (by omega) h.extend.reduce fun w hw => ?_
        refine Nat.lt_of_le_of_ne (hfar w hw) fun heq => ?_
        obtain ⟨p, hp, hto⟩ := h.cover s' ⟨⟨w, hw, heq.symm⟩, hfar⟩
        exact hother p hp hto

/-- More levels do not change what is found. -/
theorem pathLoop_le {fuel fuel' : Nat} {result : List (Record σ α)} (hle : fuel ≤ fuel')
    (h : pathLoop lts s' fuel paths = some result) : pathLoop lts s' fuel' paths = some result := by
  induction fuel generalizing fuel' paths with
  | zero => cases h
  | succ fuel ih =>
    cases fuel' with
    | zero => cases hle
    | succ fuel' =>
      rw [pathLoop] at h ⊢
      split at h
      · rw [if_pos ‹_›]
        exact h
      · rw [if_neg ‹_›]
        split at h
        · exact h
        · exact ih (Nat.le_of_succ_le_succ hle) h

/-- The search ends with a shortest path, given more levels than there are transitions. -/
theorem path_shortest (lts : List (Record σ α)) (s s' : σ) :
    ∃ result, (∀ fuel, lts.length < fuel → path fuel lts s s' = some result) ∧ Shortest lts s s' result := by
  by_cases heq : s = s'
  · subst heq
    refine ⟨[], fun fuel _ => if_pos rfl, fun _ => .nil s, fun w _ => Nat.zero_le w.length, fun _ => .inl rfl, fun _ => rfl⟩
  · have hfar : ∀ w, Walk (Step lts) s w s' → 1 ≤ w.length := by
      intro w hw
      cases hw with
      | nil => exact absurd rfl heq
      | cons _ _ => exact Nat.succ_pos _
    obtain ⟨result, hresult, hshort⟩ := pathLoop_spec heq (Nat.succ_pos lts.length) (Nat.le_refl _) candidates_list hfar
    exact ⟨result, fun fuel hfuel => (if_neg heq).trans (pathLoop_le hfuel hresult), hshort⟩

end Dezyne.Test
