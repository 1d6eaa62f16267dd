import Mathlib.Data.List.Nodup
import Mathlib.Data.List.Perm.Basic
/-!
# Timers of the C# pump

The worker goes over the timers in the order that they have when it starts, and takes
each one out of the dictionary before it calls its action. It stops when the dictionary
is empty, or at a timer that has not expired; whether the timer is still in the
dictionary it does not look at.
-/

namespace Dezyne.CsTimers

variable {F σ : Type}

/-! ## The pump -/

/-- `Deadline`, its time in ticks -/
structure Deadline where
  id : Int
  t : Int
deriving DecidableEq

/-- `Deadline.CompareTo` -/
def Deadline.compareTo (k d : Deadline) : Int :=
  if k.t = d.t ∧ k.id = d.id then 0
  else if k.t < d.t ∨ k.t = d.t ∧ k.id < d.id then -1
  else 1

/-- A timer: an entry of the dictionary. -/
abbrev Timer (F : Type) := Deadline × F

/-- `Dictionary<Deadline, Action>` -/
structure Timers (F : Type) where
  entries : List (Timer F)
  nodup : (entries.map Prod.fst).Nodup

/-- `Dictionary.Add`; it throws when the key is there. -/
def Timers.add (timers : Timers F) (k : Deadline) (action : F) : Option (Timers F) :=
  if h : k ∈ timers.entries.map Prod.fst then none
  else some {
    entries := timers.entries ++ [(k, action)]
    nodup := by
      rw [List.map_append, List.nodup_append]
      refine ⟨timers.nodup, List.nodup_singleton _, fun a ha b hb => ?_⟩
      rw [List.mem_singleton.1 hb]
      rintro rfl
      exact h ha }

/-- `Dictionary.Remove` -/
def Timers.remove (timers : Timers F) (k : Deadline) : Timers F where
  entries := timers.entries.filter fun e => e.1 ≠ k
  nodup := timers.nodup.sublist (List.filter_sublist.map Prod.fst)

/-- `timers.OrderBy(k => k.Key)`, which sorts when the first element is asked for. -/
def Timers.orderByKey (timers : Timers F) : List (Timer F) :=
  timers.entries.mergeSort fun e d => e.1.compareTo d.1 ≤ 0

/-- `default(Deadline)`, with `DateTime.MinValue` -/
def Deadline.default : Deadline := ⟨0, 0⟩

/-- What an action calls. -/
inductive Call (F : Type) where
  | handle (id ms : Int) (action : F)
  | remove (id : Int)

/-- The surroundings of the pump: whether `Debug.Assert` is compiled in, `DateTime.Now` each time it is read, and what
an action calls, which may depend on a store that actions change. -/
structure World (F σ : Type) where
  debug : Bool
  clock : Nat → Int
  call : F → σ → List (Call F) × σ

/-- The timers of `pump`, how often the clock was read, and the store. -/
structure Pump (F σ : Type) where
  timers : Timers F
  readings : Nat
  store : σ

/-- What happens in a pass: a timer fires, with what the clock said, or `remove` takes a timer out. -/
inductive Event (F : Type) where
  | fired (e : Timer F) (now : Int)
  | removed (k : Deadline)
deriving DecidableEq

namespace World

variable (w : World F σ)

/-- `handle` -/
def handle (p : Pump F σ) (id ms : Int) (action : F) : Option (Pump F σ) :=
  if w.debug ∧ p.timers.entries.any (fun e => e.1.id = id) then none
  else
    (p.timers.add ⟨id, w.clock p.readings + ms * 10000⟩ action).map fun timers =>
      { p with timers, readings := p.readings + 1 }

/-- The key that `remove` looks for: `SingleOrDefault` throws for more than one. -/
def keyOf (p : Pump F σ) (id : Int) : Option Deadline :=
  match p.timers.entries.filter fun e => e.1.id = id with
  | [] => some .default
  | [e] => some e.1
  | _ => none

/-- `remove`, with the timer that is taken out -/
def remove (p : Pump F σ) (id : Int) : Option (Pump F σ × List (Event F)) :=
  if p.timers.entries = [] then some (p, [])
  else
    (keyOf p id).map fun k =>
      ({ p with timers := p.timers.remove k },
        if k ∈ p.timers.entries.map Prod.fst then [.removed k] else [])

/-- The calls of an action, up to one that throws. -/
def calls : List (Call F) → Pump F σ → Pump F σ × List (Event F) × Bool
  | [], p => (p, [], true)
  | .handle id ms action :: cs, p =>
    match w.handle p id ms action with
    | none => (p, [], false)
    | some p => calls cs p
  | .remove id :: cs, p =>
    match remove p id with
    | none => (p, [], false)
    | some (p, log) =>
      let (p, log', ok) := calls cs p
      (p, log ++ log', ok)

/-- The condition of the loop for the timer that is next -/
def goes (p : Pump F σ) (e : Timer F) : Bool := p.timers.entries ≠ [] && e.1.t ≤ w.clock p.readings

/-- The body of the loop: `Remove` and the action -/
def turn (p : Pump F σ) (e : Timer F) : Pump F σ × List (Event F) × Bool :=
  let (cs, store) := w.call e.2 p.store
  w.calls cs { timers := p.timers.remove e.1, readings := p.readings + 1, store }

/-- The loop over the timers that are left of the enumeration; an action that throws ends it. -/
def loop : List (Timer F) → Pump F σ → Pump F σ × List (Event F) × Bool
  | [], p => (p, [], true)
  | e :: rest, p =>
    if w.goes p e then
      let (p', log, ok) := w.turn p e
      if ok then
        let (p'', log', ok') := loop rest p'
        (p'', .fired e (w.clock p.readings) :: log ++ log', ok')
      else (p', .fired e (w.clock p.readings) :: log, false)
    else (if p.timers.entries = [] then p else { p with readings := p.readings + 1 }, [], true)

/-- The timers loop of `worker` -/
def pass (p : Pump F σ) : Pump F σ × List (Event F) × Bool := w.loop p.timers.orderByKey p

end World

/-! ## What is expected -/

/-- In order of deadline and identifier. -/
def Deadline.Before (k d : Deadline) : Prop := k.t < d.t ∨ k.t = d.t ∧ k.id < d.id

/-- The timers that fired, in order. -/
def firedIn (log : List (Event F)) : List (Timer F) :=
  log.filterMap fun
    | .fired e _ => some e
    | .removed _ => none

/-- The timers that were taken out, in order. -/
def removedIn (log : List (Event F)) : List Deadline :=
  log.filterMap fun
    | .fired _ _ => none
    | .removed k => some k

/-- In a pass over these timers each one fires at most once, when it has expired and in order, and not after it was
removed. -/
structure Right (timers : List (Timer F)) (log : List (Event F)) : Prop where
  once : (firedIn log).Nodup
  order : ((firedIn log).map Prod.fst).Pairwise Deadline.Before
  expired : ∀ e now, .fired e now ∈ log → e ∈ timers ∧ e.1.t ≤ now
  removed : log.Pairwise fun a b => ∀ e now, b = .fired e now → a ≠ .removed e.1

/-- Going over the timers while they are as they were: at the first one that an action has removed before its turn, no
timer is armed any more, or it has not expired. -/
def World.Stops (w : World F σ) (removed : List Deadline) : List (Timer F) → Pump F σ → Prop
  | [], _ => True
  | e :: rest, p =>
    if e.1 ∈ removed then p.timers.entries = [] ∨ ¬ e.1.t ≤ w.clock p.readings
    else w.goes p e → (w.turn p e).2.2 → w.Stops (removed ++ removedIn (w.turn p e).2.1) rest (w.turn p e).1

/-! ## The order of the turns -/

theorem compareTo_le_iff {k d : Deadline} : k.compareTo d ≤ 0 ↔ k.t < d.t ∨ k.t = d.t ∧ k.id ≤ d.id := by
  unfold Deadline.compareTo
  split
  · omega
  · split <;> omega

theorem before_of_le {k d : Deadline} (hle : k.compareTo d ≤ 0) (hne : k ≠ d) : k.Before d := by
  rw [compareTo_le_iff] at hle
  have hid : k.t = d.t → k.id ≠ d.id := fun ht hid => hne (by cases k; cases d; simp_all)
  unfold Deadline.Before
  omega

/-- The turns are in the order of deadline and identifier. -/
theorem orderByKey_sorted (timers : Timers F) : (timers.orderByKey.map Prod.fst).Pairwise Deadline.Before := by
  have hperm : timers.orderByKey.Perm timers.entries := List.mergeSort_perm _ _
  have hsorted : timers.orderByKey.Pairwise fun e d => decide (e.1.compareTo d.1 ≤ 0) = true := by
    refine List.pairwise_mergeSort ?_ ?_ timers.entries
    · intro a b c
      simp only [decide_eq_true_eq, compareTo_le_iff]
      omega
    · intro a b
      simp only [Bool.or_eq_true, decide_eq_true_eq, compareTo_le_iff]
      omega
  have hnodup : (timers.orderByKey.map Prod.fst).Nodup := ((hperm.map Prod.fst).nodup_iff).2 timers.nodup
  rw [List.pairwise_map]
  exact (hsorted.and (List.pairwise_map.1 hnodup)).imp fun h => before_of_le (of_decide_eq_true h.1) h.2

/-! ## What happens in a pass -/

section
variable {w : World F σ} {p p' : Pump F σ} {l : List (Timer F)} {e : Timer F}

theorem mem_removedIn {log : List (Event F)} {k : Deadline} : k ∈ removedIn log ↔ .removed k ∈ log := by
  simp only [removedIn, List.mem_filterMap]
  constructor
  · rintro ⟨ev, hev, heq⟩
    cases ev with
    | fired e now => cases heq
    | removed k' =>
      cases heq
      exact hev
  · exact fun h => ⟨_, h, rfl⟩

theorem mem_firedIn {log : List (Event F)} : e ∈ firedIn log ↔ ∃ now, .fired e now ∈ log := by
  simp only [firedIn, List.mem_filterMap]
  constructor
  · rintro ⟨ev, hev, heq⟩
    cases ev with
    | fired e' now =>
      cases heq
      exact ⟨now, hev⟩
    | removed k => cases heq
  · rintro ⟨now, h⟩
    exact ⟨_, h, rfl⟩

theorem remove_removed {id : Int} {log : List (Event F)} (h : World.remove p id = some (p', log)) :
    ∀ ev ∈ log, ∃ k, ev = .removed k := by
  unfold World.remove at h
  split at h
  · cases h
    simp
  · obtain ⟨k, -, hk⟩ := Option.map_eq_some_iff.1 h
    cases hk
    intro ev hev
    split at hev
    · exact ⟨k, List.mem_singleton.1 hev⟩
    · cases hev

/-- No timer fires while an action runs. -/
theorem calls_removed : ∀ (cs : List (Call F)) (p : Pump F σ), ∀ ev ∈ (w.calls cs p).2.1, ∃ k, ev = .removed k := by
  intro cs
  induction cs with
  | nil => intro p ev hev; cases hev
  | cons c cs ih =>
    intro p ev hev
    cases c with
    | handle id ms action =>
      rw [World.calls] at hev
      split at hev
      · cases hev
      · exact ih _ ev hev
    | remove id =>
      cases hr : World.remove p id with
      | none =>
        rw [World.calls, hr] at hev
        cases hev
      | some r =>
        have heq : (w.calls (.remove id :: cs) p).2.1 = r.2 ++ (w.calls cs r.1).2.1 := by
          rw [World.calls, hr]
        rw [heq, List.mem_append] at hev
        exact hev.elim (remove_removed hr ev) (ih r.1 ev)

theorem turn_removed (w : World F σ) (p : Pump F σ) (e : Timer F) :
    ∀ ev ∈ (w.turn p e).2.1, ∃ k, ev = .removed k := calls_removed _ _

theorem firedIn_turn (w : World F σ) (p : Pump F σ) (e : Timer F) : firedIn (w.turn p e).2.1 = [] := by
  refine List.eq_nil_iff_forall_not_mem.2 fun e' he => ?_
  obtain ⟨now, hmem⟩ := mem_firedIn.1 he
  obtain ⟨k, hk⟩ := turn_removed w p e _ hmem
  cases hk

/-- The log of the loop, from the turn of its first timer on. -/
theorem loop_cons (w : World F σ) (e : Timer F) (rest : List (Timer F)) (p : Pump F σ) :
    (w.loop (e :: rest) p).2.1 =
      if w.goes p e then
        .fired e (w.clock p.readings) :: (w.turn p e).2.1 ++
          (if (w.turn p e).2.2 then (w.loop rest (w.turn p e).1).2.1 else [])
      else [] := by
  rw [World.loop]
  split
  · rcases w.turn p e with ⟨p', log, ok⟩
    cases ok <;> simp
  · rfl

/-- The timers fire in the order of the turns. -/
theorem firedIn_loop : ∀ (l : List (Timer F)) (p : Pump F σ), firedIn (w.loop l p).2.1 <+: l := by
  intro l
  induction l with
  | nil => intro p; exact List.nil_prefix
  | cons e rest ih =>
    intro p
    rw [loop_cons]
    split
    · have hcons : firedIn (.fired e (w.clock p.readings) :: (w.turn p e).2.1 ++
          (if (w.turn p e).2.2 then (w.loop rest (w.turn p e).1).2.1 else [])) =
          e :: firedIn (if (w.turn p e).2.2 then (w.loop rest (w.turn p e).1).2.1 else []) := by
        have hturn := firedIn_turn w p e
        simp only [firedIn, List.cons_append, List.filterMap_cons, List.filterMap_append] at hturn ⊢
        rw [hturn, List.nil_append]
      rw [hcons]
      refine List.cons_prefix_cons.2 ⟨rfl, ?_⟩
      split
      · exact ih _
      · exact List.nil_prefix
    · exact List.nil_prefix

theorem loop_expired : ∀ (l : List (Timer F)) (p : Pump F σ) (e : Timer F) (now : Int),
    .fired e now ∈ (w.loop l p).2.1 → e.1.t ≤ now := by
  intro l
  induction l with
  | nil => intro p e now h; cases h
  | cons d rest ih =>
    intro p e now h
    rw [loop_cons] at h
    split at h
    · rename_i hgoes
      rcases List.mem_append.1 h with h | h
      · rcases List.mem_cons.1 h with heq | h
        · cases heq
          simp only [World.goes, Bool.and_eq_true, decide_eq_true_eq] at hgoes
          exact hgoes.2
        · obtain ⟨k, hk⟩ := turn_removed w p d _ h
          cases hk
      · split at h
        · exact ih _ e now h
        · cases h
    · cases h

/-- The loop fires no timer that is removed, then or before, just when it stops at the first one that is. -/
theorem loop_removed_iff : ∀ (l : List (Timer F)) (p : Pump F σ) (removed : List Deadline),
    ((w.loop l p).2.1.Pairwise (fun a b => ∀ e now, b = .fired e now → a ≠ .removed e.1) ∧
      ∀ e now, .fired e now ∈ (w.loop l p).2.1 → e.1 ∉ removed) ↔ w.Stops removed l p := by
  intro l
  induction l with
  | nil =>
    intro p removed
    simp [World.loop, World.Stops]
  | cons e rest ih =>
    intro p removed
    rw [loop_cons, World.Stops]
    have hgoes : w.goes p e = true ↔ ¬ (p.timers.entries = [] ∨ ¬ e.1.t ≤ w.clock p.readings) := by
      simp [World.goes]
    by_cases hr : e.1 ∈ removed
    · rw [if_pos hr]
      by_cases hg : w.goes p e
      · -- it fires though it was removed
        refine iff_of_false (fun h => h.2 e (w.clock p.readings) ?_ hr) (hgoes.1 hg)
        rw [if_pos hg]
        exact List.mem_append_left _ (by simp)
      · rw [if_neg hg]
        refine iff_of_true ⟨.nil, fun e now h => by cases h⟩ ?_
        by_contra hnot
        exact hg (hgoes.2 hnot)
    · rw [if_neg hr]
      by_cases hg : w.goes p e
      · rw [if_pos hg]
        cases hok : (w.turn p e).2.2 with
        | false =>
          simp only [Bool.false_eq_true, if_false, List.append_nil, false_imp_iff, implies_true, iff_true]
          refine ⟨List.pairwise_cons.2 ⟨fun b _ e' now _ => by simp, ?_⟩, fun e' now h => ?_⟩
          · refine List.pairwise_of_forall_mem_list fun a _ b hb e' now heq => ?_
            obtain ⟨k, hk⟩ := turn_removed w p e b hb
            rw [hk] at heq
            cases heq
          · rcases List.mem_cons.1 h with heq | h
            · cases heq
              exact hr
            · obtain ⟨k, hk⟩ := turn_removed w p e _ h
              cases hk
        | true =>
          simp only [if_true, hg, forall_const]
          rw [← ih (w.turn p e).1 (removed ++ removedIn (w.turn p e).2.1)]
          rw [List.cons_append, List.pairwise_cons, List.pairwise_append]
          have hturn := turn_removed w p e
          constructor
          · rintro ⟨⟨-, -, hpair, hcross⟩, hnot⟩
            refine ⟨hpair, fun e' now h hmem => ?_⟩
            rcases List.mem_append.1 hmem with hmem | hmem
            · exact hnot e' now (by simp [h]) hmem
            · exact hcross _ (mem_removedIn.1 hmem) _ h e' now rfl rfl
          · rintro ⟨hpair, hnot⟩
            refine ⟨⟨fun b _ e' now _ => by simp, ?_, hpair, ?_⟩, fun e' now h => ?_⟩
            · refine List.pairwise_of_forall_mem_list fun a _ b hb e' now heq => ?_
              obtain ⟨k, hk⟩ := hturn b hb
              rw [hk] at heq
              cases heq
            · rintro a ha b hb e' now rfl rfl
              exact hnot e' now hb (List.mem_append_right _ (mem_removedIn.2 ha))
            · rcases List.mem_cons.1 h with heq | h
              · cases heq
                exact hr
              · rcases List.mem_append.1 h with h | h
                · obtain ⟨k, hk⟩ := hturn _ h
                  cases hk
                · exact fun hmem => hnot e' now h (List.mem_append_left _ hmem)
      · rw [if_neg hg]
        exact iff_of_true ⟨.nil, fun e now h => by cases h⟩ fun h => absurd h hg

/-- A pass fires every timer at most once and in order, and no timer that was removed just when it stops at the first
one that is. -/
theorem pass_right_iff (w : World F σ) (p : Pump F σ) :
    Right p.timers.entries (w.pass p).2.1 ↔ w.Stops [] p.timers.orderByKey p := by
  have hbefore : firedIn (w.pass p).2.1 <+: p.timers.orderByKey := firedIn_loop _ p
  have hperm : p.timers.orderByKey.Perm p.timers.entries := List.mergeSort_perm _ _
  rw [← loop_removed_iff]
  constructor
  · exact fun h => ⟨h.removed, fun e now _ => by simp⟩
  · intro h
    refine ⟨?_, (orderByKey_sorted p.timers).sublist (hbefore.sublist.map Prod.fst), fun e now he => ⟨?_, ?_⟩, h.1⟩
    · have hnodup : p.timers.entries.Nodup := p.timers.nodup.of_map
      exact (hperm.nodup_iff.2 hnodup).sublist hbefore.sublist
    · exact hperm.subset (hbefore.subset (mem_firedIn.2 ⟨now, he⟩))
    · exact loop_expired _ p e now he

end

/-- Three timers that have expired; the action of the first one removes the second one. -/
def removesNext : World Nat Unit where
  debug := true
  clock _ := 10
  call n _ := (if n = 0 then [.remove 1] else [], ())

def threeTimers : Pump Nat Unit where
  timers := ⟨[(⟨0, 1⟩, 0), (⟨1, 2⟩, 1), (⟨2, 3⟩, 2)], by decide⟩
  readings := 0
  store := ()

/-- The second timer fires after it was removed. -/
theorem pass_fires_removed : ¬ ∀ (w : World Nat Unit) (p : Pump Nat Unit), Right p.timers.entries (w.pass p).2.1 := by
  intro h
  have horder : threeTimers.timers.orderByKey = threeTimers.timers.entries := List.mergeSort_of_pairwise (by decide)
  have hlog : (removesNext.pass threeTimers).2.1 =
      [.fired (⟨0, 1⟩, 0) 10, .removed ⟨1, 2⟩, .fired (⟨1, 2⟩, 1) 10, .fired (⟨2, 3⟩, 2) 10] := by
    rw [World.pass, horder]
    rfl
  have hright := (h removesNext threeTimers).removed
  rw [hlog] at hright
  simp at hright

end Dezyne.CsTimers
