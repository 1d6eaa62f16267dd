import Mathlib.Data.List.Nodup
import Mathlib.Data.List.Perm.Subperm
import Mathlib.Logic.Relation
import Dezyne.Lib.Walk
/-!
# Depth-first search

A search that goes over the edges of every state in their order and logs each
entry of a state that is not done: the states under way at that moment, the
innermost first, and the edge taken. An entry of a state under way is a hit,
and closes a cycle. Without hits there is none.
-/

namespace DepthFirst

variable {σ ε : Type}

/-- An entry of a state. -/
structure Event (σ ε : Type) where
  stack : List σ
  edge : Option ε
  state : σ

/-- The entries so far, the last one first, and the states that are done. -/
structure Search (σ ε : Type) where
  events : List (Event σ ε)
  done : List σ

section
variable [DecidableEq σ] (succ : σ → List ε) (target : ε → σ)

/-- Is the state under way where it is entered? -/
def Event.hit (v : Event σ ε) : Bool := v.state ∈ v.stack

/-- The hits of a log. -/
def hits (events : List (Event σ ε)) : List (Event σ ε) := events.filter Event.hit

/-- Enters a state over an edge, with the states of `stack` under way. -/
def visit : Nat → List σ → Option ε → σ → Search σ ε → Option (Search σ ε)
  | 0, _, _, _, _ => none
  | fuel + 1, stack, edge, state, r =>
    if state ∈ r.done then some r
    else if state ∈ stack then some { r with events := ⟨stack, edge, state⟩ :: r.events }
    else do
      let r ← (succ state).foldlM (fun r e => visit fuel (state :: stack) (some e) (target e) r)
        { r with events := ⟨stack, edge, state⟩ :: r.events }
      return { r with done := state :: r.done }

/-- The search from every one of the roots. -/
def search (roots : List σ) : Option (Search σ ε) :=
  roots.foldlM (fun r s => visit succ target (roots.length + 1) [] none s r) ⟨[], []⟩

/-- The states under way where a state was first entered. -/
def firstStack : List (Event σ ε) → σ → Option (List σ)
  | [], _ => none
  | v :: events, s => (firstStack events s).or (if v.state = s then some v.stack else none)

/-- The edge over which a state was last entered. -/
def lastEdge (events : List (Event σ ε)) (s : σ) : Option ε :=
  (events.find? fun v => v.state = s).bind Event.edge

/-- A log as a search makes it: a state is entered from one that is under way, over an edge of it, or as
a root. -/
inductive Log : List (Event σ ε) → Prop
  | nil : Log []
  | root {events : List (Event σ ε)} {s : σ} : Log events → firstStack events s = none →
      Log (⟨[], none, s⟩ :: events)
  | enter {events : List (Event σ ε)} {top s : σ} {e : ε} {stack : List σ} : Log events →
      firstStack events top = some stack → e ∈ succ top → target e = s →
      (firstStack events s = none ∨ s ∈ top :: stack) → Log (⟨top :: stack, some e, s⟩ :: events)

end

section
variable [DecidableEq σ] {succ : σ → List ε} {target : ε → σ} {events : List (Event σ ε)} {v : Event σ ε}
  {s t : σ} {stack : List σ} {e : ε}

/-! ## Logs -/

theorem firstStack_cons_of_some (h : firstStack events s = some stack) :
    firstStack (v :: events) s = some stack := by
  rw [firstStack, h, Option.some_or]

theorem firstStack_cons_of_none (h : firstStack events s = none) :
    firstStack (v :: events) s = if v.state = s then some v.stack else none := by
  rw [firstStack, h, Option.none_or]

theorem firstStack_eq_none : firstStack events s = none ↔ ∀ v ∈ events, v.state ≠ s := by
  induction events with
  | nil => simp [firstStack]
  | cons v events ih =>
    rw [firstStack, Option.or_eq_none_iff, ih, List.forall_mem_cons]
    by_cases h : v.state = s <;> simp [h, and_comm]

/-- A first stack is what remained of it where the states on it were first entered. -/
theorem Log.firstStack_suffix (h : Log succ target events) : ∀ {s stack}, firstStack events s = some stack →
    ∀ {above t below}, stack = above ++ t :: below → firstStack events t = some below := by
  induction h with
  | nil => intro s stack hs; cases hs
  | @root events s h hs ih =>
    intro s' stack hst above t below heq
    cases hs' : firstStack events s' with
    | some stack' =>
      rw [firstStack_cons_of_some hs'] at hst
      obtain rfl := Option.some.inj hst
      exact firstStack_cons_of_some (ih hs' heq)
    | none =>
      rw [firstStack_cons_of_none hs'] at hst
      split at hst
      · obtain rfl := Option.some.inj hst
        cases above <;> cases heq
      · cases hst
  | @enter events top s e stack h htop _ _ _ ih =>
    intro s' stack' hst above t below heq
    cases hs' : firstStack events s' with
    | some stack'' =>
      rw [firstStack_cons_of_some hs'] at hst
      obtain rfl := Option.some.inj hst
      exact firstStack_cons_of_some (ih hs' heq)
    | none =>
      rw [firstStack_cons_of_none hs'] at hst
      split at hst
      · obtain rfl := Option.some.inj hst
        apply firstStack_cons_of_some
        cases above with
        | nil =>
          obtain ⟨rfl, rfl⟩ := List.cons.inj heq
          exact htop
        | cons a above =>
          obtain ⟨-, heq⟩ := List.cons.inj heq
          exact ih htop heq
      · cases hst

theorem Log.firstStack_tail (h : Log succ target events) (hs : firstStack events s = some (t :: stack)) :
    firstStack events t = some stack :=
  h.firstStack_suffix hs (List.nil_append (t :: stack)).symm

/-- No state is on its own first stack. -/
theorem Log.not_mem_firstStack (h : Log succ target events) (hs : firstStack events s = some stack) :
    s ∉ stack := by
  intro hmem
  obtain ⟨above, below, rfl⟩ := List.append_of_mem hmem
  have := h.firstStack_suffix hs rfl
  rw [hs] at this
  have hlen := congrArg List.length (Option.some.inj this)
  simp at hlen
  omega

/-- Below a state: entered first while it was under way, or itself. -/
def Below (events : List (Event σ ε)) (t s : σ) : Prop :=
  ∃ stack, firstStack events s = some stack ∧ t ∈ s :: stack

theorem Log.below_trans (h : Log succ target events) {r : σ} (hst : Below events t s)
    (hrt : Below events r t) : Below events r s := by
  obtain ⟨stack, hs, ht⟩ := hst
  obtain ⟨stack', ht', hr⟩ := hrt
  refine ⟨stack, hs, ?_⟩
  rcases List.mem_cons.1 ht with rfl | ht
  · rw [hs] at ht'
    obtain rfl := Option.some.inj ht'
    exact hr
  · obtain ⟨above, below, rfl⟩ := List.append_of_mem ht
    rw [h.firstStack_suffix hs rfl] at ht'
    obtain rfl := Option.some.inj ht'
    rcases List.mem_cons.1 hr with rfl | hr <;> simp [*]

theorem Log.nodup_firstStack (h : Log succ target events) : ∀ {stack : List σ} {s : σ},
    firstStack events s = some stack → (s :: stack).Nodup := by
  intro stack
  induction stack with
  | nil => intro s _; exact List.nodup_singleton s
  | cons t stack ih =>
    intro s hs
    exact List.nodup_cons.2 ⟨h.not_mem_firstStack hs, ih (h.firstStack_tail hs)⟩

/-! ## The edges over which states were last entered -/

theorem lastEdge_cons_self {v : Event σ ε} : lastEdge (v :: events) v.state = v.edge := by
  rw [lastEdge, List.find?_cons_of_pos (by simp)]
  rfl

theorem lastEdge_cons_ne (h : v.state ≠ s) : lastEdge (v :: events) s = lastEdge events s := by
  rw [lastEdge, List.find?_cons_of_neg (by simpa using h), lastEdge]

theorem firstStack_cons_ne (h : v.state ≠ s) : firstStack (v :: events) s = firstStack events s := by
  rw [firstStack, if_neg h, Option.or_none]

theorem Below.cons (h : Below events t s) : Below (v :: events) t s := by
  obtain ⟨stack, hs, ht⟩ := h
  exact ⟨stack, firstStack_cons_of_some hs, ht⟩

/-- A state that was hit was last entered from one below it. -/
theorem Log.lastEdge_of_hit (h : Log succ target events) : ∀ v ∈ hits events, ∃ e top,
    lastEdge events v.state = some e ∧ e ∈ succ top ∧ target e = v.state ∧ Below events v.state top := by
  induction h with
  | nil => intro v hv; cases hv
  | @root events s h hs ih =>
    intro v hv
    have hv : v ∈ hits events := by simpa [hits, Event.hit] using hv
    have hne : s ≠ v.state := by
      intro heq
      exact firstStack_eq_none.1 hs v (List.mem_filter.1 hv).1 heq.symm
    obtain ⟨e, top, hl, he, ht, hb⟩ := ih v hv
    exact ⟨e, top, by rw [lastEdge_cons_ne hne, hl], he, ht, hb.cons⟩
  | @enter events top s e stack h htop he ht hs ih =>
    intro v hv
    by_cases hne : s = v.state
    · -- the last entry is the new one, and it is a hit
      rcases hs with hs | hs
      · have : v ∈ hits events := by
          rcases List.mem_cons.1 (List.mem_filter.1 hv).1 with rfl | hmem
          · have hhit : s ∈ top :: stack := by simpa [Event.hit] using (List.mem_filter.1 hv).2
            obtain ⟨above, below, heq⟩ := List.append_of_mem hhit
            cases above with
            | nil =>
              obtain ⟨rfl, -⟩ := List.cons.inj heq
              rw [hs] at htop
              cases htop
            | cons a above =>
              obtain ⟨-, heq⟩ := List.cons.inj heq
              rw [h.firstStack_suffix htop heq] at hs
              cases hs
          · exact List.mem_filter.2 ⟨hmem, (List.mem_filter.1 hv).2⟩
        exact absurd hne.symm (firstStack_eq_none.1 hs v (List.mem_filter.1 this).1)
      · refine ⟨e, top, ?_, he, by rw [ht, hne], stack, firstStack_cons_of_some htop, hne ▸ hs⟩
        rw [← hne]
        exact lastEdge_cons_self (v := ⟨top :: stack, some e, s⟩)
    · have hv : v ∈ hits events := by
        obtain ⟨hmem, hhit⟩ := List.mem_filter.1 hv
        rcases List.mem_cons.1 hmem with rfl | hmem
        · exact absurd rfl hne
        · exact List.mem_filter.2 ⟨hmem, hhit⟩
      obtain ⟨e', top', hl, he', ht', hb⟩ := ih v hv
      exact ⟨e', top', by rw [lastEdge_cons_ne hne, hl], he', ht', hb.cons⟩

/-- A state that was not hit was last entered from the innermost state under way. -/
theorem Log.lastEdge_of_not_hit (h : Log succ target events) : ∀ {s top stack},
    firstStack events s = some (top :: stack) → (∀ v ∈ hits events, v.state ≠ s) →
    ∃ e, lastEdge events s = some e ∧ e ∈ succ top ∧ target e = s := by
  induction h with
  | nil => intro s top stack hs; cases hs
  | @root events s h hs ih =>
    intro s' top' stack' hs' hnot
    by_cases hne : s = s'
    · subst hne
      rw [firstStack_cons_of_none hs, if_pos rfl] at hs'
      cases hs'
    · rw [firstStack_cons_ne hne] at hs'
      rw [lastEdge_cons_ne hne]
      exact ih hs' fun v hv => hnot v (by simpa [hits, Event.hit] using hv)
  | @enter events top s e stack h htop he ht hs ih =>
    intro s' top' stack' hs' hnot
    by_cases hne : s = s'
    · subst hne
      rcases hs with hs | hs
      · rw [firstStack_cons_of_none hs, if_pos rfl] at hs'
        obtain ⟨rfl, -⟩ := List.cons.inj (Option.some.inj hs')
        exact ⟨e, lastEdge_cons_self (v := ⟨top :: stack, some e, s⟩), he, ht⟩
      · refine absurd rfl (hnot ⟨top :: stack, some e, s⟩ (List.mem_filter.2 ⟨by simp, ?_⟩))
        simpa [Event.hit] using hs
    · rw [firstStack_cons_ne hne] at hs'
      rw [lastEdge_cons_ne hne]
      refine ih hs' fun v hv => hnot v ?_
      obtain ⟨hmem, hhit⟩ := List.mem_filter.1 hv
      exact List.mem_filter.2 ⟨List.mem_cons_of_mem _ hmem, hhit⟩

/-- A state was first entered over an edge from the innermost state under way. -/
theorem Log.first_edge (h : Log succ target events) : ∀ {s top stack},
    firstStack events s = some (top :: stack) → ∃ e ∈ succ top, target e = s := by
  induction h with
  | nil => intro s top stack hs; cases hs
  | @root events s h hs ih =>
    intro s' top' stack' hs'
    by_cases hne : s = s'
    · subst hne
      rw [firstStack_cons_of_none hs, if_pos rfl] at hs'
      cases hs'
    · rw [firstStack_cons_ne hne] at hs'
      exact ih hs'
  | @enter events top s e stack h htop he ht hs ih =>
    intro s' top' stack' hs'
    cases hold : firstStack events s' with
    | some st =>
      rw [firstStack_cons_of_some hold] at hs'
      exact ih (hold.trans hs')
    | none =>
      rw [firstStack_cons_of_none hold] at hs'
      split at hs'
      · rename_i hne
        obtain ⟨rfl, -⟩ := List.cons.inj (Option.some.inj hs')
        exact ⟨e, he, ht.trans hne⟩
      · cases hs'

/-- A walk leads from a state to one below it. -/
theorem Log.walk_of_below (h : Log succ target events) (hb : Below events t s) :
    ∃ p, Walk (fun a e b => e ∈ succ a ∧ target e = b) t p s := by
  obtain ⟨stack, hs, ht⟩ := hb
  induction stack generalizing s with
  | nil =>
    obtain rfl := List.mem_singleton.1 ht
    exact ⟨[], .nil t⟩
  | cons top stack ih =>
    rcases List.mem_cons.1 ht with rfl | ht
    · exact ⟨[], .nil t⟩
    · obtain ⟨e, he, hte⟩ := h.first_edge hs
      obtain ⟨p, hp⟩ := ih (h.firstStack_tail hs) ht
      exact ⟨p ++ [e], hp.snoc ⟨he, hte⟩⟩

/-- A hit closes a cycle. -/
theorem Log.cycle_of_hit (h : Log succ target events) (hv : v ∈ hits events) :
    ∃ c, c ≠ [] ∧ Walk (fun a e b => e ∈ succ a ∧ target e = b) v.state c v.state := by
  obtain ⟨e, top, -, he, ht, hb⟩ := h.lastEdge_of_hit v hv
  obtain ⟨p, hp⟩ := h.walk_of_below hb
  exact ⟨p ++ [e], by simp, hp.snoc ⟨he, ht⟩⟩

/-! ## Going back over the last edges -/

/-- The state from which a state was last entered. -/
def Back (source : ε → σ) (events : List (Event σ ε)) (s t : σ) : Prop :=
  ∃ e, lastEdge events s = some e ∧ source e = t

section
variable {source : ε → σ} (hsource : ∀ s, ∀ e ∈ succ s, source e = s)
include hsource

/-- Going back from a state below one that was hit stays below it. -/
theorem Log.back_below (h : Log succ target events) {r : σ} (hr : ∃ v ∈ hits events, v.state = r)
    (hb : Below events r s) : ∃ e, lastEdge events s = some e ∧ e ∈ succ (source e) ∧ target e = s ∧
      Below events r (source e) := by
  by_cases hit : ∃ v ∈ hits events, v.state = s
  · obtain ⟨v, hv, rfl⟩ := hit
    obtain ⟨e, top, hl, he, ht, hbelow⟩ := h.lastEdge_of_hit v hv
    rw [← hsource top e he] at hbelow he
    exact ⟨e, hl, he, ht, h.below_trans hbelow hb⟩
  · obtain ⟨stack, hs, hmem⟩ := hb
    have hmem : r ∈ stack := by
      rcases List.mem_cons.1 hmem with rfl | hmem
      · exact absurd hr hit
      · exact hmem
    cases stack with
    | nil => cases hmem
    | cons top stack =>
      obtain ⟨e, hl, he, ht⟩ := h.lastEdge_of_not_hit hs fun v hv heq => hit ⟨v, hv, heq⟩
      have htop := hsource top e he
      refine ⟨e, hl, by rwa [htop], ht, ?_⟩
      rw [htop]
      exact ⟨stack, h.firstStack_tail hs, hmem⟩

/-- Going back from the innermost state under way, over states that were not hit. -/
theorem Log.back_climb (h : Log succ target events) : ∀ {above : List σ} {top : σ} {rest below : List σ},
    firstStack events top = some rest → top :: rest = above ++ s :: below →
    (∀ x ∈ above, ∀ v ∈ hits events, v.state ≠ x) → Relation.ReflTransGen (Back source events) top s := by
  intro above
  induction above with
  | nil =>
    intro top rest below _ heq _
    obtain ⟨rfl, -⟩ := List.cons.inj heq
    exact .refl
  | cons a above ih =>
    intro top rest below hs heq hnot
    obtain ⟨rfl, hrest⟩ := List.cons.inj heq
    cases rest with
    | nil => cases above <;> cases hrest
    | cons r rest =>
      obtain ⟨e, hl, he, -⟩ := h.lastEdge_of_not_hit hs (hnot top (by simp))
      exact .head ⟨e, hl, hsource r e he⟩
        (ih (h.firstStack_tail hs) hrest fun x hx => hnot x (by simp [hx]))

/-- Nothing was hit, after the last hit's state, of what was under way at the last hit. -/
def Undisturbed (events : List (Event σ ε)) : Prop :=
  ∀ last ∈ (hits events).head?, ∀ x ∈ last.stack.takeWhile (· ≠ last.state), ∀ v ∈ hits events, v.state ≠ x

omit hsource in
theorem takeWhile_split : ∀ {l : List σ}, s ∈ l → ∃ below, l = l.takeWhile (· ≠ s) ++ s :: below := by
  intro l
  induction l with
  | nil => intro h; cases h
  | cons a l ih =>
    intro h
    by_cases ha : a = s
    · exact ⟨l, by simp [ha]⟩
    · obtain ⟨below, hbelow⟩ := ih ((List.mem_cons.1 h).resolve_left (Ne.symm ha))
      refine ⟨below, ?_⟩
      rw [List.takeWhile_cons_of_pos (by simpa using ha), List.cons_append, ← hbelow]

/-- Going back from the state hit last comes back to it exactly if nothing above it was hit. -/
theorem Log.back_closes_iff (h : Log succ target events) {last : Event σ ε} {rest : List (Event σ ε)}
    (hlast : hits events = last :: rest) :
    Relation.TransGen (Back source events) last.state last.state ↔ Undisturbed events := by
  have hmem : last ∈ hits events := by simp [hlast]
  -- the last hit is the last entry of its state, from the innermost state under way
  have htop : ∃ top stack e, last.stack = top :: stack ∧ firstStack events top = some stack ∧
      lastEdge events last.state = some e ∧ source e = top ∧ last.state ∈ top :: stack := by
    clear hmem
    induction h with
    | nil => cases hlast
    | @root events s h hs ih =>
      have hrest : hits events = last :: rest := by simpa [hits, Event.hit] using hlast
      have hne : s ≠ last.state := by
        intro heq
        have : last ∈ hits events := by simp [hrest]
        exact firstStack_eq_none.1 hs last (List.mem_filter.1 this).1 heq.symm
      obtain ⟨top, stack, e, hstack, htop, hl, hsrc, hmem⟩ := ih hrest
      exact ⟨top, stack, e, hstack, firstStack_cons_of_some htop, by rw [lastEdge_cons_ne hne, hl], hsrc, hmem⟩
    | @enter events top s e stack h htop he ht hs ih =>
      by_cases hhit : s ∈ top :: stack
      · have : hits (⟨top :: stack, some e, s⟩ :: events) = ⟨top :: stack, some e, s⟩ :: hits events :=
          List.filter_cons_of_pos (by simpa [Event.hit] using hhit)
        rw [this] at hlast
        obtain ⟨rfl, -⟩ := List.cons.inj hlast
        exact ⟨top, stack, e, rfl, firstStack_cons_of_some htop,
          lastEdge_cons_self (v := ⟨top :: stack, some e, s⟩), hsource top e he, hhit⟩
      · have : hits (⟨top :: stack, some e, s⟩ :: events) = hits events :=
          List.filter_cons_of_neg (by simpa [Event.hit] using hhit)
        rw [this] at hlast
        have hs : firstStack events s = none := hs.resolve_right hhit
        have hne : s ≠ last.state := by
          intro heq
          have : last ∈ hits events := by simp [hlast]
          exact firstStack_eq_none.1 hs last (List.mem_filter.1 this).1 heq.symm
        obtain ⟨top', stack', e', hstack, htop', hl, hsrc, hmem⟩ := ih hlast
        exact ⟨top', stack', e', hstack, firstStack_cons_of_some htop', by rw [lastEdge_cons_ne hne, hl], hsrc, hmem⟩
  obtain ⟨top, stack, e, hstack, htop, hl, hsrc, hstate⟩ := htop
  have hnodup := h.nodup_firstStack htop
  obtain ⟨below, hsplit⟩ := takeWhile_split hstate
  have hund : Undisturbed events ↔
      ∀ x ∈ (top :: stack).takeWhile (· ≠ last.state), ∀ v ∈ hits events, v.state ≠ x := by
    rw [Undisturbed, hlast, ← hstack]
    simp
  rw [hund]
  generalize (top :: stack).takeWhile (· ≠ last.state) = above at hsplit
  constructor
  · intro hback x hx v hv heq
    subst heq
    -- going back gets below the state that was hit, where the state hit last is not
    have hclosed : ∀ y, Relation.TransGen (Back source events) last.state y → Below events v.state y := by
      intro y hy
      induction hy with
      | single hb =>
        obtain ⟨e', hl', rfl⟩ := hb
        obtain rfl := Option.some.inj (hl.symm.trans hl')
        rw [hsrc]
        exact ⟨stack, htop, by rw [hsplit]; exact List.mem_append_left _ hx⟩
      | tail _ hb ih =>
        obtain ⟨e', hl', rfl⟩ := hb
        obtain ⟨e'', hl'', -, -, hbelow⟩ := h.back_below hsource ⟨v, hv, rfl⟩ ih
        obtain rfl := Option.some.inj (hl'.symm.trans hl'')
        exact hbelow
    obtain ⟨stack', hs', hmem'⟩ := hclosed _ hback
    have hbelow : stack' = below := by
      cases above with
      | nil => cases hx
      | cons a above =>
        obtain ⟨rfl, hrest⟩ := List.cons.inj hsplit
        rw [h.firstStack_suffix htop hrest] at hs'
        exact (Option.some.inj hs').symm
    rw [hsplit, List.nodup_append] at hnodup
    rw [hbelow] at hmem'
    exact hnodup.2.2 _ hx _ hmem' rfl
  · intro hnot
    have hclimb := h.back_climb hsource htop hsplit hnot
    exact .head' ⟨e, hl, hsrc⟩ hclimb

end

/-! ## Unwinding -/

/-- Goes back over the last edges until a state comes up from which one of them already starts. -/
def unwind (last : σ → Option ε) (source : ε → σ) : Nat → List ε → σ → Option (List ε)
  | 0, _, _ => none
  | fuel + 1, trace, state => do
    let edge ← last state
    if trace.any (fun e => source e = source edge) then return trace
    else unwind last source fuel (edge :: trace) (source edge)

section
variable {last : σ → Option ε} {source : ε → σ}

/-- The last edge into a state. -/
def LastStep (last : σ → Option ε) (source : ε → σ) (s : σ) (e : ε) (t : σ) : Prop :=
  last t = some e ∧ source e = s

omit [DecidableEq σ] in
theorem back_of_walk {s t : σ} {c : List ε} (h : Walk (LastStep last source) s c t) (hc : c ≠ []) :
    Relation.TransGen (fun a b => ∃ e, last a = some e ∧ source e = b) t s := by
  induction h with
  | nil => exact absurd rfl hc
  | @cons s t u e c he h ih =>
    cases c with
    | nil => cases h; exact .single ⟨e, he⟩
    | cons d c => exact .tail (ih (by simp)) ⟨e, he⟩

omit [DecidableEq σ] in
/-- The state at which unwinding stops is the one it began with if that comes up at all. -/
theorem unwind_stops {s x : σ} {c : List ε} (h : Walk (LastStep last source) x c s)
    (hn : (c.map source).Nodup) (hs : s ∈ c.map source) : x = s := by
  obtain ⟨d, hd, hsd⟩ := List.mem_map.1 hs
  obtain ⟨pre, post, rfl⟩ := List.append_of_mem hd
  obtain ⟨y, hpre, hpost⟩ := h.of_append
  have hy : y = s := by
    cases hpost with
    | cons he _ => exact he.2.symm.trans hsd
  subst hy
  rcases List.eq_nil_or_concat' pre with rfl | ⟨pre, f, rfl⟩
  · cases hpre
    rfl
  · -- the edges before `d` and at the end both enter `s` last
    obtain ⟨z, -, hlastf, -⟩ := hpre.of_snoc
    rcases List.eq_nil_or_concat' (d :: post) with hnil | ⟨init, g, hg⟩
    · cases hnil
    · rw [hg] at hpost
      obtain ⟨w, -, hlastg, -⟩ := hpost.of_snoc
      obtain rfl := Option.some.inj (hlastf.symm.trans hlastg)
      rw [hg, List.map_append, List.nodup_append] at hn
      exact absurd rfl (hn.2.2 (source f) (by simp) (source f) (by simp))

/-- Unwinding from a state of a set that is closed under going back ends, with a walk over last edges to
the state; the walk is closed exactly if going back comes back to the state. -/
theorem unwind_spec {P : σ → Prop} {U : List σ}
    (hP : ∀ s, P s → s ∈ U ∧ ∃ e, last s = some e ∧ P (source e)) {s : σ} (hs : P s) :
    ∃ c x, unwind last source (U.length + 1) [] s = some c ∧ c ≠ [] ∧ Walk (LastStep last source) x c s ∧
      (x = s ↔ Relation.TransGen (fun a b => ∃ e, last a = some e ∧ source e = b) s s) := by
  -- the edges of the trace start in different states of the list, so the fuel does not run out
  have main : ∀ fuel trace state, Walk (LastStep last source) state trace s → P state →
      (trace.map source).Nodup → (∀ x ∈ trace.map source, P x) → U.length < fuel + trace.length →
      (trace = [] → state = s) →
      ∃ c x, unwind last source fuel trace state = some c ∧ c ≠ [] ∧ Walk (LastStep last source) x c s ∧
        (c.map source).Nodup ∧ ∃ e, last x = some e ∧ source e ∈ c.map source := by
    intro fuel
    induction fuel with
    | zero =>
      intro trace state _ _ hn hall hlen _
      have hle := hn.length_le_of_subset fun x hx => (hP x (hall x hx)).1
      rw [List.length_map] at hle
      omega
    | succ fuel ih =>
      intro trace state hw hstate hn hall hlen hempty
      obtain ⟨-, e, he, hPe⟩ := hP state hstate
      rw [unwind]
      simp only [he, Option.bind_eq_bind, Option.bind_some]
      by_cases hany : trace.any (fun d => source d = source e) = true
      · rw [if_pos hany]
        obtain ⟨d, hd, hde⟩ := List.any_eq_true.1 hany
        have hmem : source e ∈ trace.map source := List.mem_map.2 ⟨d, hd, by simpa using hde⟩
        refine ⟨trace, state, rfl, ?_, hw, hn, e, he, hmem⟩
        rintro rfl
        cases hd
      · rw [if_neg hany]
        have hnot : source e ∉ trace.map source := by
          intro hmem
          obtain ⟨d, hd, hde⟩ := List.mem_map.1 hmem
          exact hany (List.any_eq_true.2 ⟨d, hd, by simpa using hde⟩)
        refine ih (e :: trace) (source e) (.cons ⟨he, rfl⟩ hw) hPe (List.nodup_cons.2 ⟨hnot, hn⟩) ?_
          (by rw [List.length_cons]; omega) (by simp)
        intro x hx
        rcases List.mem_cons.1 hx with rfl | hx
        · exact hPe
        · exact hall x hx
  obtain ⟨c, x, hc, hne, hw, hn, e, he, hmem⟩ := main (U.length + 1) [] s (.nil s) hs (by simp) (by simp)
    (by simp) (fun _ => rfl)
  refine ⟨c, x, hc, hne, hw, ?_, fun hback => unwind_stops hw hn ?_⟩
  · rintro rfl
    exact back_of_walk hw hne
  · -- the starts of the edges are closed under going back
    have hclosed : ∀ a ∈ c.map source, ∀ b, (∃ e, last a = some e ∧ source e = b) → b ∈ c.map source := by
      rintro a ha b ⟨e', he', rfl⟩
      obtain ⟨d, hd, rfl⟩ := List.mem_map.1 ha
      obtain ⟨pre, post, rfl⟩ := List.append_of_mem hd
      obtain ⟨y, hpre, hpost⟩ := hw.of_append
      have hy : source d = y := by
        cases hpost with
        | cons h _ => exact h.2
      subst hy
      rcases List.eq_nil_or_concat' pre with rfl | ⟨pre, f, rfl⟩
      · cases hpre
        obtain rfl := Option.some.inj (he.symm.trans he')
        exact hmem
      · obtain ⟨z, -, hlast, -⟩ := hpre.of_snoc
        obtain rfl := Option.some.inj (hlast.symm.trans he')
        simp
    have hfirst : ∀ b, (∃ e, last s = some e ∧ source e = b) → b ∈ c.map source := by
      rintro b ⟨e', he', rfl⟩
      rcases List.eq_nil_or_concat' c with rfl | ⟨init, g, rfl⟩
      · exact absurd rfl hne
      · obtain ⟨w, -, hlast, -⟩ := hw.of_snoc
        obtain rfl := Option.some.inj (hlast.symm.trans he')
        simp
    have hall : ∀ b, Relation.TransGen (fun a b => ∃ e, last a = some e ∧ source e = b) s b → b ∈ c.map source := by
      intro b hb
      induction hb with
      | single h => exact hfirst _ h
      | tail _ h ih => exact hclosed _ ih _ h
    exact hall s hback

end

/-! ## The search -/

/-- A state and what has an edge to it. -/
def Leads (succ : σ → List ε) (target : ε → σ) (t s : σ) : Prop := ∃ e ∈ succ s, target e = t

/-- A search with the states of `stack` under way, all of `roots`. -/
structure Config (succ : σ → List ε) (target : ε → σ) (roots stack : List σ) (r : Search σ ε) : Prop where
  log : Log succ target r.events
  inside : ∀ v ∈ r.events, v.state ∈ roots
  entered : ∀ s, firstStack r.events s ≠ none ↔ s ∈ stack ∨ s ∈ r.done
  disjoint : ∀ s ∈ stack, s ∉ r.done
  top : ∀ top rest, stack = top :: rest → firstStack r.events top = some rest

/-- What a search goes on to with the same states under way. -/
structure Extends (succ : σ → List ε) (target : ε → σ) (roots stack : List σ) (r r' : Search σ ε) : Prop where
  config : Config succ target roots stack r'
  done : r.done ⊆ r'.done
  events : ∃ new, r'.events = new ++ r.events
  acc : hits r'.events = hits r.events → (∀ s ∈ r.done, Acc (Leads succ target) s) →
    ∀ s ∈ r'.done, Acc (Leads succ target) s

/-- The states that are not entered yet. -/
def fresh (roots stack : List σ) (r : Search σ ε) : List σ :=
  roots.filter fun s => s ∉ stack ∧ s ∉ r.done

variable {roots : List σ} {r r' r'' : Search σ ε}

theorem Extends.hits_length (h : Extends succ target roots stack r r') :
    (hits r.events).length ≤ (hits r'.events).length := by
  obtain ⟨new, hnew⟩ := h.events
  rw [hnew, hits, hits, List.filter_append, List.length_append]
  omega

theorem Extends.hits_eq (h : Extends succ target roots stack r r')
    (hlen : (hits r'.events).length = (hits r.events).length) : hits r'.events = hits r.events := by
  obtain ⟨new, hnew⟩ := h.events
  rw [hnew, hits, hits, List.filter_append, List.length_append] at hlen
  rw [hnew, hits, hits, List.filter_append, List.eq_nil_of_length_eq_zero (by omega : (new.filter Event.hit).length = 0),
    List.nil_append]

theorem Extends.trans (h : Extends succ target roots stack r r')
    (h' : Extends succ target roots stack r' r'') : Extends succ target roots stack r r'' := by
  refine ⟨h'.config, List.Subset.trans h.done h'.done, ?_, fun heq hacc => ?_⟩
  · obtain ⟨new, hnew⟩ := h.events
    obtain ⟨new', hnew'⟩ := h'.events
    exact ⟨new' ++ new, by rw [hnew', hnew, List.append_assoc]⟩
  · have hlen := congrArg List.length heq
    have h1 := h.hits_length
    have h2 := h'.hits_length
    exact h'.acc (h'.hits_eq (by omega)) (h.acc (h.hits_eq (by omega)) hacc)

theorem fresh_length_le (h : r.done ⊆ r'.done) :
    (fresh roots stack r').length ≤ (fresh roots stack r).length := by
  apply List.Sublist.length_le
  apply List.monotone_filter_right
  intro s hs
  simp only [decide_eq_true_eq] at hs ⊢
  exact ⟨hs.1, fun hd => hs.2 (h hd)⟩

/-- What a search does for one state after the other. -/
theorem foldlM_extends {α : Type} (f : Search σ ε → α → Option (Search σ ε)) (good : α → Search σ ε → Prop)
    {n : Nat} (hgood : ∀ a r r', Extends succ target roots stack r r' → good a r → good a r')
    {l : List α} (hf : ∀ a ∈ l, ∀ r, Config succ target roots stack r → (fresh roots stack r).length < n →
      ∃ r', f r a = some r' ∧ Extends succ target roots stack r r' ∧
        (good a r' ∨ hits r'.events ≠ hits r.events)) :
    ∀ r, Config succ target roots stack r → (fresh roots stack r).length < n →
      ∃ r', l.foldlM f r = some r' ∧ Extends succ target roots stack r r' ∧
        (hits r'.events = hits r.events → ∀ a ∈ l, good a r') := by
  induction l with
  | nil =>
    intro r hc _
    exact ⟨r, rfl, ⟨hc, List.Subset.refl _, ⟨[], rfl⟩, fun _ h => h⟩, fun _ a ha => by cases ha⟩
  | cons a l ih =>
    intro r hc hn
    obtain ⟨r', hr', hext, hg⟩ := hf a (by simp) r hc hn
    obtain ⟨r'', hr'', hext', hall⟩ := ih (fun b hb => hf b (by simp [hb])) r' hext.config
      (Nat.lt_of_le_of_lt (fresh_length_le hext.done) hn)
    refine ⟨r'', by rw [List.foldlM_cons, hr']; exact hr'', hext.trans hext', fun heq b hb => ?_⟩
    have hlen := congrArg List.length heq
    have h1 := hext.hits_length
    have h2 := hext'.hits_length
    rcases List.mem_cons.1 hb with rfl | hb
    · rcases hg with hg | hne
      · exact hgood b r' r'' hext' hg
      · exact absurd (hext.hits_eq (by omega)) hne
    · exact hall (hext'.hits_eq (by omega)) b hb

/-- Entering a state: it is done afterwards, or under way and hit. -/
theorem visit_extends (hroots : ∀ s ∈ roots, ∀ e ∈ succ s, target e ∈ roots) :
    ∀ fuel stack edge state r, Config succ target roots stack r → state ∈ roots →
      (stack = [] ∧ edge = none ∨ ∃ top rest e, stack = top :: rest ∧ edge = some e ∧ e ∈ succ top ∧ target e = state) →
      (fresh roots stack r).length < fuel →
      ∃ r', visit succ target fuel stack edge state r = some r' ∧ Extends succ target roots stack r r' ∧
        (state ∈ r'.done ∨ hits r'.events ≠ hits r.events) := by
  intro fuel
  induction fuel with
  | zero => intro stack edge state r _ _ _ h; omega
  | succ fuel ih =>
    intro stack edge state r hc hstate hedge hfuel
    rw [visit]
    -- a state that is done is left as it is
    by_cases hdone : state ∈ r.done
    · rw [if_pos hdone]
      exact ⟨r, rfl, ⟨hc, List.Subset.refl _, ⟨[], rfl⟩, fun _ h => h⟩, .inl hdone⟩
    rw [if_neg hdone]
    have hinside : ∀ v ∈ (⟨stack, edge, state⟩ :: r.events : List (Event σ ε)), v.state ∈ roots := by
      intro v hv
      rcases List.mem_cons.1 hv with rfl | hv
      · exact hstate
      · exact hc.inside v hv
    by_cases hstack : state ∈ stack
    · -- a hit
      rw [if_pos hstack]
      have hhit : hits (⟨stack, edge, state⟩ :: r.events) = ⟨stack, edge, state⟩ :: hits r.events :=
        List.filter_cons_of_pos (by simpa [Event.hit] using hstack)
      have hne : hits (⟨stack, edge, state⟩ :: r.events) ≠ hits r.events := by rw [hhit]; simp
      have hsome : firstStack r.events state ≠ none := (hc.entered state).2 (.inl hstack)
      obtain ⟨st, hst⟩ := Option.ne_none_iff_exists'.1 hsome
      have hsame : ∀ s, firstStack (⟨stack, edge, state⟩ :: r.events) s = firstStack r.events s := by
        intro s
        by_cases hs : state = s
        · subst hs
          rw [firstStack_cons_of_some hst, hst]
        · exact firstStack_cons_ne hs
      refine ⟨_, rfl, ⟨⟨?_, hinside, fun s => ?_, hc.disjoint, fun top rest h => ?_⟩, List.Subset.refl _,
        ⟨[_], rfl⟩, fun h => absurd h hne⟩, .inr hne⟩
      · rcases hedge with ⟨rfl, -⟩ | ⟨top, rest, e, rfl, rfl, he, ht⟩
        · cases hstack
        · exact .enter hc.log (hc.top top rest rfl) he ht (.inr hstack)
      · rw [hsame]
        exact hc.entered s
      · rw [hsame]
        exact hc.top top rest h
    · -- a new state: what it leads to, and then it is done
      rw [if_neg hstack]
      have hnone : firstStack r.events state = none := by
        by_contra h
        exact ((hc.entered state).1 h).elim hstack hdone
      have hself : firstStack (⟨stack, edge, state⟩ :: r.events) state = some stack := by
        rw [firstStack_cons_of_none hnone, if_pos rfl]
      have hother : ∀ s, s ≠ state → firstStack (⟨stack, edge, state⟩ :: r.events) s = firstStack r.events s :=
        fun s hs => firstStack_cons_ne (Ne.symm hs)
      have hnohit : hits (⟨stack, edge, state⟩ :: r.events) = hits r.events :=
        List.filter_cons_of_neg (by simpa [Event.hit] using hstack)
      have hlog : Log succ target (⟨stack, edge, state⟩ :: r.events) := by
        rcases hedge with ⟨rfl, rfl⟩ | ⟨top, rest, e, rfl, rfl, he, ht⟩
        · exact .root hc.log hnone
        · exact .enter hc.log (hc.top top rest rfl) he ht (.inl hnone)
      have hconfig : Config succ target roots (state :: stack) { r with events := ⟨stack, edge, state⟩ :: r.events } := by
        refine ⟨hlog, hinside, fun s => ?_, fun s hs => ?_, fun top rest h => ?_⟩
        · by_cases hs : s = state
          · subst hs
            simp [hself]
          · rw [show firstStack _ s = _ from hother s hs, hc.entered s]
            simp [hs]
        · rcases List.mem_cons.1 hs with rfl | hs
          · exact hdone
          · exact hc.disjoint s hs
        · obtain ⟨rfl, rfl⟩ := List.cons.inj h
          exact hself
      -- the new state is fresh no more, so the fuel is enough for its successors
      have hfresh : (fresh roots (state :: stack) { r with events := ⟨stack, edge, state⟩ :: r.events }).length < fuel := by
        have hlt : (fresh roots (state :: stack) { r with events := ⟨stack, edge, state⟩ :: r.events }).length <
            (fresh roots stack r).length := by
          have hsub : (fresh roots (state :: stack) { r with events := ⟨stack, edge, state⟩ :: r.events }).Sublist
              (fresh roots stack r) := by
            apply List.monotone_filter_right
            intro s hs
            simp only [List.mem_cons, not_or, decide_eq_true_eq] at hs ⊢
            exact ⟨hs.1.2, hs.2⟩
          refine Nat.lt_of_le_of_ne hsub.length_le fun hlen => ?_
          have heq := hsub.eq_of_length hlen
          have hmem : state ∈ fresh roots stack r := List.mem_filter.2 ⟨hstate, by simp [hstack, hdone]⟩
          rw [← heq] at hmem
          simpa using (List.mem_filter.1 hmem).2
        omega
      obtain ⟨r', hr', hext, hall⟩ := foldlM_extends
        (fun r e => visit succ target fuel (state :: stack) (some e) (target e) r) (fun e r => target e ∈ r.done)
        (fun e r r' h hg => h.done hg) (l := succ state)
        (fun e he r hc hfresh => ih (state :: stack) (some e) (target e) r hc (hroots state hstate e he)
          (.inr ⟨state, stack, e, rfl, rfl, he, rfl⟩) hfresh) _ hconfig hfresh
      simp only [hr', Option.bind_eq_bind, Option.bind_some]
      have hc' := hext.config
      have hdone' : r.done ⊆ r'.done := hext.done
      refine ⟨{ r' with done := state :: r'.done }, rfl, ⟨⟨hc'.log, hc'.inside, fun s => ?_, fun s hs => ?_,
        fun top rest h => ?_⟩, fun s hs => List.mem_cons_of_mem _ (hdone' hs), ?_, fun heq hacc => ?_⟩, .inl (by simp)⟩
      · show firstStack r'.events s ≠ none ↔ s ∈ stack ∨ s ∈ state :: r'.done
        rw [hc'.entered s]
        simp only [List.mem_cons]
        tauto
      · intro hmem
        rcases List.mem_cons.1 hmem with rfl | hmem
        · exact hstack hs
        · exact hc'.disjoint s (List.mem_cons_of_mem _ hs) hmem
      · subst h
        exact hc'.log.firstStack_tail (hc'.top state _ rfl)
      · obtain ⟨new, hnew⟩ := hext.events
        exact ⟨new ++ [⟨stack, edge, state⟩], by simp [hnew]⟩
      · have heq : hits r'.events = hits (⟨stack, edge, state⟩ :: r.events) := by rw [hnohit]; exact heq
        -- no hit below the state: each successor is done, and so accessible
        have hold := hext.acc heq hacc
        intro s hs
        rcases List.mem_cons.1 hs with rfl | hs
        · refine ⟨s, fun t ht => ?_⟩
          obtain ⟨e, he, rfl⟩ := ht
          exact hold _ (hall heq e he)
        · exact hold s hs

/-- A search from all the states ends with a log. Without hits the edges lead nowhere for ever. -/
theorem search_spec (hroots : ∀ s ∈ roots, ∀ e ∈ succ s, target e ∈ roots) :
    ∃ r, search succ target roots = some r ∧ Log succ target r.events ∧ (∀ v ∈ r.events, v.state ∈ roots) ∧
      (hits r.events = [] → ∀ s ∈ roots, Acc (Leads succ target) s) := by
  have hstart : Config succ target roots [] (⟨[], []⟩ : Search σ ε) :=
    ⟨.nil, by simp, by simp [firstStack], by simp, by simp⟩
  have hlen : (fresh roots [] (⟨[], []⟩ : Search σ ε)).length < roots.length + 1 :=
    Nat.lt_succ_of_le (List.length_filter_le _ _)
  obtain ⟨r, hr, hext, hall⟩ := foldlM_extends
    (fun r s => visit succ target (roots.length + 1) [] none s r) (fun s r => s ∈ r.done)
    (fun s r r' h hg => h.done hg) (l := roots)
    (fun s hs r hc hfresh => visit_extends hroots _ [] none s r hc hs (.inl ⟨rfl, rfl⟩) hfresh) _ hstart hlen
  refine ⟨r, hr, hext.config.log, hext.config.inside, fun hnone s hs => ?_⟩
  exact hext.acc hnone (by simp) s (hall hnone s hs)

end

end DepthFirst
