import Dezyne.Collect
/-!
# `normalize:state` keeps what is enabled

The canonical ons of a tree without drained compounds have exactly its enabled
statements, in order. A compound is drained when removing invariants leaves it
with an empty compound first, which the source takes as imperative: it then
counts as a handler of its own, and what is directly in it is not collected.
-/

namespace Dezyne

namespace Stmt

/-! ## Statements that keep what they are -/

/-- No invariant in it, as the check also lets through in the compound of an if or a defer. -/
def invariantFree : Stmt → Bool
  | .compound ss => elements ss
  | .declarativeCompound ss => elements ss
  | .guard _ s => s.invariantFree
  | .on _ s => s.invariantFree
  | .blocking s => s.invariantFree
  | .invariant _ => false
  | .ifThen _ s => s.invariantFree
  | .ifElse _ s t => s.invariantFree && t.invariantFree
  | .defer _ s => s.invariantFree
  | _ => true
where
  elements : List Stmt → Bool
  | [] => true
  | s :: ss => s.invariantFree && elements ss

/-- An imperative statement that is collected as it is, and nothing in it. -/
def plain (s : Stmt) : Bool := s.imperative && s.invariantFree && !s.nests

/-- Declarative still once the invariants are removed. -/
def declares : Stmt → Bool
  | .compound ss => elements ss
  | s => s.declarative
where
  elements : List Stmt → Bool
  | [] => false
  | s :: ss => if s.vanishes then elements ss else s.declares

/-- Removing the invariants neither adds nor loses a statement that is enabled. `visited` tells
whether the parent is still declarative. -/
def Kept (ρ : Valuation) (t : Trigger) (on : Option Trigger) (blocking visited : Bool) : Stmt → Prop
  | .compound ss =>
    if (Stmt.compound ss).declares then elements ρ t on blocking true ss
    else if (Stmt.compound ss).declarative then
      -- a drained compound: within an on it is added as a handler, outside its ons are still
      -- found, but not when its parent is drained as well
      if visited then on = none ∧ elements ρ t on blocking false ss
      else (Stmt.compound ss).enabled ρ t on blocking = []
    else on.isSome → visited
  | .guard _ _ => True
  | .on ts s => match ts.find? t.equal with
    | some u => s.Kept ρ t (some u) blocking true
    | none => True
  | .blocking s => s.Kept ρ t on true true
  | .invariant _ => True
  | _ => on.isSome → visited
where
  elements (ρ : Valuation) (t : Trigger) (on : Option Trigger) (blocking visited : Bool) : List Stmt → Prop
  | [] => True
  | s :: ss => s.Kept ρ t on blocking visited ∧ elements ρ t on blocking visited ss

/-- Its first element, and the first element of that, and so on, ends in an empty compound. -/
def startsEmpty : Stmt → Bool
  | .compound ss => elements ss
  | _ => false
where
  elements : List Stmt → Bool
  | [] => true
  | s :: _ => s.startsEmpty

/-! ## The elements of a compound -/

section
variable {ρ : Valuation} {t : Trigger} {on : Option Trigger} {blocking visited : Bool}

theorem removeInvariant_elements (ss : List Stmt) :
    removeInvariant.elements ss = (ss.filter (!·.vanishes)).map removeInvariant := by
  induction ss with
  | nil => rfl
  | cons s ss ih =>
    rw [removeInvariant.elements, ih]
    by_cases h : s.vanishes <;> simp [h]

theorem invariantFree_elements {ss : List Stmt} :
    invariantFree.elements ss ↔ ∀ s ∈ ss, s.invariantFree := by
  induction ss with
  | nil => simp [invariantFree.elements]
  | cons s ss ih => simp [invariantFree.elements, ih]

theorem kept_elements {ss : List Stmt} :
    Kept.elements ρ t on blocking visited ss ↔ ∀ s ∈ ss, s.Kept ρ t on blocking visited := by
  induction ss with
  | nil => simp [Kept.elements]
  | cons s ss ih => simp [Kept.elements, ih]

end

/-! ## Removing the invariants -/

theorem removeInvariant_declarative (s : Stmt) : s.removeInvariant.declarative = s.declares := by
  induction s with
  | compound ss ih =>
    show declarative.head (removeInvariant.elements ss) = declares.elements ss
    induction ss with
    | nil => rfl
    | cons s ss ihs =>
      unfold removeInvariant.elements declares.elements
      split
      · exact ihs fun s' h => ih s' (by simp [h])
      · exact ih s (by simp)
  | _ => rfl

theorem declares_declarative {s : Stmt} (h : s.declares) : s.declarative := by
  induction s with
  | compound ss ih =>
    cases ss with
    | nil => cases h
    | cons s ss =>
      change (if s.vanishes then declares.elements ss else s.declares) at h
      show s.declarative
      split at h
      · rename_i hv
        unfold vanishes at hv
        split at hv <;> first | rfl | cases hv
      · exact ih s (by simp) h
  | _ => exact h

/-- A compound that reads as imperative after the removal starts with an empty one. -/
theorem removeInvariant_startsEmpty {s : Stmt} (hw : s.Unmixed) (hd : s.declarative)
    (h : s.declares = false) : s.removeInvariant.startsEmpty := by
  induction s with
  | compound ss ih =>
    obtain ⟨hm, hw⟩ := hw
    have hall : ∀ s ∈ ss, s.declarative := fun s hs => (hm s hs).trans hd
    rw [unmixed_elements] at hw
    change declares.elements ss = false at h
    show startsEmpty.elements (removeInvariant.elements ss)
    clear hm hd
    induction ss with
    | nil => rfl
    | cons s ss ihs =>
      unfold removeInvariant.elements
      unfold declares.elements at h
      split at h
      · rw [if_pos ‹_›]
        exact ihs (fun s' h => ih s' (by simp [h])) (fun s' h => hw s' (by simp [h]))
          (fun s' h => hall s' (by simp [h])) h
      · rw [if_neg ‹_›]
        exact ih s (by simp) (hw s (by simp)) (hall s (by simp)) h
  | _ => simp_all [declares]

theorem startsEmpty_imperative {s : Stmt} (h : s.startsEmpty) : s.imperative := by
  induction s with
  | compound ss ih =>
    cases ss with
    | nil => rfl
    | cons s ss => exact ih s (by simp) h
  | _ => cases h

/-! ## Plain statements -/

theorem plain_imperative {s : Stmt} (h : s.plain) : s.imperative := by
  simp only [plain, Bool.and_eq_true] at h
  exact h.1.1

theorem plain_nests {s : Stmt} (h : s.plain) : s.nests = false := by
  simp only [plain, Bool.and_eq_true, Bool.not_eq_true'] at h
  exact h.2

theorem vanishes_not_invariantFree {s : Stmt} (h : s.vanishes) : s.invariantFree = false := by
  unfold vanishes at h
  split at h
  · rfl
  · rfl
  · cases h

theorem invariantFree_removeInvariant {s : Stmt} (h : s.invariantFree) : s.removeInvariant = s := by
  induction s with
  | compound ss ih | declarativeCompound ss ih =>
    have hp := invariantFree_elements.1 h
    have hf : ss.filter (!·.vanishes) = ss := List.filter_eq_self.2 fun s hs => by
      by_contra hv
      have := vanishes_not_invariantFree (by simpa using hv : s.vanishes)
      rw [hp s hs] at this
      cases this
    rw [removeInvariant, removeInvariant_elements, hf, List.map_congr_left fun s hs => ih s hs (hp s hs),
      List.map_id']
  | on ts s ih => rw [removeInvariant, ih h]
  | blocking s ih => rw [removeInvariant, ih h]
  | ifThen e s ih => rw [removeInvariant, ih h]
  | ifElse e s t ihs iht =>
    simp only [invariantFree, Bool.and_eq_true] at h
    rw [removeInvariant, ihs h.1, iht h.2]
  | defer as s ih => rw [removeInvariant, ih h]
  | _ => rfl

theorem plain_removeInvariant {s : Stmt} (h : s.plain) : s.removeInvariant = s := by
  simp only [plain, Bool.and_eq_true] at h
  exact invariantFree_removeInvariant h.1.2

/-- A plain statement is collected itself, if its parent is declarative, and nothing in it. -/
theorem plain_imperatives {s : Stmt} (h : s.plain) (path : List Frame) (d : Bool) :
    s.imperatives path d = if d then [(path, s)] else [] := by
  rw [imperatives_eq (plain_imperative h), nested_eq_nil.2 (plain_nests h)]

theorem removeInvariant_guardless {s : Stmt} (h : s.guardless) : s.removeInvariant.guardless := by
  induction s with
  | compound ss ih =>
    have hp := guardless_elements.1 h
    rw [removeInvariant, guardless, guardless_elements, removeInvariant_elements]
    intro s' hs'
    obtain ⟨s, hs, rfl⟩ := List.mem_map.1 hs'
    have hs := (List.mem_filter.1 hs).1
    exact ih s hs (hp s hs)
  | blocking s ih => exact ih h
  | ifThen e s ih => exact ih h
  | ifElse e s t ihs iht =>
    simp only [guardless, Bool.and_eq_true] at h
    simp only [removeInvariant, guardless, Bool.and_eq_true]
    exact ⟨ihs h.1, iht h.2⟩
  | defer as s ih => exact ih h
  | _ => exact h

theorem removeInvariant_frames (s : Stmt) : s.removeInvariant.frames ⊆ s.frames := by
  induction s with
  | compound ss ih | declarativeCompound ss ih =>
    simp only [removeInvariant, frames, removeInvariant_elements, frames_elements]
    intro f hf
    obtain ⟨s', hs', hf⟩ := List.mem_flatMap.1 hf
    obtain ⟨s, hs, rfl⟩ := List.mem_map.1 hs'
    have hs := (List.mem_filter.1 hs).1
    exact List.mem_flatMap.2 ⟨s, hs, ih s hs hf⟩
  | on ts s ih => exact List.cons_subset_cons _ ih
  | blocking s ih => exact List.cons_subset_cons _ ih
  | ifThen e s ih => exact ih
  | ifElse e s t ihs iht =>
    exact List.append_subset.2 ⟨List.subset_append_of_subset_left _ ihs,
      List.subset_append_of_subset_right _ iht⟩
  | defer as s ih => exact ih
  | _ => exact List.Subset.refl _

end Stmt

/-! ## What removing the invariants changes -/

section
variable {Γ : Context} {m : Model} {ρ : Valuation} {t : Trigger}

/-- Below a path that does not open nothing is enabled, invariants or not. -/
theorem collected_removed_closed {s : Stmt} : ∀ {inOn d : Bool} {path : List Frame},
    s.WellFormed Γ inOn → Frame.Fits inOn path → Frame.opens ρ t path = false →
      collected m ρ t (s.removeInvariant.imperatives path d) = [] := by
  have handler : ∀ {s : Stmt} {inOn d : Bool} {path : List Frame}, s.guardless → Frame.Fits inOn path →
      Frame.opens ρ t path = false → collected m ρ t (s.removeInvariant.imperatives path d) = [] :=
    fun hs hf ho => collected_eq_nil.2 fun x hx =>
      (collected_guardless hf (Stmt.removeInvariant_guardless hs) hx).2 (.inl ho)
  induction s with
  | compound ss ih =>
    intro inOn d path hw hf ho
    by_cases hs : (Stmt.compound ss).declarative
    · have hws := Stmt.wellFormed_elements.1 hw.2
      have helems : ∀ d', collected m ρ t (Stmt.imperatives.elements path d'
          (Stmt.removeInvariant.elements ss)) = [] := by
        intro d'
        rw [Stmt.imperatives_elements, collected_flatMap, Stmt.removeInvariant_elements,
          List.flatMap_eq_nil_iff]
        intro s' hs'
        obtain ⟨s, h, rfl⟩ := List.mem_map.1 hs'
        have h := (List.mem_filter.1 h).1
        exact ih s h (hws s h) hf ho
      rw [Stmt.removeInvariant, Stmt.imperatives, Stmt.visit]
      split_ifs
      · rw [collected_append, collected_single hf, helems, ho]; rfl
      · rw [List.nil_append, helems]
      · rfl
    · exact handler (hw.tidy.guardless (by simpa using hs)) hf ho
  | declarativeCompound | declarativeIllegal | theEnd => exact fun hw => hw.elim
  | guard e s _ => exact fun hw hf ho => collected_closed (s := .guard e s) hw hf ho
  | on ts s ih =>
    intro inOn d path hw hf ho
    obtain ⟨rfl, hu, hw⟩ := hw
    exact ih hw (Frame.fits_on hu path) (by rw [Frame.opens_on hf, ho, Bool.and_false])
  | blocking s ih => exact fun hw hf ho => ih hw (Frame.fits_blocking hf) ho
  | invariant e =>
    intro inOn d path hw hf _
    simp [Stmt.removeInvariant, Stmt.imperatives, Stmt.visit, Stmt.declarative, Stmt.imperative]
  | _ => exact fun hw hf ho => handler (hw.tidy.guardless rfl) hf ho

/-- The statement starts with an empty compound. -/
def Handler.StartsEmpty (h : Handler) : Prop := h.statement.startsEmpty

theorem vanishes_enabled {s : Stmt} (h : s.vanishes) (on : Option Trigger) (blocking : Bool) :
    s.enabled ρ t on blocking = [] := by
  unfold Stmt.vanishes at h
  split at h
  · rfl
  · simp [Stmt.enabled]
  · cases h

theorem vanishes_kept {s : Stmt} (h : s.vanishes) (on : Option Trigger) (blocking visited : Bool) :
    s.Kept ρ t on blocking visited := by
  unfold Stmt.vanishes at h
  split at h
  · trivial
  · trivial
  · cases h

/-- A plain statement is lost only if nothing visits it. -/
theorem agree_handler {inOn d : Bool} {path : List Frame} (hf : Frame.Fits inOn path)
    (ho : Frame.opens ρ t path) {s : Stmt} (hi : s.imperative) (hs : s.guardless)
    (hp : ∀ h ∈ s.enabled ρ t (Frame.trigger? t path) (path.any Frame.isBlocking), h.statement.plain) :
    Agree Handler.StartsEmpty (collected m ρ t (s.removeInvariant.imperatives path d))
      ((s.enabled ρ t (Frame.trigger? t path) (path.any Frame.isBlocking)).map (mark m))
      ((Frame.trigger? t path).isSome → d = true) := by
  rw [enabled_imperative hi] at hp ⊢
  cases hu : Frame.trigger? t path with
  | none =>
    have hnone : collected m ρ t (s.removeInvariant.imperatives path d) = [] :=
      collected_eq_nil.2 fun x hx =>
        (collected_guardless hf (Stmt.removeInvariant_guardless hs) hx).2 (.inr hu)
    rw [hnone]
    exact .of_eq rfl (by simp)
  | some u =>
    rw [hu] at hp
    have hpl : s.plain := hp ⟨u, s, path.any Frame.isBlocking⟩ (by simp)
    have hV := collected_single (m := m) (ρ := ρ) (t := t) hf s
    rw [ho, if_pos rfl, hu] at hV
    rw [Stmt.plain_removeInvariant hpl, Stmt.plain_imperatives hpl]
    cases d with
    | false => simp [Agree]
    | true =>
      rw [if_pos rfl, hV]
      exact .of_eq rfl (by simp)

theorem agree_elements {on : Option Trigger} {blocking d : Bool} {path : List Frame} {ss : List Stmt}
    (h : ∀ s ∈ ss, Agree Handler.StartsEmpty (collected m ρ t (s.removeInvariant.imperatives path d))
      ((s.enabled ρ t on blocking).map (mark m)) (s.Kept ρ t on blocking d)) :
    Agree Handler.StartsEmpty (collected m ρ t (Stmt.imperatives.elements path d (Stmt.removeInvariant.elements ss)))
      ((Stmt.enabled.elements ρ t on blocking ss).map (mark m))
      (Stmt.Kept.elements ρ t on blocking d ss) := by
  have hV : collected m ρ t (Stmt.imperatives.elements path d (Stmt.removeInvariant.elements ss)) =
      ss.flatMap fun s => if s.vanishes then [] else
        collected m ρ t (s.removeInvariant.imperatives path d) := by
    rw [Stmt.imperatives_elements, collected_flatMap, Stmt.removeInvariant_elements]
    clear h
    induction ss with
    | nil => rfl
    | cons s ss ih => by_cases hv : s.vanishes <;> simp [hv, ih]
  rw [hV, Stmt.enabled_elements, List.map_flatMap, Stmt.kept_elements]
  refine Agree.flatMap fun s hs => ?_
  split
  · rename_i hv
    exact .of_eq (by rw [vanishes_enabled hv]; rfl) (vanishes_kept hv _ _ _)
  · exact h s hs

/-- Along a path that opens, what is collected once the invariants are removed agrees with what
is enabled in the tree. -/
theorem agree_collected {s : Stmt} : ∀ {inOn d : Bool} {path : List Frame},
    s.WellFormed Γ inOn → Frame.Fits inOn path → Frame.opens ρ t path →
      (∀ h ∈ s.enabled ρ t (Frame.trigger? t path) (path.any Frame.isBlocking), h.statement.plain) →
      Agree Handler.StartsEmpty (collected m ρ t (s.removeInvariant.imperatives path d))
        ((s.enabled ρ t (Frame.trigger? t path) (path.any Frame.isBlocking)).map (mark m))
        (s.Kept ρ t (Frame.trigger? t path) (path.any Frame.isBlocking) d) := by
  induction s with
  | compound ss ih =>
    intro inOn d path hw hf ho hp
    have hr := Stmt.removeInvariant_declarative (.compound ss)
    by_cases hs : (Stmt.compound ss).declarative
    · have hws := Stmt.wellFormed_elements.1 hw.2
      have hpe : ∀ s ∈ ss, ∀ h ∈ s.enabled ρ t (Frame.trigger? t path) (path.any Frame.isBlocking),
          h.statement.plain := by
        intro s hss h hh
        rw [Stmt.enabled, if_pos hs, Stmt.enabled_elements] at hp
        exact hp h (List.mem_flatMap.2 ⟨s, hss, hh⟩)
      have elements := fun d' => agree_elements (d := d') fun s h => ih s h (hws s h) hf ho (hpe s h)
      rw [Stmt.enabled, if_pos hs, Stmt.Kept]
      rw [Stmt.removeInvariant] at hr ⊢
      -- a compound of invariants only is empty once they are removed, and an empty compound is imperative
      by_cases hd : (Stmt.compound ss).declares
      · rw [hd] at hr
        rw [if_pos hd, Stmt.imperatives, Stmt.visit, Stmt.declarative_not_imperative hr, hr]
        exact elements true
      · have hd' : (Stmt.compound ss).declares = false := by simpa using hd
        have he := Stmt.removeInvariant_startsEmpty hw.tidy.unmixed hs hd'
        rw [hd'] at hr
        rw [if_neg hd, if_pos hs, Stmt.imperatives, Stmt.visit,
          Stmt.startsEmpty_imperative (s := .compound _) he, hr]
        cases d with
        | false =>
          -- the parent is drained too, so nothing in the compound is collected
          rw [Stmt.enabled, if_pos hs]
          simp only [Bool.or_false, Bool.false_eq_true, if_false, collected_nil]
          refine ⟨fun hK => by rw [hK]; rfl, .inr ⟨Nat.zero_le _, fun hl => ?_⟩⟩
          rw [List.length_map] at hl
          exact List.eq_nil_of_length_eq_zero hl.symm
        | true =>
          have hV := collected_single (m := m) (ρ := ρ) (t := t) hf
            (.compound (Stmt.removeInvariant.elements ss))
          rw [ho, if_pos rfl] at hV
          have hagree := elements false
          cases hon : Frame.trigger? t path with
          | none =>
            -- the compound is collected, but no on is above it
            rw [hon] at hV hagree
            simp only [Bool.or_true, if_true, collected_append, hV, true_and]
            exact hagree
          | some u =>
            refine ⟨fun hK => absurd hK.1 (by simp), .inl ?_⟩
            refine ⟨⟨u, _, m.provides u && path.any Frame.isBlocking⟩, ?_, he⟩
            simp only [Bool.or_true, if_true]
            rw [collected_append, hV, hon]
            exact List.mem_append_left _ (by simp)
    · have hd : (Stmt.compound ss).declares = false := by
        rw [← Bool.not_eq_true]
        exact fun h => hs (Stmt.declares_declarative h)
      rw [Stmt.Kept, hd, if_neg Bool.false_ne_true, if_neg hs]
      have hi : (Stmt.compound ss).declarative = false := by simpa using hs
      exact agree_handler hf ho (hw.tidy.imperative hi) (hw.tidy.guardless hi) hp
  | declarativeCompound | declarativeIllegal | theEnd => exact fun hw => hw.elim
  | guard e s _ =>
    intro inOn d path hw hf ho hp
    -- nothing is removed below a guard
    have ha := agree_imperatives (m := m) (s := .guard e s) (d := d) hw hf ho (.inl rfl)
    exact .of_eq (ha.1 fun h hh => Stmt.plain_nests (hp h hh)).symm trivial
  | on ts s ih =>
    intro inOn d path hw hf ho hp
    obtain ⟨rfl, hu, hw⟩ := hw
    have hpath := Frame.opens_on (ρ := ρ) (t := t) hf ts
    rw [Stmt.enabled] at hp ⊢
    rw [Stmt.Kept]
    cases hts : ts.find? t.equal with
    | some u =>
      rw [hts, ho] at hpath
      rw [hts] at hp
      have hagree := ih (d := true) hw (Frame.fits_on hu path) hpath
      rw [show Frame.trigger? t (.on ts :: path) = some u from hts] at hagree
      exact hagree hp
    | none =>
      rw [hts] at hpath
      exact .of_eq (collected_removed_closed (m := m) (d := true) hw (Frame.fits_on hu path) hpath) trivial
  | blocking s ih => exact fun hw hf ho hp => ih hw (Frame.fits_blocking hf) ho hp
  | invariant e =>
    intro inOn d path hw hf _ _
    refine .of_eq ?_ trivial
    simp [Stmt.removeInvariant, Stmt.imperatives, Stmt.visit, Stmt.declarative, Stmt.imperative,
      Stmt.enabled]
  | _ => exact fun hw hf ho hp => agree_handler hf ho rfl (hw.tidy.guardless rfl) hp

/-! ## The canonical form -/

theorem groupExpressions_imperative (s : Stmt) : s.groupExpressions.imperative = s.imperative := by
  induction s with
  | compound ss ih =>
    cases ss with
    | nil => rfl
    | cons s ss => exact ih s (by simp)
  | _ => rfl

theorem groupExpressions_startsEmpty (s : Stmt) : s.groupExpressions.startsEmpty = s.startsEmpty := by
  induction s with
  | compound ss ih =>
    cases ss with
    | nil => rfl
    | cons s ss => exact ih s (by simp)
  | _ => rfl

def Handler.groupExpressions (h : Handler) : Handler :=
  { h with statement := h.statement.groupExpressions }

/-- A canonical on that is printed as a guard has the same meaning. -/
theorem enabled_toGuard {o : CanonicalOn} (h : o.statement.imperative) :
    o.toGuard.enabled ρ t none false = (CanonicalOn.enabled ρ t [o]).map CanonicalOn.handler := by
  have hb : (if o.blocking then Stmt.blocking o.statement else o.statement).enabled ρ t (some o.trigger) false =
      [o.handler] := by
    cases ho : o.blocking <;> simp [Stmt.enabled, enabled_imperative h, CanonicalOn.handler, ho]
  simp only [CanonicalOn.toGuard, Stmt.enabled, CanonicalOn.enabled, List.find?_cons, List.find?_nil]
  by_cases hg : o.guard.truth ρ <;> by_cases ht : t.equal o.trigger <;> simp [hg, ht, hb]

theorem enabled_toGuards {ons : List CanonicalOn} (h : ∀ o ∈ ons, o.statement.imperative) :
    (Stmt.declarativeCompound (ons.map CanonicalOn.toGuard)).enabled ρ t none false =
      (CanonicalOn.enabled ρ t ons).map CanonicalOn.handler := by
  rw [Stmt.enabled, Stmt.enabled_elements]
  induction ons with
  | nil => rfl
  | cons o ons ih =>
    rw [List.map_cons, List.flatMap_cons, ih fun o' ho => h o' (by simp [ho]), enabled_toGuard (h o (by simp)),
      ← List.map_append, ← CanonicalOn.enabled_append]
    rfl

/-- Rewriting canonical ons one by one, with the guards keeping their value. -/
theorem enabled_map {f : CanonicalOn → CanonicalOn} {ons : List CanonicalOn}
    (h : ∀ o ∈ ons, t.equal (f o).trigger = t.equal o.trigger ∧ (f o).guard.truth ρ = o.guard.truth ρ) :
    CanonicalOn.enabled ρ t (ons.map f) = (CanonicalOn.enabled ρ t ons).map f := by
  rw [CanonicalOn.enabled, CanonicalOn.enabled, List.filter_map]
  refine congrArg _ (List.filter_congr fun o ho => ?_)
  rw [Function.comp_apply, (h o ho).1, (h o ho).2]

/-- Simplifying and grouping the guards of canonical ons keeps what is enabled of them. -/
theorem enabled_simplifyGroup (hρ : ρ.Typed Γ) {ons : List CanonicalOn}
    (h : ∀ o ∈ ons, o.guard.Proper Γ (fun _ => True) .bool) :
    (CanonicalOn.enabled ρ t ((ons.map CanonicalOn.simplifyGuard).map CanonicalOn.groupExpressions)).map
        CanonicalOn.handler =
      ((CanonicalOn.enabled ρ t ons).map CanonicalOn.handler).map Handler.groupExpressions := by
  rw [List.map_map, enabled_map, List.map_map, List.map_map]
  · rfl
  · intro o ho
    refine ⟨rfl, ?_⟩
    show (o.guard.simplifyToplevelExpression.groupExpressions .other).truth ρ = o.guard.truth ρ
    rw [Expr.groupExpressions_truth, Expr.truth, (Expr.simplifyToplevel_keeps hρ (h o ho)).2]
    rfl

theorem removed_proper {s : Stmt} (hw : s.WellFormed Γ false) :
    ∀ o ∈ s.removeInvariant.canonicalOns m, o.guard.Proper Γ (fun _ => True) .bool :=
  canonicalOns_proper fun e he => hw.tidy.frames e (Stmt.removeInvariant_frames s he)

/-- What the state-first form enables, in terms of the collected statements. -/
theorem enabled_normalizeState (hρ : ρ.Typed Γ) {b : Behavior} (hw : b.statement.WellFormed Γ false) :
    (normalizeState m b).statement.enabled ρ t none false =
      (collected m ρ t (b.statement.removeInvariant.imperatives [] false)).map Handler.groupExpressions := by
  rw [normalizeState, enabled_toGuards, enabled_simplifyGroup hρ (removed_proper hw)]
  · rfl
  intro o ho
  simp only [List.map_map, List.mem_map, Function.comp_apply] at ho
  obtain ⟨o, ho, rfl⟩ := ho
  obtain ⟨x, hx, hs, -⟩ := mem_canonicalOns ho
  show o.statement.groupExpressions.imperative
  rw [groupExpressions_imperative, hs]
  exact Stmt.imperatives_imperative _ x hx

/-- The enabled statements of a behavior as its state-first form has them. -/
def enabledGrouped (m : Model) (ρ : Valuation) (t : Trigger) (b : Behavior) : List Handler :=
  ((b.statement.enabled ρ t none false).map (mark m)).map Handler.groupExpressions

/-- The state-first form enables what the behavior enables if the enabled statements are plain and
removing the invariants neither adds nor loses one. When none of them starts with an empty compound,
it enables the same only then. -/
theorem normalizeState_enabled_iff (Γ : Context) (m : Model) (ρ : Valuation) (t : Trigger) (b : Behavior)
    (hρ : ρ.Typed Γ) (hw : b.statement.WellFormed Γ false) :
    ((∀ h ∈ b.statement.enabled ρ t none false, h.statement.plain) ∧
      b.statement.Kept ρ t none false false →
      (normalizeState m b).statement.enabled ρ t none false = enabledGrouped m ρ t b) ∧
    ((∀ h ∈ b.statement.enabled ρ t none false,
        h.statement.plain ∧ h.statement.startsEmpty = false) →
      (normalizeState m b).statement.enabled ρ t none false = enabledGrouped m ρ t b →
      b.statement.Kept ρ t none false false) := by
  have hf : Frame.Fits false [] := ⟨rfl, by rintro _ ⟨⟩⟩
  have ha := agree_collected (m := m) (d := false) hw hf (rfl : Frame.opens ρ t [] = true)
  refine ⟨fun ⟨hp, hK⟩ => ?_, fun hs he => ?_⟩
  · rw [enabled_normalizeState hρ hw]
    exact congrArg _ ((ha hp).1 hK)
  rw [enabled_normalizeState hρ hw] at he
  refine (ha fun h hh => (hs h hh).1).of_map_eq Handler.groupExpressions (fun x _ hx y hy hxy => ?_) he
  -- a statement that starts empty would be one of the enabled ones
  obtain ⟨h, hh, rfl⟩ := List.mem_map.1 hy
  have hse := congrArg (fun h => h.statement.startsEmpty) hxy
  simp only [Handler.groupExpressions, groupExpressions_startsEmpty] at hse
  rw [Handler.StartsEmpty] at hx
  rw [hx, mark, (hs h hh).2] at hse
  cases hse

end

/-! ## The condition can fail -/

/-- `{ { invariant true; } on e: {} }` -/
def drainedBehavior : Behavior where
  members := []
  functions := []
  statement := .compound [.compound [.invariant .true], .on [⟨none, "e", []⟩] (.compound [])]
  invariant := none

/-- `{ invariant true; [true] on e, f: {} }` -/
def undrainedBehavior : Behavior where
  members := []
  functions := []
  statement := .compound [.invariant .true,
    .guard .true (.on [⟨none, "e", []⟩, ⟨none, "f", []⟩] (.compound []))]
  invariant := none

theorem normalizeState_enabled_undrained :
    (normalizeState (.interface []) undrainedBehavior).statement.enabled clashValuation ⟨none, "f", []⟩
      none false = [⟨⟨none, "f", []⟩, .compound [], false⟩] := by
  have h := (normalizeState_enabled_iff (clashContext "p" "x") (.interface []) clashValuation
    ⟨none, "f", []⟩ undrainedBehavior (clashValuation_typed "p" "x")
    (by simp [undrainedBehavior, Stmt.WellFormed, Stmt.WellFormed.elements, Stmt.declarative,
      Stmt.declarative.head, Trigger.equal, Expr.proper_true])).1
  exact h ⟨by decide,
    by simp [undrainedBehavior, Stmt.Kept, Stmt.Kept.elements, Stmt.declares,
      Stmt.declares.elements, Stmt.vanishes, Stmt.declarative]⟩

/-- The invariant drains the first compound, and with it the whole body. -/
theorem normalizeState_drained :
    ¬ ∀ (Γ : Context) (m : Model) (ρ : Valuation) (t : Trigger) (b : Behavior), ρ.Typed Γ →
      b.statement.WellFormed Γ false → (∀ h ∈ b.statement.enabled ρ t none false, h.statement.plain) →
      (normalizeState m b).statement.enabled ρ t none false = enabledGrouped m ρ t b := by
  intro h
  have he := h (clashContext "p" "x") (.interface []) clashValuation ⟨none, "e", []⟩ drainedBehavior
    (clashValuation_typed "p" "x")
    (by simp [drainedBehavior, Stmt.WellFormed, Stmt.WellFormed.elements, Stmt.declarative,
      Stmt.declarative.head])
    (by decide)
  exact absurd (congrArg List.length he) (by decide)

end Dezyne
