import Dezyne.State
/-!
# The guard that `otherwise` stands for

`remove-otherwise` and `annotate-otherwise` both take the negated disjunction
of the other guards of the level, but not of the same level: the first counts
guards that only guard invariants, and the second runs after `lift-invariants`,
which removes some of these, drains compounds, and moves the `otherwise` of an
invariant to the top.
-/

namespace Dezyne

/-! ## The passes -/

namespace Stmt

def isGuard : Stmt → Bool
  | .guard _ _ => true
  | _ => false

def isOtherwiseGuard : Stmt → Bool
  | .guard e _ => e.isOtherwise
  | _ => false

/-- The expressions of the guards of a level. -/
def guardExpressions (statements : List Stmt) : List Expr :=
  statements.filterMap fun
    | .guard e _ => some e
    | _ => none

/-- `remove-otherwise` of what the parser makes, below the elements `statements` of a compound. -/
def removeOtherwise (statements : List Stmt) : Stmt → Stmt
  | .compound ss =>
    if (Stmt.compound ss).imperative then .compound ss else .compound (elements ss ss)
  | .declarativeCompound ss => .declarativeCompound (elements statements ss)
  | .guard .otherwise s =>
    if statements = [] then .guard .otherwise (s.removeOtherwise statements)
    else .guard (notOrGuards (guardExpressions statements)) (s.removeOtherwise [])
  | .guard e s => .guard e (s.removeOtherwise statements)
  | .on ts s => .on ts (s.removeOtherwise statements)
  | .blocking s => .blocking (s.removeOtherwise statements)
  | s => s
where
  elements (statements : List Stmt) : List Stmt → List Stmt
  | [] => []
  | s :: ss => s.removeOtherwise statements :: elements statements ss

end Stmt

/-- No `otherwise` in it. -/
def Expr.otherwiseFree : Expr → Bool
  | .group e => e.otherwiseFree
  | .not e => e.otherwiseFree
  | .binary _ l r => l.otherwiseFree && r.otherwiseFree
  | .action _ _ as => arguments as
  | .call _ as => arguments as
  | .otherwise => Bool.false
  | .otherwiseValue _ => Bool.false
  | _ => Bool.true
where
  arguments : List Expr → Bool
  | [] => Bool.true
  | a :: as => a.otherwiseFree && arguments as

/-- `annotate-otherwise` of an expression among the elements `statements` of a compound. -/
def Expr.annotateOtherwise (statements : List Stmt) : Expr → Expr
  | .group e => .group (e.annotateOtherwise statements)
  | .not e => .not (e.annotateOtherwise statements)
  | .binary op l r => .binary op (l.annotateOtherwise statements) (r.annotateOtherwise statements)
  | .action p e as => .action p e (arguments statements as)
  | .call f as => .call f (arguments statements as)
  | .otherwise => .otherwiseValue (notOrGuards (Stmt.guardExpressions statements))
  | .otherwiseValue _ => .otherwiseValue (notOrGuards (Stmt.guardExpressions statements))
  | e => e
where
  arguments (statements : List Stmt) : List Expr → List Expr
  | [] => []
  | a :: as => a.annotateOtherwise statements :: arguments statements as

/-- `annotate-otherwise`, below the elements `statements` of a compound. The parser's value of an
`otherwise` is the string, which is not the symbol that is looked for, so a guard is mapped over. -/
def Stmt.annotateOtherwise (statements : List Stmt) : Stmt → Stmt
  | .compound ss =>
    if (Stmt.compound ss).imperative then .compound ss else .compound (elements ss ss)
  | .declarativeCompound ss => .declarativeCompound (elements statements ss)
  | .guard e s => .guard (e.annotateOtherwise statements) (s.annotateOtherwise statements)
  | .on ts s => .on ts (s.annotateOtherwise statements)
  | .blocking s => .blocking (s.annotateOtherwise statements)
  | .invariant e => .invariant (e.annotateOtherwise statements)
  | s => s
where
  elements (statements : List Stmt) : List Stmt → List Stmt
  | [] => []
  | s :: ss => s.annotateOtherwise statements :: elements statements ss

/-- `lift-invariants`, of the elements of the body of a behavior. -/
def liftInvariants (ss : List Stmt) : List Stmt :=
  (Stmt.invariants.elements [] ss).map .invariant ++ Stmt.removeInvariant.elements ss

/-! ## The levels of a tree -/

/-- Where a guard stands: below an on or not, above all guards, so that the invariants next to it are
lifted out, or not, below a compound that is drained by that or not, and as one of the elements
`statements` of a compound or only below one. -/
structure Level where
  inOn : Bool
  lifted : Bool
  drained : Bool
  element : Bool
  statements : List Stmt

/-- The top level of a body. -/
def Level.top (ss : List Stmt) : Level := ⟨false, true, false, true, ss⟩

namespace Stmt

/-- Guards something that an event runs. -/
def handles (inOn : Bool) : Stmt → Bool
  | .compound ss => if (Stmt.compound ss).imperative then inOn else elements inOn ss
  | .declarativeCompound ss => elements inOn ss
  | .guard _ s => s.handles inOn
  | .on _ _ => true
  | .blocking s => s.handles inOn
  | .invariant _ => false
  | _ => inOn
where
  elements (inOn : Bool) : List Stmt → Bool
  | [] => false
  | s :: ss => s.handles inOn || elements inOn ss

/-- A guard that holds, is not an `otherwise`, and guards an event handler. -/
def holdsHandler (ρ : Valuation) (inOn : Bool) (s : Stmt) : Bool :=
  s.holds ρ && s.handles inOn

end Stmt

namespace Level

/-- What an `otherwise` stands for: no other guard of the level that guards an event handler holds. -/
def stands (ρ : Valuation) (l : Level) : Bool :=
  !l.statements.any (·.holdsHandler ρ l.inOn)

/-- What `remove-otherwise` makes of it. -/
def removed (ρ : Valuation) (l : Level) : Bool :=
  !l.statements.any (·.holds ρ)

/-- A guard over an invariant is lifted with it. -/
def gone (l : Level) (s : Stmt) : Bool := l.element && (l.lifted && s.vanishes)

/-- What `annotate-otherwise` makes of it; in a drained compound it stays as it is, and is no truth
value. -/
def annotated (ρ : Valuation) (l : Level) : Bool :=
  !l.drained && !l.statements.any fun s => !l.gone s && s.holds ρ

end Level

namespace Stmt

/-- The guards of a declarative tree, in order, each where it stands. -/
def guardsAt (l : Level) : Stmt → List (Level × Stmt)
  | .compound ss =>
    if (Stmt.compound ss).imperative then []
    else
      elements ⟨l.inOn, l.lifted, l.drained || (l.lifted && !(Stmt.compound ss).declares), true, ss⟩ ss
  | .guard e s => (l, .guard e s) :: s.guardsAt { l with lifted := false }
  | .on _ s => s.guardsAt { l with inOn := true, element := false }
  | .blocking s => s.guardsAt { l with element := false }
  | _ => []
where
  elements (l : Level) : List Stmt → List (Level × Stmt)
  | [] => []
  | s :: ss => s.guardsAt l ++ elements l ss

/-- The invariants of a tree, in order, each with the guards above it, the nearest first. -/
def invariantsAt (path : List (Level × Expr)) (l : Level) : Stmt → List (List (Level × Expr) × Expr)
  | .compound ss => elements path { l with statements := ss } ss
  | .declarativeCompound ss => elements path l ss
  | .guard e s => s.invariantsAt ((l, e) :: path) l
  | .on _ s => s.invariantsAt path { l with inOn := true }
  | .blocking s => s.invariantsAt path l
  | .invariant e => [(path, e)]
  | .ifThen _ s => s.invariantsAt path l
  | .ifElse _ s t => s.invariantsAt path l ++ t.invariantsAt path l
  | .defer _ s => s.invariantsAt path l
  | _ => []
where
  elements (path : List (Level × Expr)) (l : Level) : List Stmt → List (List (Level × Expr) × Expr)
  | [] => []
  | s :: ss => s.invariantsAt path l ++ elements path l ss

/-- The truth values of the guards of a tree, in order. -/
def guardTruths (ρ : Valuation) (s : Stmt) : List Bool :=
  (s.frames.filterMap Frame.expression?).map (·.truth ρ)

/-- `otherwise` only among guards, each an element of a compound; nothing mixed. -/
def OtherwiseFormed : Stmt → Prop
  | .compound ss =>
    (∀ s ∈ ss, s.declarative = (Stmt.compound ss).declarative) ∧
      ((∃ s ∈ ss, s.isOtherwiseGuard) → ∀ s ∈ ss, s.isGuard) ∧ elements ss
  | .declarativeCompound _ => False
  | .guard e s =>
    (e = .otherwise ∨ e.otherwiseFree) ∧
      s.isOtherwiseGuard = false ∧ s.OtherwiseFormed
  | .on _ s => s.isOtherwiseGuard = false ∧ s.OtherwiseFormed
  | .blocking s => s.isOtherwiseGuard = false ∧ s.OtherwiseFormed
  | .declarativeIllegal => False
  | .theEnd => False
  | .ifThen _ s => s.guardless
  | .ifElse _ s t => s.guardless ∧ t.guardless
  | .defer _ s => s.guardless
  | _ => True
where
  elements : List Stmt → Prop
  | [] => True
  | s :: ss => s.OtherwiseFormed ∧ elements ss

/-! ## Small lemmas -/

theorem otherwiseFormed_elements {ss : List Stmt} :
    OtherwiseFormed.elements ss ↔ ∀ s ∈ ss, s.OtherwiseFormed := by
  induction ss with
  | nil => simp [OtherwiseFormed.elements]
  | cons s ss ih => simp [OtherwiseFormed.elements, ih]

theorem guardsAt_elements (l : Level) (ss : List Stmt) :
    guardsAt.elements l ss = ss.flatMap (guardsAt l) := by
  induction ss with
  | nil => rfl
  | cons s ss ih => rw [guardsAt.elements, ih, List.flatMap_cons]

theorem removeOtherwise_elements (statements ss : List Stmt) :
    removeOtherwise.elements statements ss = ss.map (removeOtherwise statements) := by
  induction ss with
  | nil => rfl
  | cons s ss ih => rw [removeOtherwise.elements, ih, List.map_cons]

theorem annotateOtherwise_elements (statements ss : List Stmt) :
    annotateOtherwise.elements statements ss = ss.map (annotateOtherwise statements) := by
  induction ss with
  | nil => rfl
  | cons s ss ih => rw [annotateOtherwise.elements, ih, List.map_cons]

theorem OtherwiseFormed.tidy {s : Stmt} (hw : s.OtherwiseFormed) :
    s.Tidy fun e => e = .otherwise ∨ e.otherwiseFree := by
  induction s with
  | compound ss ih =>
    have hws := otherwiseFormed_elements.1 hw.2.2
    exact ⟨hw.1, tidy_elements.2 fun s hs => ih s hs (hws s hs)⟩
  | guard e s ih => exact ⟨hw.1, ih hw.2.2⟩
  | on ts s ih | blocking s ih => exact ih hw.2
  | declarativeCompound | declarativeIllegal | theEnd | ifThen | ifElse | defer => exact hw
  | _ => trivial

section
variable {ρ : Valuation}

theorem guardTruths_guardless {s : Stmt} (h : s.guardless) : s.guardTruths ρ = [] := by
  have hf : s.frames.filterMap Frame.expression? = [] :=
    List.filterMap_eq_nil_iff.2 fun f hf => by rw [guardless_frames h f hf]; rfl
  rw [guardTruths, hf, List.map_nil]

theorem guardTruths_compound (ss : List Stmt) :
    (compound ss).guardTruths ρ = ss.flatMap (guardTruths ρ) := by
  unfold guardTruths
  rw [frames, frames_elements, List.filterMap_flatMap, List.map_flatMap]

@[simp] theorem guardTruths_guard (e : Expr) (s : Stmt) :
    (guard e s).guardTruths ρ = e.truth ρ :: s.guardTruths ρ := rfl

@[simp] theorem guardTruths_on (ts : List Trigger) (s : Stmt) :
    (on ts s).guardTruths ρ = s.guardTruths ρ := rfl

@[simp] theorem guardTruths_blocking (s : Stmt) :
    (blocking s).guardTruths ρ = s.guardTruths ρ := rfl

@[simp] theorem guardTruths_invariant (e : Expr) : (invariant e).guardTruths ρ = [] := rfl

/-- The negated disjunction of a level holds when none of its guards does. -/
theorem truth_notOrGuards_level (ss : List Stmt) :
    (notOrGuards (guardExpressions ss)).truth ρ = !ss.any (holds ρ) := by
  rw [truth_notOrGuards]
  congr 1
  induction ss with
  | nil => rfl
  | cons s ss ih =>
    rw [List.any_cons, ← ih]
    cases s with
    | guard e s => cases he : e.isOtherwise <;> simp [guardExpressions, holds, he]
    | _ => simp [guardExpressions, holds]

/-! ## `remove-otherwise` -/

/-- The truth value of a guard, where `D` gives that of an `otherwise`. -/
def valueAt (ρ : Valuation) (D : Level → Bool) (x : Level × Stmt) : Bool :=
  match x.2 with
  | .guard e _ => if e.isOtherwise then D x.1 else e.truth ρ
  | _ => false

theorem otherwiseFree_isOtherwise {e : Expr} (h : e.otherwiseFree) : e.isOtherwise = false := by
  cases e <;> first | rfl | cases h

theorem removeOtherwise_guard {e : Expr} (h : e.isOtherwise = false) (statements : List Stmt) (s : Stmt) :
    (guard e s).removeOtherwise statements = .guard e (s.removeOtherwise statements) := by
  cases e <;> first | rfl | cases h

/-- Every guard stays, with the value of its level if it is an `otherwise`. -/
theorem guardTruths_removeOtherwise {s : Stmt} : ∀ {l : Level} {statements : List Stmt},
    s.OtherwiseFormed → (s.isOtherwiseGuard → statements ≠ [] ∧ l.statements = statements) →
      (s.removeOtherwise statements).guardTruths ρ = (s.guardsAt l).map (valueAt ρ (Level.removed ρ)) := by
  induction s with
  | compound ss ih =>
    intro l statements hw _
    rw [removeOtherwise, guardsAt]
    split_ifs with hi
    · have hd : (compound ss).declarative = false := by
        rw [← Bool.not_eq_true]
        intro hd
        rw [declarative_not_imperative hd] at hi
        cases hi
      rw [guardTruths_guardless (hw.tidy.guardless hd), List.map_nil]
    · have hws := otherwiseFormed_elements.1 hw.2.2
      rw [guardTruths_compound, removeOtherwise_elements, List.flatMap_map, guardsAt_elements,
        List.map_flatMap]
      exact List.flatMap_congr fun s hs => ih s hs (hws s hs) fun _ => ⟨List.ne_nil_of_mem hs, rfl⟩
  | declarativeCompound | declarativeIllegal | theEnd => exact fun hw => hw.elim
  | guard e s ih =>
    intro l statements hw hs
    obtain ⟨he, hne, hw⟩ := hw
    have hbody : ∀ st, (s.removeOtherwise st).guardTruths ρ =
        (s.guardsAt { l with lifted := false }).map (valueAt ρ (Level.removed ρ)) :=
      fun st => ih hw fun h => by rw [hne] at h; cases h
    rcases he with rfl | he
    · obtain ⟨hnil, hl⟩ := hs rfl
      rw [removeOtherwise, if_neg hnil, guardTruths_guard, hbody, truth_notOrGuards_level, ← hl]
      rfl
    · have hf := otherwiseFree_isOtherwise he
      rw [removeOtherwise_guard hf, guardTruths_guard, hbody, guardsAt, List.map_cons, valueAt]
      simp [hf]
  | on ts s ih =>
    intro l statements hw _
    exact ih hw.2 fun h => by rw [hw.1] at h; cases h
  | blocking s ih =>
    intro l statements hw _
    exact ih hw.2 fun h => by rw [hw.1] at h; cases h
  | invariant => exact fun _ _ => rfl
  | ifThen | ifElse | defer => exact fun hw _ => guardTruths_guardless (hw.tidy.guardless rfl)
  | _ => exact fun _ _ => rfl

/-! ## `annotate-otherwise` -/

/-- A statement of a tree whose invariants are lifted out, or below a guard of such a tree. -/
def lowered (lifted : Bool) (s : Stmt) : Stmt :=
  if lifted then s.removeInvariant else s

theorem lowered_compound (lifted : Bool) (ss : List Stmt) :
    lowered lifted (.compound ss) =
      .compound ((ss.filter fun s => !(lifted && s.vanishes)).map (lowered lifted)) := by
  cases lifted with
  | true => rw [lowered, if_pos rfl, removeInvariant, removeInvariant_elements]; rfl
  | false =>
    have hid : lowered false = id := rfl
    simp [hid]

theorem lowered_guard (lifted : Bool) (e : Expr) (s : Stmt) : lowered lifted (.guard e s) = .guard e s := by
  cases lifted <;> rfl

theorem lowered_on (lifted : Bool) (ts : List Trigger) (s : Stmt) :
    lowered lifted (.on ts s) = .on ts (lowered lifted s) := by
  cases lifted <;> rfl

theorem lowered_blocking (lifted : Bool) (s : Stmt) :
    lowered lifted (.blocking s) = .blocking (lowered lifted s) := by
  cases lifted <;> rfl

theorem lowered_guardless {s : Stmt} (lifted : Bool) (h : s.guardless) : (lowered lifted s).guardless := by
  cases lifted
  exacts [h, removeInvariant_guardless h]

/-- A declarative compound is taken as imperative when removing its invariants drains it. -/
theorem lowered_imperative {ss : List Stmt} (lifted : Bool) (hw : (compound ss).Unmixed)
    (hd : (compound ss).declarative) :
    (lowered lifted (.compound ss)).imperative = (lifted && !(compound ss).declares) := by
  cases lifted with
  | false => exact declarative_not_imperative hd
  | true =>
    rw [lowered, if_pos rfl, Bool.true_and]
    cases hs : (compound ss).declares with
    | true => exact declarative_not_imperative ((removeInvariant_declarative _).trans hs)
    | false => exact startsEmpty_imperative (removeInvariant_startsEmpty hw hd hs)

/-- A guard that stays. -/
def stays (x : Level × Stmt) : Bool := !x.1.gone x.2

/-- Below a guard nothing goes. -/
theorem gone_body (l : Level) (s : Stmt) : Level.gone { l with lifted := false } s = false := by
  simp [Level.gone]

theorem guardsAt_gone {l : Level} {s : Stmt} (h : l.gone s) : (s.guardsAt l).filter stays = [] := by
  have hv : s.vanishes := by
    simp only [Level.gone, Bool.and_eq_true] at h
    exact h.2.2
  unfold vanishes at hv
  split at hv
  · rfl
  · simp [guardsAt, stays, h]
  · cases hv

theorem lowered_holds (lifted : Bool) (s : Stmt) : (lowered lifted s).holds ρ = s.holds ρ := by
  cases lifted <;> cases s <;> rfl

/-- The guards of a level that hold, of those that stay. -/
theorem any_lowered (inOn lifted : Bool) (ss : List Stmt) :
    (!((ss.filter fun s => !(lifted && s.vanishes)).map (lowered lifted)).any (holds ρ)) =
      Level.annotated ρ ⟨inOn, lifted, false, true, ss⟩ := by
  rw [Level.annotated, List.any_map, List.any_filter]
  simp [Level.gone, lowered_holds]

/-- What is computed of the elements that stay, and of none that goes, is computed of all. -/
theorem flatMap_lowered {l : Level} {ss : List Stmt} (hl : l.element) {F G : Stmt → List Bool}
    (h : ∀ s ∈ ss, l.gone s = false → F (lowered l.lifted s) = G s)
    (hg : ∀ s ∈ ss, l.gone s → G s = []) :
    ((ss.filter fun s => !(l.lifted && s.vanishes)).map (lowered l.lifted)).flatMap F = ss.flatMap G := by
  have hgone : ∀ s : Stmt, (l.lifted && s.vanishes) = l.gone s := fun s => by
    rw [Level.gone, hl, Bool.true_and]
  simp only [hgone]
  induction ss with
  | nil => rfl
  | cons s ss ih =>
    have ih := ih (fun s' hs => h s' (by simp [hs])) fun s' hs => hg s' (by simp [hs])
    rw [List.flatMap_cons, ← ih]
    cases hs : l.gone s with
    | true => simp [hs, hg s (by simp) hs]
    | false => simp [hs, h s (by simp) hs]

/-- The values of the guards that stay. -/
def stayingTruths (ρ : Valuation) (D : Level → Bool) (l : Level) (s : Stmt) : List Bool :=
  ((s.guardsAt l).filter stays).map (valueAt ρ D)

theorem stayingTruths_gone {D : Level → Bool} {l : Level} {s : Stmt} (h : l.gone s) :
    s.stayingTruths ρ D l = [] := by
  rw [stayingTruths, guardsAt_gone h, List.map_nil]

theorem stayingTruths_compound {D : Level → Bool} {l : Level} {ss : List Stmt}
    (hi : (compound ss).imperative = false) :
    (compound ss).stayingTruths ρ D l = ss.flatMap
      (stayingTruths ρ D ⟨l.inOn, l.lifted, l.drained || (l.lifted && !(compound ss).declares), true, ss⟩) := by
  unfold stayingTruths
  rw [guardsAt, hi, if_neg Bool.false_ne_true, guardsAt_elements, List.filter_flatMap, List.map_flatMap]

theorem stayingTruths_guard {D : Level → Bool} {l : Level} {e : Expr} {s : Stmt}
    (h : l.gone (.guard e s) = false) : (guard e s).stayingTruths ρ D l =
      valueAt ρ D (l, .guard e s) :: s.stayingTruths ρ D { l with lifted := false } := by
  simp [stayingTruths, guardsAt, stays, h]

theorem stayingTruths_imperative {D : Level → Bool} {l : Level} {s : Stmt} (hi : s.imperative) :
    s.stayingTruths ρ D l = [] := by
  unfold stayingTruths
  cases s with
  | compound ss => rw [guardsAt, if_pos hi]; rfl
  | guard | on | blocking => cases hi
  | _ => rfl

/-- In a drained compound an `otherwise` stays as it is, and is no truth value. -/
theorem guardTruths_drained {s : Stmt} : ∀ {l : Level}, s.OtherwiseFormed → l.drained → l.gone s = false →
    (lowered l.lifted s).guardTruths ρ = s.stayingTruths ρ (Level.annotated ρ) l := by
  have hannotated : ∀ {l : Level}, l.drained → Level.annotated ρ l = false := fun h => by
    rw [Level.annotated, h]; rfl
  have handler : ∀ {s : Stmt} {l : Level}, s.OtherwiseFormed → s.declarative = false →
      (lowered l.lifted s).guardTruths ρ = s.stayingTruths ρ (Level.annotated ρ) l := fun hw hd => by
    rw [guardTruths_guardless (lowered_guardless _ (hw.tidy.guardless hd)),
      stayingTruths_imperative (hw.tidy.imperative hd)]
  induction s with
  | compound ss ih =>
    intro l hw hl _
    by_cases hd : (compound ss).declarative
    · have hws := otherwiseFormed_elements.1 hw.2.2
      rw [lowered_compound, guardTruths_compound, stayingTruths_compound (declarative_not_imperative hd)]
      refine flatMap_lowered (l := ⟨l.inOn, l.lifted, _, true, ss⟩) rfl (fun s hs hg => ?_) fun s _ hg =>
        stayingTruths_gone hg
      exact ih s hs (hws s hs) (by rw [hl]; rfl) hg
    · exact handler hw (by simpa using hd)
  | declarativeCompound | declarativeIllegal | theEnd => exact fun hw => hw.elim
  | guard e s ih =>
    intro l hw hl hg
    have hbody := ih (l := { l with lifted := false }) hw.2.2 hl (gone_body l s)
    rw [lowered_guard, guardTruths_guard, stayingTruths_guard hg, ← hbody]
    congr 1
    rcases hw.1 with rfl | he
    · exact (hannotated hl).symm
    · simp [valueAt, otherwiseFree_isOtherwise he]
  | on ts s ih =>
    intro l hw hl _
    rw [lowered_on]
    exact ih (l := { l with inOn := true, element := false }) hw.2 hl rfl
  | blocking s ih =>
    intro l hw hl _
    rw [lowered_blocking]
    exact ih (l := { l with element := false }) hw.2 hl rfl
  | invariant e => intro l _ _ _; cases l.lifted <;> rfl
  | _ => exact fun hw _ _ => handler hw rfl

theorem annotateOtherwise_free {e : Expr} (h : e.otherwiseFree) (statements : List Stmt) :
    e.annotateOtherwise statements = e := by
  have harguments : ∀ as : List Expr, Expr.otherwiseFree.arguments as →
      (∀ a ∈ as, a.otherwiseFree → a.annotateOtherwise statements = a) →
        Expr.annotateOtherwise.arguments statements as = as := by
    intro as
    induction as with
    | nil => exact fun _ _ => rfl
    | cons a as ih =>
      intro h hs
      simp only [Expr.otherwiseFree.arguments, Bool.and_eq_true] at h
      rw [Expr.annotateOtherwise.arguments, hs a (by simp) h.1, ih h.2 fun b hb => hs b (by simp [hb])]
  induction e with
  | group e ih => rw [Expr.annotateOtherwise, ih h]
  | not e ih => rw [Expr.annotateOtherwise, ih h]
  | binary op l r ihl ihr =>
    simp only [Expr.otherwiseFree, Bool.and_eq_true] at h
    rw [Expr.annotateOtherwise, ihl h.1, ihr h.2]
  | action p e as ih => rw [Expr.annotateOtherwise, harguments as h ih]
  | call f as ih => rw [Expr.annotateOtherwise, harguments as h ih]
  | otherwise | otherwiseValue => cases h
  | _ => rfl

theorem guardTruths_annotate_guardless {s : Stmt} (h : s.guardless) (statements : List Stmt) :
    (s.annotateOtherwise statements).guardTruths ρ = [] := by
  induction s generalizing statements with
  | compound ss ih =>
    rw [annotateOtherwise]
    split
    · exact guardTruths_guardless h
    · have hp := guardless_elements.1 h
      rw [guardTruths_compound, annotateOtherwise_elements, List.flatMap_map]
      exact List.flatMap_eq_nil_iff.2 fun s hs => ih s hs (hp s hs) ss
  | blocking s ih => exact ih h statements
  | guard | on | declarativeCompound | declarativeIllegal => cases h
  | invariant => rfl
  | ifThen | ifElse | defer => exact guardTruths_guardless h
  | _ => rfl

/-- Every guard that stays gets the value of its level if it is an `otherwise`. -/
theorem guardTruths_annotateOtherwise {s : Stmt} : ∀ {l : Level} {statements : List Stmt},
    s.OtherwiseFormed → l.drained = false → l.gone s = false →
    (s.isOtherwiseGuard → (!statements.any (holds ρ)) = l.annotated ρ) →
      ((lowered l.lifted s).annotateOtherwise statements).guardTruths ρ =
        s.stayingTruths ρ (Level.annotated ρ) l := by
  have handler : ∀ {s : Stmt} {l : Level} {statements : List Stmt}, s.OtherwiseFormed →
      s.declarative = false → ((lowered l.lifted s).annotateOtherwise statements).guardTruths ρ =
        s.stayingTruths ρ (Level.annotated ρ) l := fun hw hd => by
    rw [guardTruths_annotate_guardless (lowered_guardless _ (hw.tidy.guardless hd)),
      stayingTruths_imperative (hw.tidy.imperative hd)]
  induction s with
  | compound ss ih =>
    intro l statements hw hl _ _
    by_cases hd : (compound ss).declarative
    · have hws := otherwiseFormed_elements.1 hw.2.2
      have hdrained := lowered_imperative l.lifted (hw.tidy.unmixed) hd
      rw [lowered_compound] at hdrained ⊢
      rw [annotateOtherwise, hdrained, stayingTruths_compound (declarative_not_imperative hd), hl, Bool.false_or]
      -- once its invariants are lifted a compound can be drained
      cases hc : l.lifted && !(compound ss).declares with
      | true =>
        rw [if_pos rfl, guardTruths_compound]
        exact flatMap_lowered (l := ⟨l.inOn, l.lifted, true, true, ss⟩) rfl
          (fun s hs hg => guardTruths_drained (hws s hs) rfl hg) fun s _ hg => stayingTruths_gone hg
      | false =>
        rw [if_neg Bool.false_ne_true, guardTruths_compound, annotateOtherwise_elements, List.flatMap_map]
        refine flatMap_lowered (l := ⟨l.inOn, l.lifted, false, true, ss⟩) rfl
          (fun s hs hg => ih s hs (hws s hs) rfl hg fun _ => ?_) fun s _ hg => stayingTruths_gone hg
        exact any_lowered _ _ _
    · exact handler hw (by simpa using hd)
  | declarativeCompound | declarativeIllegal | theEnd => exact fun hw => hw.elim
  | guard e s ih =>
    intro l statements hw hl hg ho
    have hbody : (s.annotateOtherwise statements).guardTruths ρ =
        s.stayingTruths ρ (Level.annotated ρ) { l with lifted := false } :=
      ih (l := { l with lifted := false }) hw.2.2 hl (gone_body l s) fun h => by rw [hw.2.1] at h; cases h
    rw [lowered_guard, annotateOtherwise, guardTruths_guard, stayingTruths_guard hg, ← hbody]
    congr 1
    rcases hw.1 with rfl | he
    · rw [Expr.annotateOtherwise, Expr.truth_otherwiseValue, truth_notOrGuards_level, ho rfl]
      rfl
    · rw [annotateOtherwise_free he]
      simp [valueAt, otherwiseFree_isOtherwise he]
  | on ts s ih =>
    intro l statements hw hl _ _
    rw [lowered_on]
    exact ih (l := { l with inOn := true, element := false }) hw.2 hl rfl
      fun h => by rw [hw.1] at h; cases h
  | blocking s ih =>
    intro l statements hw hl _ _
    rw [lowered_blocking]
    exact ih (l := { l with element := false }) hw.2 hl rfl fun h => by rw [hw.1] at h; cases h
  | invariant e => intro l _ _ _ _ _; cases l.lifted <;> rfl
  | _ => exact fun hw _ _ _ => handler hw rfl

/-! ## `lift-invariants` -/

theorem invariants_elements (guards : List Expr) (ss : List Stmt) :
    invariants.elements guards ss = ss.flatMap (invariants guards) := by
  induction ss with
  | nil => rfl
  | cons s ss ih => rw [invariants.elements, ih, List.flatMap_cons]

theorem invariantsAt_elements (path : List (Level × Expr)) (l : Level) (ss : List Stmt) :
    invariantsAt.elements path l ss = ss.flatMap (invariantsAt path l) := by
  induction ss with
  | nil => rfl
  | cons s ss ih => rw [invariantsAt.elements, ih, List.flatMap_cons]

/-- The lifted invariants say that the guards on their path imply them. -/
theorem map_invariantsAt (s : Stmt) : ∀ (path : List (Level × Expr)) (l : Level),
    (s.invariantsAt path l).map (fun p => includeGuardExpressions (p.1.map Prod.snd) p.2) =
      s.invariants (path.map Prod.snd) := by
  induction s with
  | compound ss ih | declarativeCompound ss ih =>
    intro path l
    rw [invariantsAt, invariants, invariantsAt_elements, invariants_elements, List.map_flatMap]
    exact List.flatMap_congr fun s hs => ih s hs path _
  | guard e s ih => exact fun path l => ih ((l, e) :: path) l
  | on ts s ih => exact fun path l => ih path _
  | blocking s ih => exact fun path l => ih path l
  | ifThen e s ih => exact fun path l => ih path l
  | ifElse e s t ihs iht =>
    intro path l
    rw [invariantsAt, List.map_append, ihs, iht]
    rfl
  | defer as s ih => exact fun path l => ih path l
  | _ => exact fun _ _ => rfl

theorem vanishes_invariants {s : Stmt} (h : s.vanishes) (guards : List Expr) : s.invariants guards ≠ [] := by
  unfold vanishes at h
  split at h
  · exact List.cons_ne_nil _ _
  · exact List.cons_ne_nil _ _
  · cases h

/-- Without invariants a declarative statement stays declarative. -/
theorem declares_of_invariants {s : Stmt} (hd : s.declarative) {guards : List Expr}
    (h : s.invariants guards = []) : s.declares := by
  induction s with
  | compound ss ih =>
    cases ss with
    | nil => cases hd
    | cons s ss =>
      rw [invariants, invariants_elements, List.flatMap_eq_nil_iff] at h
      have hs := h s (by simp)
      show (if s.vanishes then declares.elements ss else s.declares) = true
      split
      · rename_i hv
        exact absurd hs (vanishes_invariants hv guards)
      · exact ih s (by simp) hd hs
  | _ => exact hd

/-- The body keeps its shape: it does not read as imperative when its invariants are lifted. -/
theorem annotateOtherwise_lifted {ss : List Stmt} (hd : ∀ s ∈ ss, s.declarative) :
    (compound (liftInvariants ss)).annotateOtherwise [] =
      .compound ((liftInvariants ss).map (annotateOtherwise (liftInvariants ss))) := by
  have hhead : liftInvariants ss = [] ∨ (compound (liftInvariants ss)).imperative = false := by
    unfold liftInvariants
    cases hi : invariants.elements [] ss with
    | cons e es => exact .inr rfl
    | nil =>
      cases ss with
      | nil => exact .inl rfl
      | cons s ss =>
        right
        rw [invariants_elements, List.flatMap_eq_nil_iff] at hi
        have hs := declares_of_invariants (hd s (by simp)) (hi s (by simp))
        have hv : s.vanishes = false := by
          rw [← Bool.not_eq_true]
          exact fun hv => vanishes_invariants hv [] (hi s (by simp))
        rw [List.map_nil, List.nil_append, removeInvariant.elements, hv, if_neg Bool.false_ne_true]
        exact declarative_not_imperative ((removeInvariant_declarative s).trans hs)
  rcases hhead with h | h
  · rw [h]; rfl
  · rw [annotateOtherwise, if_neg (by simp [h]), annotateOtherwise_elements]

theorem any_liftInvariants (ss : List Stmt) :
    (!(liftInvariants ss).any (holds ρ)) = Level.annotated ρ (.top ss) := by
  have hinv : ((invariants.elements [] ss).map Stmt.invariant).any (holds ρ) = false := by
    simp [List.any_map, holds]
  have hlow : removeInvariant.elements ss =
      (ss.filter fun s => !(true && s.vanishes)).map (lowered true) := by
    rw [removeInvariant_elements]; rfl
  rw [liftInvariants, List.any_append, hinv, Bool.false_or, hlow, any_lowered]
  rfl

/-- The guards of the body as the simulator has them. -/
theorem guardTruths_lifted {ss : List Stmt} (hw : (compound ss).OtherwiseFormed)
    (hd : ∀ s ∈ ss, s.declarative) :
    ((compound (liftInvariants ss)).annotateOtherwise []).guardTruths ρ =
      ((guardsAt.elements (.top ss) ss).filter stays).map (valueAt ρ (Level.annotated ρ)) := by
  have hws := otherwiseFormed_elements.1 hw.2.2
  have hinv : ((invariants.elements [] ss).map Stmt.invariant).flatMap
      (fun s => (s.annotateOtherwise (liftInvariants ss)).guardTruths ρ) = [] := by
    rw [List.flatMap_map]
    exact List.flatMap_eq_nil_iff.2 fun e _ => rfl
  have hlow : removeInvariant.elements ss =
      (ss.filter fun s => !(true && s.vanishes)).map (lowered true) := by
    rw [removeInvariant_elements]; rfl
  have hsplit : ∀ F : Stmt → List Bool, (liftInvariants ss).flatMap F =
      ((invariants.elements [] ss).map Stmt.invariant).flatMap F ++ (removeInvariant.elements ss).flatMap F :=
    fun F => by rw [liftInvariants, List.flatMap_append]
  rw [annotateOtherwise_lifted hd, guardTruths_compound, List.flatMap_map, hsplit, hinv, List.nil_append, hlow,
    guardsAt_elements, List.filter_flatMap, List.map_flatMap]
  exact flatMap_lowered (l := .top ss) rfl
    (fun s hs hg => guardTruths_annotateOtherwise (hws s hs) rfl hg fun _ => any_liftInvariants ss)
    fun s _ hg => stayingTruths_gone hg

end

/-! ## The theorem -/

/-- The guards that replace an `otherwise` have, in both pipelines and in the lifted invariants, the
value of what it stands for, and the other guards keep theirs. -/
def OtherwiseAgrees (ρ : Valuation) (ss : List Stmt) : Prop :=
  ((compound ss).removeOtherwise []).guardTruths ρ =
      (guardsAt.elements (.top ss) ss).map (valueAt ρ (Level.stands ρ)) ∧
    ((compound (liftInvariants ss)).annotateOtherwise []).guardTruths ρ =
      ((guardsAt.elements (.top ss) ss).filter stays).map (valueAt ρ (Level.stands ρ)) ∧
    ∀ p ∈ invariantsAt.elements [] (.top ss) ss, ∀ x ∈ p.1,
      (x.2.annotateOtherwise (liftInvariants ss)).truth ρ = if x.2.isOtherwise then x.1.stands ρ else x.2.truth ρ

/-- The guards of the body as the other pipelines have them. -/
theorem guardTruths_removed {ρ : Valuation} {ss : List Stmt} (hw : (compound ss).OtherwiseFormed)
    (hd : ∀ s ∈ ss, s.declarative) :
    ((compound ss).removeOtherwise []).guardTruths ρ =
      (guardsAt.elements (.top ss) ss).map (valueAt ρ (Level.removed ρ)) := by
  cases ss with
  | nil => rfl
  | cons s ss =>
    have hi : (compound (s :: ss)).imperative = false := declarative_not_imperative (hd s (by simp))
    have hws := otherwiseFormed_elements.1 hw.2.2
    rw [removeOtherwise, hi, if_neg Bool.false_ne_true, guardTruths_compound, removeOtherwise_elements,
      List.flatMap_map, guardsAt_elements, List.map_flatMap]
    exact List.flatMap_congr fun s' hs => guardTruths_removeOtherwise (hws s' hs) fun _ =>
      ⟨List.cons_ne_nil _ _, rfl⟩

/-- What is known of the guards of a tree is known of those above its invariants. -/
theorem invariantsAt_guards {P : Expr → Prop} (s : Stmt) : ∀ {path : List (Level × Expr)} {l : Level},
    (∀ e, .guard e ∈ s.frames → P e) → (∀ x ∈ path, P x.2) →
      ∀ p ∈ s.invariantsAt path l, ∀ x ∈ p.1, P x.2 := by
  induction s with
  | compound ss ih | declarativeCompound ss ih =>
    intro path l hs hpath p hp
    rw [invariantsAt, invariantsAt_elements] at hp
    obtain ⟨s, hmem, hp⟩ := List.mem_flatMap.1 hp
    refine ih s hmem (fun e he => hs e ?_) hpath p hp
    rw [frames, frames_elements]
    exact List.mem_flatMap.2 ⟨s, hmem, he⟩
  | guard e s ih =>
    intro path l hs hpath
    refine ih (fun e' he => hs e' (List.mem_cons_of_mem _ he)) ?_
    rintro x (_ | ⟨_, hx⟩)
    · exact hs e List.mem_cons_self
    · exact hpath x hx
  | on ts s ih => exact fun hs => ih fun e he => hs e (List.mem_cons_of_mem _ he)
  | blocking s ih => exact fun hs => ih fun e he => hs e (List.mem_cons_of_mem _ he)
  | invariant e =>
    intro path l _ hpath p hp
    rw [List.mem_singleton.1 hp]
    exact hpath
  | ifThen e s ih => exact ih
  | ifElse e s t ihs iht =>
    intro path l hs hpath p hp
    rcases List.mem_append.1 hp with hp | hp
    · exact ihs (fun e he => hs e (List.mem_append_left _ he)) hpath p hp
    · exact iht (fun e he => hs e (List.mem_append_right _ he)) hpath p hp
  | defer as s ih => exact ih
  | _ => exact fun _ _ p hp => absurd hp List.not_mem_nil

/-- A guard of the level that holds guards no event handler only if another that holds does. -/
def Covered (ρ : Valuation) (l : Level) : Prop :=
  (∃ s ∈ l.statements, s.holds ρ) → ∃ s ∈ l.statements, s.holdsHandler ρ l.inOn

theorem vanishes_handles {s : Stmt} (h : s.vanishes) (inOn : Bool) : s.handles inOn = false := by
  unfold vanishes at h
  split at h
  · rfl
  · rfl
  · cases h

theorem stands_iff {ρ : Valuation} {l : Level} :
    l.stands ρ = false ↔ ∃ s ∈ l.statements, s.holdsHandler ρ l.inOn := by
  simp [Level.stands]

theorem removed_eq_stands {ρ : Valuation} {l : Level} : l.removed ρ = l.stands ρ ↔ Covered ρ l := by
  have hr : l.removed ρ = false ↔ ∃ s ∈ l.statements, s.holds ρ := by simp [Level.removed]
  have hmono : l.stands ρ = false → l.removed ρ = false := by
    rw [stands_iff, hr]
    rintro ⟨s, hs, hh⟩
    exact ⟨s, hs, (Bool.and_eq_true_iff.1 hh).1⟩
  rw [Covered, ← hr, ← stands_iff]
  constructor
  · intro h hf
    rw [← h, hf]
  · intro h
    cases hs : l.stands ρ with
    | false => exact hmono hs
    | true =>
      by_contra hne
      rw [h (by simpa using hne)] at hs
      cases hs

/-- What the simulator drops of a covered level guards no event handler. -/
theorem annotated_eq_stands {ρ : Valuation} {l : Level} (hc : Covered ρ l) :
    l.annotated ρ = l.stands ρ ↔ (l.drained → l.stands ρ = false) := by
  unfold Level.annotated
  cases l.drained with
  | true =>
    simp only [Bool.not_true, Bool.false_and, forall_const]
    exact eq_comm
  | false =>
    simp only [Bool.not_false, Bool.true_and, Bool.false_eq_true, false_implies, iff_true]
    cases hs : l.stands ρ with
    | false =>
      obtain ⟨s, hmem, hh⟩ := stands_iff.1 hs
      obtain ⟨hholds, hhandles⟩ := Bool.and_eq_true_iff.1 hh
      have hgone : l.gone s = false := by
        rw [← Bool.not_eq_true]
        intro hg
        simp only [Level.gone, Bool.and_eq_true] at hg
        rw [vanishes_handles hg.2.2] at hhandles
        cases hhandles
      rw [Bool.not_eq_false', List.any_eq_true]
      exact ⟨s, hmem, by rw [hgone, hholds]; rfl⟩
    | true =>
      rw [Bool.not_eq_true', List.any_eq_false]
      intro s hmem hh
      obtain ⟨-, hholds⟩ := Bool.and_eq_true_iff.1 hh
      rw [stands_iff.2 (hc ⟨s, hmem, hholds⟩)] at hs
      cases hs

theorem valueAt_eq_iff {ρ : Valuation} {D D' : Level → Bool} {x : Level × Stmt} :
    valueAt ρ D x = valueAt ρ D' x ↔ (x.2.isOtherwiseGuard → D x.1 = D' x.1) := by
  obtain ⟨l, s⟩ := x
  cases s with
  | guard e s => cases he : e.isOtherwise <;> simp [valueAt, isOtherwiseGuard, he]
  | _ => simp [valueAt, isOtherwiseGuard]

end Stmt

end Dezyne
