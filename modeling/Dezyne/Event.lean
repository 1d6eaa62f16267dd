import Dezyne.Illegal
import Dezyne.Rename
import Dezyne.Lib.Grouping
/-!
# `normalize:event`

The ons of a trigger are merged into one whose guards are theirs, in order. The
guards of the merged on that hold are those of the canonical ons that are
enabled, so the event-first form runs what the behavior runs, renamed, as long
as the canonical ons are those of the behavior: a `blocking` in the compound of
an if that is itself a handler makes one too many.
-/

namespace Dezyne

open Grouping

/-! ## The passes -/

/-- `sort-canonical-ons`. The source partitions the whole list by the trigger of its first
element, which is in its own part. -/
def sortCanonicalOns (ons : List CanonicalOn) : List (List CanonicalOn) :=
  groups (fun a b => a.trigger.equal b.trigger) ons

/-- The local `canonical-on->guard` of `canonical-ons->on`. -/
def CanonicalOn.toBranch (o : CanonicalOn) : Stmt :=
  .guard o.guard (if o.blocking then .blocking o.statement else o.statement)

/-- `canonical-ons->on` of a list that is not empty. -/
def canonicalOnsToOn (otherwise : Bool) : List CanonicalOn → Stmt
  | [] => .compound []
  | on :: ons =>
    let guards := (on :: ons).map CanonicalOn.toBranch
    let trueGuard := (on :: ons).any (·.guard.literalTrue)
    .on [on.trigger] (.compound
      (if otherwise && !trueGuard then guards ++ [.guard .otherwise .illegal] else guards))

/-- The names of the members. -/
def Behavior.memberNames (b : Behavior) : List String := b.members.map (·.name)

/-- The canonical ons as they are merged. -/
def eventOns (m : Model) (members : List String) (ons : List CanonicalOn) : List CanonicalOn :=
  ((ons.map (CanonicalOn.alphaRename m members)).map CanonicalOn.simplifyGuard).map
    CanonicalOn.groupExpressions

def normalizeEvent (m : Model) (b : Behavior) : Behavior :=
  { b with
    statement := .compound
      ((sortCanonicalOns (eventOns m b.memberNames (b.statement.canonicalOns m))).map
        (canonicalOnsToOn false))
    functions := b.functions.map Function.groupExpressions }

def normalizeEventIllegals (m : Model) (b : Behavior) : Behavior :=
  { b with
    statement := .compound
      ((sortCanonicalOns (eventOns m b.memberNames
        (implicitIllegalsToExplicitIllegals m (fun _ => .illegal) (b.statement.canonicalOns m)))).map
        (canonicalOnsToOn true))
    functions := b.functions.map Function.groupExpressions }

/-! ## What a merged on means -/

/-- A statement of a merged on, with its blocking mark. -/
def Stmt.unblock : Stmt → Stmt × Bool
  | .blocking s => (s, true)
  | s => (s, false)

/-- The statement of a guard that holds; an `otherwise` does if no `other` guard does. -/
def Stmt.taken (ρ : Valuation) (other : Bool) : Stmt → List (Stmt × Bool)
  | .guard e s => if (if e.isOtherwise then !other else e.truth ρ) then [s.unblock] else []
  | _ => []

def Stmt.holding (ρ : Valuation) (guards : List Stmt) : List (Stmt × Bool) :=
  guards.flatMap (taken ρ (guards.any (holds ρ)))

/-- What the merged ons of an event-first form run. -/
def Stmt.runs (ρ : Valuation) (t : Trigger) : Stmt → List (Stmt × Bool)
  | .compound ons => ons.flatMap fun
    | .on ts (.compound guards) => if ts.any t.equal then holding ρ guards else []
    | _ => []
  | _ => []

section
variable {Γ : Context} {m : Model} {ρ : Valuation} {t : Trigger} {ons : List CanonicalOn}

theorem equivalence_trigger :
    Grouping.Equivalence fun a b : CanonicalOn => a.trigger.equal b.trigger where
  refl _ := Trigger.equal_refl _
  comm _ _ := Trigger.equal_comm _ _
  trans := Trigger.equal_trans

theorem ofClass_trigger (t : Trigger) :
    OfClass (fun a b : CanonicalOn => a.trigger.equal b.trigger) fun o => t.equal o.trigger := by
  intro a ha b
  dsimp only at ha ⊢
  rw [Trigger.equal_congr ha, Trigger.equal_comm]

/-- The statement of a canonical on with its mark, as a merged on runs it. -/
def CanonicalOn.marked (o : CanonicalOn) : Stmt × Bool := (o.statement, o.blocking)

theorem unblock_toBranch {o : CanonicalOn} (h : o.statement.isBlocking = false) :
    (if o.blocking then Stmt.blocking o.statement else o.statement).unblock = o.marked := by
  obtain ⟨b, g, u, s⟩ := o
  cases b with
  | true => rfl
  | false => cases s <;> first | rfl | cases h

/-- Canonical ons as a merged on can have them. -/
structure CanonicalOn.Mergeable (o : CanonicalOn) : Prop where
  statement : o.statement.isBlocking = false
  guard : o.guard.isOtherwise = false

theorem taken_branches (other : Bool) (h : ∀ o ∈ ons, o.Mergeable) :
    (ons.map CanonicalOn.toBranch).flatMap (Stmt.taken ρ other) =
      (ons.filter (·.guard.truth ρ)).map CanonicalOn.marked := by
  induction ons with
  | nil => rfl
  | cons o ons ih =>
    obtain ⟨hs, hg⟩ := h o (by simp)
    rw [List.map_cons, List.flatMap_cons, ih fun o' ho => h o' (by simp [ho])]
    simp only [CanonicalOn.toBranch, Stmt.taken, hg, unblock_toBranch hs, Bool.false_eq_true, if_false]
    cases hgt : o.guard.truth ρ <;> simp [hgt]

theorem any_holds (h : ∀ o ∈ ons, o.Mergeable) :
    (ons.map CanonicalOn.toBranch).any (Stmt.holds ρ) = ons.any (·.guard.truth ρ) := by
  induction ons with
  | nil => rfl
  | cons o ons ih =>
    rw [List.map_cons, List.any_cons, List.any_cons, ih fun o' ho => h o' (by simp [ho])]
    simp [CanonicalOn.toBranch, Stmt.holds, (h o (by simp)).guard]

/-- With the `otherwise`: the illegal where no guard holds. -/
theorem holding_otherwise (h : ∀ o ∈ ons, o.Mergeable) :
    Stmt.holding ρ (ons.map CanonicalOn.toBranch ++ [.guard .otherwise .illegal]) =
      orIllegal (.illegal, false) false ((ons.filter (·.guard.truth ρ)).map CanonicalOn.marked) := by
  have hother : Stmt.holds ρ (.guard .otherwise .illegal) = false := rfl
  rw [Stmt.holding, List.flatMap_append, List.any_append, List.any_cons, List.any_nil, hother,
    Bool.or_false, Bool.or_false, taken_branches _ h, any_holds h]
  cases ha : ons.any (·.guard.truth ρ) with
  | true =>
    obtain ⟨o, ho, hg⟩ := List.any_eq_true.1 ha
    have hne : ons.filter (·.guard.truth ρ) ≠ [] := List.ne_nil_of_mem (List.mem_filter.2 ⟨ho, hg⟩)
    cases hf : ons.filter (·.guard.truth ρ) with
    | nil => exact absurd hf hne
    | cons => simp [orIllegal, Stmt.taken, Expr.isOtherwise]
  | false =>
    have hnil : ons.filter (·.guard.truth ρ) = [] := by
      simpa [List.filter_eq_nil_iff] using List.any_eq_false.1 ha
    rw [hnil]
    rfl

/-- A literal `true` holds, so the `otherwise` that is not added would not be taken. -/
theorem holding_true (h : ∀ o ∈ ons, o.Mergeable) (ht : ons.any (·.guard.literalTrue)) :
    Stmt.holding ρ (ons.map CanonicalOn.toBranch) =
      orIllegal (.illegal, false) false ((ons.filter (·.guard.truth ρ)).map CanonicalOn.marked) := by
  obtain ⟨o, ho, hl⟩ := List.any_eq_true.1 ht
  have hg : o.guard.truth ρ := by rw [Expr.literalTrue_iff.1 hl]; rfl
  rw [Stmt.holding, taken_branches _ h]
  refine (if_neg ?_).symm
  simpa using ⟨o, ho, hg⟩

/-- What a group of canonical ons of one trigger runs when merged. -/
theorem holding_group (otherwise : Bool) (h : ∀ o ∈ ons, o.Mergeable) :
    Stmt.holding ρ (if otherwise && !ons.any (·.guard.literalTrue) then
        ons.map CanonicalOn.toBranch ++ [.guard .otherwise .illegal] else ons.map CanonicalOn.toBranch) =
      orIllegal (.illegal, false) (!otherwise) ((ons.filter (·.guard.truth ρ)).map CanonicalOn.marked) := by
  cases otherwise with
  | false =>
    rw [Bool.false_and, if_neg Bool.false_ne_true, Stmt.holding, taken_branches _ h]
    exact (if_neg (by simp)).symm
  | true =>
    cases ht : ons.any (·.guard.literalTrue) with
    | true => exact holding_true h ht
    | false => exact holding_otherwise h

/-- The merged ons run the canonical ons of a trigger that are enabled, or the illegal if the trigger
has canonical ons and none of them is. -/
theorem runs_merged (otherwise : Bool) (h : ∀ o ∈ ons, o.Mergeable) :
    (Stmt.compound ((sortCanonicalOns ons).map (canonicalOnsToOn otherwise))).runs ρ t =
      orIllegal (.illegal, false) (!otherwise || (ons.filter (t.equal ·.trigger)).isEmpty)
        ((CanonicalOn.enabled ρ t ons).map CanonicalOn.marked) := by
  have hruns : (Stmt.compound ((sortCanonicalOns ons).map (canonicalOnsToOn otherwise))).runs ρ t =
      (groups (fun a b => a.trigger.equal b.trigger) ons).flatMap
        (select (t.equal ·.trigger) fun ons =>
          Stmt.holding ρ (if otherwise && !ons.any (·.guard.literalTrue) then
            ons.map CanonicalOn.toBranch ++ [.guard .otherwise .illegal]
            else ons.map CanonicalOn.toBranch)) := by
    rw [Stmt.runs, List.flatMap_map]
    apply List.flatMap_congr
    rintro (_ | ⟨o, os⟩) -
    · rfl
    · simp only [canonicalOnsToOn, select, List.any_cons, List.any_nil, Bool.or_false]
  rw [hruns, flatMap_groups equivalence_trigger (ofClass_trigger t), CanonicalOn.enabled_eq_filter]
  have hmerge : ∀ o ∈ ons.filter (t.equal ·.trigger), o.Mergeable :=
    fun o ho => h o (List.mem_filter.1 ho).1
  cases hl : ons.filter (t.equal ·.trigger) with
  | nil => simp [select, orIllegal]
  | cons o os =>
    have ho : t.equal o.trigger := (List.mem_filter.1 (hl ▸ List.mem_cons_self : o ∈ ons.filter _)).2
    rw [hl] at hmerge
    rw [select, if_pos ho, holding_group otherwise hmerge, List.isEmpty_cons, Bool.or_false]

/-! ## The canonical ons as they are merged -/

theorem rename_imperative (f : String → String) (s : Stmt) :
    ∀ scope, (s.rename f scope).imperative = s.imperative := by
  induction s with
  | compound ss ih =>
    intro scope
    cases ss with
    | nil => rfl
    | cons s ss => exact ih s (by simp) scope
  | _ => exact fun _ => rfl

theorem alphaRename_guard (m : Model) (members : List String) (o : CanonicalOn) :
    (o.alphaRename m members).guard = o.guard := by
  unfold CanonicalOn.alphaRename
  dsimp only
  split <;> rfl

theorem equal_alphaRename (m : Model) (members : List String) (o : CanonicalOn) :
    t.equal (o.alphaRename m members).trigger = t.equal o.trigger := by
  have hf : t.equal (m.withFormals o.trigger) = t.equal o.trigger := by
    unfold Model.withFormals
    split <;> rfl
  unfold CanonicalOn.alphaRename
  dsimp only
  split
  exacts [hf, hf]

theorem alphaRename_imperative (m : Model) (members : List String) (o : CanonicalOn) :
    (o.alphaRename m members).statement.imperative = o.statement.imperative := by
  unfold CanonicalOn.alphaRename
  dsimp only
  split
  exacts [rfl, rename_imperative _ _ _]

theorem groupExpressions_isOtherwise {e : Expr} (h : e.isOtherwise = false) (p : Parent) :
    (e.groupExpressions p).isOtherwise = false := by
  have hw : ∀ e : Expr, e.isOtherwise = false → (p.wrap e).isOtherwise = false := by
    intro e he
    unfold Parent.wrap
    split
    exacts [rfl, he]
  cases e with
  | binary op l r => cases op <;> first | exact hw _ rfl | rfl
  | fieldTest | sharedFieldTest => exact hw _ rfl
  | not e => cases e <;> rfl
  | otherwise | otherwiseValue => cases h
  | _ => rfl

theorem proper_isOtherwise {L : String → Prop} {τ : Ty} {e : Expr} (h : e.Proper Γ L τ) :
    e.isOtherwise = false := by
  have ht := h.type
  cases e <;> first | rfl | cases ht

theorem imperative_not_blocking {s : Stmt} (h : s.imperative) : s.isBlocking = false := by
  cases s <;> first | rfl | cases h

theorem eventOns_mergeable (hρ : ρ.Typed Γ) (members : List String)
    (h : ∀ o ∈ ons, o.guard.Proper Γ (fun _ => True) .bool ∧ o.statement.imperative) :
    ∀ o ∈ eventOns m members ons, o.Mergeable := by
  intro o' ho'
  simp only [eventOns, List.map_map, List.mem_map, Function.comp_apply] at ho'
  obtain ⟨o, ho, rfl⟩ := ho'
  obtain ⟨hg, hi⟩ := h o ho
  rw [← alphaRename_guard m members o] at hg
  constructor
  · apply imperative_not_blocking
    rw [CanonicalOn.groupExpressions, CanonicalOn.simplifyGuard, groupExpressions_imperative,
      alphaRename_imperative, hi]
  · exact groupExpressions_isOtherwise (proper_isOtherwise (Expr.simplifyToplevel_keeps hρ hg).1) _

/-- A handler with its formals and locals renamed for the merge. -/
def Handler.renamed (m : Model) (members : List String) (h : Handler) : Stmt × Bool :=
  ((CanonicalOn.mk h.blocking .true h.trigger h.statement).alphaRename m members).groupExpressions.marked

theorem renamed_handler (m : Model) (members : List String) (o : CanonicalOn) :
    (((o.alphaRename m members).simplifyGuard).groupExpressions).marked = o.handler.renamed m members := by
  unfold Handler.renamed CanonicalOn.alphaRename
  dsimp only [CanonicalOn.handler]
  split <;> rfl

theorem enabled_eventOns (hρ : ρ.Typed Γ) (members : List String)
    (h : ∀ o ∈ ons, o.guard.Proper Γ (fun _ => True) .bool) :
    (CanonicalOn.enabled ρ t (eventOns m members ons)).map CanonicalOn.marked =
      ((CanonicalOn.enabled ρ t ons).map CanonicalOn.handler).map (Handler.renamed m members) := by
  rw [eventOns, List.map_map, List.map_map, enabled_map, List.map_map, List.map_map]
  · exact List.map_congr_left fun o _ => renamed_handler m members o
  · intro o ho
    refine ⟨equal_alphaRename m members o, ?_⟩
    have hg := h o ho
    rw [← alphaRename_guard m members o] at hg
    show ((o.alphaRename m members).guard.simplifyToplevelExpression.groupExpressions .other).truth ρ = _
    rw [Expr.groupExpressions_truth, Expr.truth, (Expr.simplifyToplevel_keeps hρ hg).2, alphaRename_guard]
    rfl

theorem filter_eventOns (members : List String) :
    ((eventOns m members ons).filter (t.equal ·.trigger)).isEmpty =
      (ons.filter (t.equal ·.trigger)).isEmpty := by
  rw [eventOns, List.map_map, List.map_map, List.filter_map, List.isEmpty_map]
  congr 1
  apply List.filter_congr
  intro o _
  exact equal_alphaRename m members o

/-- What the merged ons run, in terms of the canonical ons. -/
theorem runs_eventOns (hρ : ρ.Typed Γ) (members : List String) (otherwise : Bool)
    (h : ∀ o ∈ ons, o.guard.Proper Γ (fun _ => True) .bool ∧ o.statement.imperative) :
    (Stmt.compound ((sortCanonicalOns (eventOns m members ons)).map (canonicalOnsToOn otherwise))).runs ρ t =
      orIllegal (.illegal, false) (!otherwise || (ons.filter (t.equal ·.trigger)).isEmpty)
        (((CanonicalOn.enabled ρ t ons).map CanonicalOn.handler).map (Handler.renamed m members)) := by
  rw [runs_merged otherwise (eventOns_mergeable hρ members h), filter_eventOns,
    enabled_eventOns hρ members fun o ho => (h o ho).1]

/-! ## The theorem -/

theorem implicitIllegals_imperative (h : ∀ o ∈ ons, o.statement.imperative) :
    ∀ o ∈ implicitIllegalsToExplicitIllegals m (fun _ => .illegal) ons, o.statement.imperative := by
  intro o ho
  rcases List.mem_append.1 ho with ho | ho
  · obtain ⟨u, -, ho⟩ := List.mem_flatMap.1 ho
    rcases (mem_implicitIllegal ho).2 with ho | rfl
    exacts [h o ho, rfl]
  · exact h o (List.mem_filter.1 ho).1

/-- The illegal stays an illegal. -/
theorem renamed_illegal (members : List String) :
    (Handler.mk t .illegal false).renamed m members = (.illegal, false) := by
  unfold Handler.renamed CanonicalOn.alphaRename
  dsimp only
  split <;> rfl

theorem orIllegal_orIllegal {β : Type} (a : β) (modeling : Bool) (l : List β) :
    orIllegal a modeling (orIllegal a false l) = orIllegal a false l := by
  cases l <;> simp [orIllegal]

/-- What agrees with the handlers up to nested ones runs the same exactly if nothing is nested. -/
theorem orIllegal_eq_iff {β : Type} {H V : List Handler} (F : Handler → β) (a : β) (modeling : Bool)
    (ha : Agree (fun _ => False) (H.map (mark m)) V (∀ h ∈ H, h.statement.nests = false)) :
    orIllegal a modeling (V.map F) = orIllegal a modeling ((H.map (mark m)).map F) ↔
      ∀ h ∈ H, h.statement.nests = false := by
  constructor
  · intro he
    cases H with
    | nil => simp
    | cons h H =>
      have hl : ((h :: H).map (mark m)).length ≤ V.length := (ha.2.resolve_left (by simp)).1
      cases V with
      | nil => simp at hl
      | cons v V =>
        have hH : orIllegal a modeling (((h :: H).map (mark m)).map F) = ((h :: H).map (mark m)).map F :=
          if_neg (by simp)
        have hV : orIllegal a modeling ((v :: V).map F) = (v :: V).map F := if_neg (by simp)
        rw [hH, hV] at he
        exact ha.of_map_eq F (by simp) he.symm
  · intro h
    rw [ha.1 h]

/-- The statements a trigger runs in the behavior, as the merged ons have them. -/
def Behavior.handlers (m : Model) (ρ : Valuation) (t : Trigger) (b : Behavior) : List (Stmt × Bool) :=
  ((b.statement.enabled ρ t none false).map (mark m)).map (Handler.renamed m b.memberNames)

/-- Sorting canonical ons keeps those of every trigger, in order, and puts them in one place. The
event-first form runs the renamed statements of the behavior exactly if nothing is collected below one
of them; with illegals, the illegal instead of nothing: for every trigger of the model, and for a
modeling event that has a canonical on. -/
theorem normalizeEvent_runs_iff (Γ : Context) (m : Model) (ρ : Valuation) (t : Trigger) (b : Behavior)
    (hρ : ρ.Typed Γ) (hm : m.WellFormed) (hw : b.statement.WellFormed Γ false) :
    (∀ ons, (∀ u : Trigger, (sortCanonicalOns ons).flatMap (List.filter (u.equal ·.trigger)) =
        ons.filter (u.equal ·.trigger)) ∧
      (sortCanonicalOns ons).Pairwise fun g g' => ∀ o ∈ g, ∀ o' ∈ g', o.trigger.equal o'.trigger = false) ∧
    ((normalizeEvent m b).statement.runs ρ t = b.handlers m ρ t ↔
      ∀ h ∈ b.statement.enabled ρ t none false, h.statement.nests = false) ∧
    (t ∈ m.triggers →
      ((normalizeEventIllegals m b).statement.runs ρ t =
        orIllegal (.illegal, false) false (b.handlers m ρ t) ↔
          ∀ h ∈ b.statement.enabled ρ t none false, h.statement.nests = false)) ∧
    (t.modeling →
      ((normalizeEventIllegals m b).statement.runs ρ t =
        orIllegal (.illegal, false) ((b.statement.canonicalOns m).all (!t.equal ·.trigger))
          (b.handlers m ρ t) ↔
          ∀ h ∈ b.statement.enabled ρ t none false, h.statement.nests = false)) := by
  have hproper : ∀ o ∈ b.statement.canonicalOns m, o.guard.Proper Γ (fun _ => True) .bool :=
    canonicalOns_proper hw.tidy.frames
  have ha := agree_body (m := m) (ρ := ρ) (t := t) hw
  have hmem : ∀ o ∈ b.statement.canonicalOns m, o.guard.Proper Γ (fun _ => True) .bool ∧
      o.statement.imperative := fun o ho => ⟨hproper o ho, canonicalOns_imperative o ho⟩
  have hmemIll : ∀ o ∈ implicitIllegalsToExplicitIllegals m (fun _ => .illegal) (b.statement.canonicalOns m),
      o.guard.Proper Γ (fun _ => True) .bool ∧ o.statement.imperative := fun o ho =>
    ⟨implicitIllegals_proper hρ hproper _ o ho, implicitIllegals_imperative canonicalOns_imperative o ho⟩
  refine ⟨fun ons => ⟨?_, ?_⟩, ?_, fun ht => ?_, fun ht => ?_⟩
  · exact fun u => filter_groups equivalence_trigger (ofClass_trigger u) ons
  · exact groups_pairwise equivalence_trigger ons
  · have hnone : ∀ l, orIllegal (Stmt.illegal, false) true l = l := fun l => if_neg (by simp)
    have he := orIllegal_eq_iff (Handler.renamed m b.memberNames) (.illegal, false) true ha
    rw [hnone, hnone] at he
    rw [normalizeEvent, runs_eventOns hρ _ _ hmem, Bool.not_false, Bool.true_or, hnone]
    exact he
  · rw [normalizeEventIllegals, runs_eventOns hρ _ _ hmemIll, enabled_implicitIllegals hρ hm hproper _ (.inl ht),
      hm.modeling t ht, map_orIllegal, map_orIllegal]
    show orIllegal _ _ (orIllegal ((Handler.mk t .illegal false).renamed m b.memberNames) false _) = _ ↔ _
    rw [renamed_illegal, orIllegal_orIllegal]
    exact orIllegal_eq_iff _ _ false ha
  · rw [normalizeEventIllegals, runs_eventOns hρ _ _ hmemIll, filter_modeling hm _ ht,
      CanonicalOn.enabled_eq_filter, filter_modeling hm _ ht, ← CanonicalOn.enabled_eq_filter]
    have hall : (b.statement.canonicalOns m).all (!t.equal ·.trigger) =
        ((b.statement.canonicalOns m).filter (t.equal ·.trigger)).isEmpty := by
      rw [Bool.eq_iff_iff, List.all_eq_true, List.isEmpty_iff, List.filter_eq_nil_iff]
      simp
    rw [hall]
    exact orIllegal_eq_iff _ _ _ ha

end

/-! ## The condition can fail -/

/-- A component with a provides port that has an in-event with one parameter. -/
def oneEvent : Model :=
  .component [⟨"p", true, [⟨"e", true, false, ["a"]⟩]⟩]

theorem oneEvent_wellFormed : oneEvent.WellFormed where
  distinct := by decide
  modeling := by decide

/-- `on p.e(b): if (true) { blocking {} }` -/
def nestingBehavior : Behavior where
  members := []
  functions := []
  statement := .compound [.on [⟨some "p", "e", [.formal "b"]⟩]
    (.ifThen .true (.compound [.blocking (.compound [])]))]
  invariant := none

/-- `[true] on p.e(b): x = b;` -/
def assigningBehavior : Behavior where
  members := [⟨["int"], "x", .literal (.int 0)⟩]
  functions := []
  statement := .compound [.guard .true (.on [⟨some "p", "e", [.formal "b"]⟩] (.assign "x" (.var "b")))]
  invariant := none

/-- The formal gets the name it has in the event. -/
theorem normalizeEvent_assigning :
    (normalizeEvent oneEvent assigningBehavior).statement.runs clashValuation ⟨some "p", "e", []⟩ =
        [(.assign "x" (.var "a"), false)] ∧
      (normalizeEventIllegals oneEvent assigningBehavior).statement.runs clashValuation
        ⟨some "p", "e", []⟩ = [(.assign "x" (.var "a"), false)] := by
  have h := normalizeEvent_runs_iff (clashContext "p" "x") oneEvent clashValuation ⟨some "p", "e", []⟩
    assigningBehavior (clashValuation_typed "p" "x") oneEvent_wellFormed
    (by simp [assigningBehavior, Stmt.WellFormed, Stmt.WellFormed.elements, Stmt.declarative,
      Stmt.declarative.head, Expr.proper_true])
  exact ⟨h.2.1.2 (by decide), (h.2.2.1 (by decide)).2 (by decide)⟩

/-- The compound of the if is collected too, so `p.e` runs it after the if. -/
theorem normalizeEvent_nesting :
    ¬ ∀ (Γ : Context) (m : Model) (ρ : Valuation) (t : Trigger) (b : Behavior), ρ.Typed Γ →
      m.WellFormed → b.statement.WellFormed Γ false → t ∈ m.triggers →
      (normalizeEvent m b).statement.runs ρ t = b.handlers m ρ t := by
  intro h
  have hw : nestingBehavior.statement.WellFormed (clashContext "p" "x") false := by
    simp [nestingBehavior, Stmt.WellFormed, Stmt.WellFormed.elements, Stmt.declarative,
      Stmt.declarative.head, Stmt.guardless, Stmt.guardless.elements]
  have he := h (clashContext "p" "x") oneEvent clashValuation ⟨some "p", "e", []⟩ nestingBehavior
    (clashValuation_typed "p" "x") oneEvent_wellFormed hw (by decide)
  have hproper := canonicalOns_proper (m := oneEvent) hw.tidy.frames
  rw [normalizeEvent, runs_eventOns (clashValuation_typed "p" "x") _ _ fun o ho =>
    ⟨hproper o ho, canonicalOns_imperative o ho⟩] at he
  exact absurd (congrArg List.length he) (by decide)

end Dezyne
