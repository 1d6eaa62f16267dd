import Dezyne.Canonical
import Dezyne.Lib.Agree
/-!
# What `statement->canonical-on` collects

Of the trees the well-formedness check lets through, the collected statements
whose guards hold are those that are enabled, in order, unless something is
collected below one that is: a `blocking` in the compound of an if or a defer
that is itself a handler.
-/

namespace Dezyne

/-! ## The trees the well-formedness check lets through -/

namespace Stmt

/-- No guard and no on in it. -/
def guardless : Stmt → Bool
  | .compound ss => elements ss
  | .declarativeCompound _ => false
  | .guard _ _ => false
  | .on _ _ => false
  | .blocking s => s.guardless
  | .declarativeIllegal => false
  | .ifThen _ s => s.guardless
  | .ifElse _ s t => s.guardless && t.guardless
  | .defer _ s => s.guardless
  | _ => true
where
  elements : List Stmt → Bool
  | [] => true
  | s :: ss => s.guardless && elements ss

/-- No declarative statement next to an imperative one in a compound, or in one that is an element. -/
def Unmixed : Stmt → Prop
  | .compound ss => (∀ s ∈ ss, s.declarative = (Stmt.compound ss).declarative) ∧ elements ss
  | _ => True
where
  elements : List Stmt → Prop
  | [] => True
  | s :: ss => s.Unmixed ∧ elements ss

/-- As the parser makes them: nothing mixed, no guard or on below an if or a defer, and every guard with `Q`. -/
def Tidy (Q : Expr → Prop) : Stmt → Prop
  | .compound ss => (∀ s ∈ ss, s.declarative = (Stmt.compound ss).declarative) ∧ elements Q ss
  | .guard e s => Q e ∧ s.Tidy Q
  | .on _ s | .blocking s => s.Tidy Q
  | .declarativeCompound _ | .declarativeIllegal | .theEnd => False
  | .ifThen _ s | .defer _ s => s.guardless
  | .ifElse _ s t => s.guardless ∧ t.guardless
  | _ => True
where
  elements (Q : Expr → Prop) : List Stmt → Prop
  | [] => True
  | s :: ss => s.Tidy Q ∧ elements Q ss

/-- Boolean guards without shared variables, no on within an on, no trigger twice in an on, no
declarative statement next to an imperative one, no guard or on below an if or a defer. -/
def WellFormed (Γ : Context) (inOn : Bool) : Stmt → Prop
  | .compound ss => (∀ s ∈ ss, s.declarative = (Stmt.compound ss).declarative) ∧ elements Γ inOn ss
  | .declarativeCompound _ => False
  | .guard e s => e.Proper Γ (fun _ => True) .bool ∧ s.WellFormed Γ inOn
  | .on ts s => inOn = false ∧ ts.Pairwise (fun t u => t.equal u = false) ∧ s.WellFormed Γ true
  | .blocking s => s.WellFormed Γ inOn
  | .declarativeIllegal => False
  | .theEnd => False
  | .ifThen _ s => s.guardless
  | .ifElse _ s t => s.guardless ∧ t.guardless
  | .defer _ s => s.guardless
  | _ => True
where
  elements (Γ : Context) (inOn : Bool) : List Stmt → Prop
  | [] => True
  | s :: ss => s.WellFormed Γ inOn ∧ elements Γ inOn ss

/-- Something of it is collected; `d` tells whether the parent is declarative. -/
def reaches (d : Bool) : Stmt → Bool
  | .compound ss =>
    ((Stmt.compound ss).declarative || d) &&
      ((Stmt.compound ss).imperative || elements (Stmt.compound ss).declarative ss)
  | .declarativeCompound ss => elements true ss
  | .guard _ s => s.reaches true
  | .on _ s => s.reaches true
  | .blocking s => s.reaches true
  | .invariant _ => false
  | .declarativeIllegal => false
  | .theEnd => false
  | _ => d
where
  elements (d : Bool) : List Stmt → Bool
  | [] => false
  | s :: ss => s.reaches d || elements d ss

/-- Something below an imperative statement is collected: the check lets a `blocking` through in the
compound of an if or a defer. -/
def nests : Stmt → Bool
  | .compound ss => reaches.elements false ss
  | .ifThen _ s => s.reaches false
  | .ifElse _ s t => s.reaches false || t.reaches false
  | .defer _ s => s.reaches false
  | _ => false

/-! ## The elements of a compound -/

section
variable {Γ : Context} {ρ : Valuation} {t : Trigger} {on : Option Trigger} {inOn blocking : Bool}

theorem imperatives_elements (path : List Frame) (d : Bool) (ss : List Stmt) :
    imperatives.elements path d ss = ss.flatMap (imperatives path d) := by
  induction ss with
  | nil => rfl
  | cons s ss ih => rw [imperatives.elements, ih, List.flatMap_cons]

theorem enabled_elements (ss : List Stmt) :
    enabled.elements ρ t on blocking ss = ss.flatMap (enabled ρ t on blocking) := by
  induction ss with
  | nil => rfl
  | cons s ss ih => rw [enabled.elements, ih, List.flatMap_cons]

theorem wellFormed_elements {ss : List Stmt} :
    WellFormed.elements Γ inOn ss ↔ ∀ s ∈ ss, s.WellFormed Γ inOn := by
  induction ss with
  | nil => simp [WellFormed.elements]
  | cons s ss ih => simp [WellFormed.elements, ih]

theorem unmixed_elements {ss : List Stmt} : Unmixed.elements ss ↔ ∀ s ∈ ss, s.Unmixed := by
  induction ss with
  | nil => simp [Unmixed.elements]
  | cons s ss ih => simp [Unmixed.elements, ih]

theorem guardless_elements {ss : List Stmt} : guardless.elements ss ↔ ∀ s ∈ ss, s.guardless := by
  induction ss with
  | nil => simp [guardless.elements]
  | cons s ss ih => simp [guardless.elements, ih]

theorem reaches_elements {d : Bool} {ss : List Stmt} :
    reaches.elements d ss = false ↔ ∀ s ∈ ss, s.reaches d = false := by
  induction ss with
  | nil => simp [reaches.elements]
  | cons s ss ih => simp [reaches.elements, ih]

end

/-- What is collected below an imperative statement. -/
def nested (path : List Frame) : Stmt → List (List Frame × Stmt)
  | .compound ss => imperatives.elements path false ss
  | .ifThen _ s => s.imperatives path false
  | .ifElse _ s t => s.imperatives path false ++ t.imperatives path false
  | .defer _ s => s.imperatives path false
  | _ => []

/-- An imperative statement is collected if its parent is declarative, with what is below it. -/
theorem imperatives_eq {s : Stmt} (h : s.imperative) (path : List Frame) (d : Bool) :
    s.imperatives path d = if d then (path, s) :: s.nested path else [] := by
  have hd := imperative_not_declarative h
  cases s with
  | compound ss => rw [imperatives, visit, hd, h]; cases d <;> rfl
  | guard | on | blocking | invariant | declarativeCompound | declarativeIllegal | theEnd => cases h
  | _ => cases d <;> rfl

theorem imperatives_eq_nil (s : Stmt) : ∀ {path : List Frame} {d : Bool},
    s.imperatives path d = [] ↔ s.reaches d = false := by
  have visited : ∀ {s : Stmt} {path : List Frame} {d : Bool} {below : List (List Frame × Stmt)},
      visit path d s below = [] ↔
        ((s.declarative || d) && (s.imperative || !below.isEmpty)) = false := by
    intro s path d below
    unfold visit
    cases s.declarative || d <;> cases s.imperative <;> cases below <;> simp
  induction s with
  | compound ss ih =>
    intro path d
    have hb : (imperatives.elements path (compound ss).declarative ss).isEmpty =
        !reaches.elements (compound ss).declarative ss := by
      rw [Bool.eq_iff_iff, List.isEmpty_iff, imperatives_elements, List.flatMap_eq_nil_iff,
        Bool.not_eq_true', reaches_elements]
      exact forall₂_congr fun s hs => ih s hs
    rw [imperatives, visited, hb, Bool.not_not]
    rfl
  | declarativeCompound ss ih =>
    intro path d
    rw [imperatives, imperatives_elements, List.flatMap_eq_nil_iff, reaches, reaches_elements]
    exact forall₂_congr fun s hs => ih s hs
  | guard e s ih => exact ih
  | on ts s ih => exact ih
  | blocking s ih => exact ih
  | invariant | declarativeIllegal | theEnd => simp [imperatives, visit, imperative, reaches]
  | ifThen | ifElse | defer => simp [imperatives, visited, declarative, imperative, reaches]
  | _ => simp [imperatives, visited, declarative, imperative, reaches]

theorem nested_eq_nil {s : Stmt} {path : List Frame} : s.nested path = [] ↔ s.nests = false := by
  cases s with
  | compound ss =>
    rw [nested, nests, imperatives_elements, List.flatMap_eq_nil_iff, reaches_elements]
    exact forall₂_congr fun s _ => imperatives_eq_nil s
  | ifElse e s t =>
    rw [nested, nests, List.append_eq_nil_iff, imperatives_eq_nil, imperatives_eq_nil, Bool.or_eq_false_iff]
  | ifThen | defer => exact imperatives_eq_nil _
  | _ => simp [nested, nests]

/-! ## What the path of a collected statement says -/

/-- The nodes of paths anywhere in a statement. -/
def frames : Stmt → List Frame
  | .compound ss => elements ss
  | .declarativeCompound ss => elements ss
  | .guard e s => .guard e :: s.frames
  | .on ts s => .on ts :: s.frames
  | .blocking s => .blocking :: s.frames
  | .ifThen _ s => s.frames
  | .ifElse _ s t => s.frames ++ t.frames
  | .defer _ s => s.frames
  | _ => []
where
  elements : List Stmt → List Frame
  | [] => []
  | s :: ss => s.frames ++ elements ss

theorem frames_elements (ss : List Stmt) : frames.elements ss = ss.flatMap frames := by
  induction ss with
  | nil => rfl
  | cons s ss ih => rw [frames.elements, ih, List.flatMap_cons]

theorem guardless_frames {s : Stmt} (h : s.guardless) : ∀ f ∈ s.frames, f = .blocking := by
  induction s with
  | compound ss ih =>
    have hp := guardless_elements.1 h
    intro f hf
    rw [frames, frames_elements] at hf
    obtain ⟨s, hs, hf⟩ := List.mem_flatMap.1 hf
    exact ih s hs (hp s hs) f hf
  | blocking s ih =>
    rintro f (_ | ⟨_, hf⟩)
    · rfl
    · exact ih h f hf
  | ifThen e s ih => exact ih h
  | ifElse e s t ihs iht =>
    simp only [guardless, Bool.and_eq_true] at h
    exact fun f hf => (List.mem_append.1 hf).elim (ihs h.1 f) (iht h.2 f)
  | defer as s ih => exact ih h
  | guard | on | declarativeCompound | declarativeIllegal => cases h
  | _ => simp [frames]

section
variable {Q : Expr → Prop} {s : Stmt}

theorem tidy_elements {ss : List Stmt} : Tidy.elements Q ss ↔ ∀ s ∈ ss, s.Tidy Q := by
  induction ss with
  | nil => simp [Tidy.elements]
  | cons s ss ih => simp [Tidy.elements, ih]

theorem Tidy.unmixed (h : s.Tidy Q) : s.Unmixed := by
  induction s with
  | compound ss ih =>
    have hss := tidy_elements.1 h.2
    exact ⟨h.1, unmixed_elements.2 fun s hs => ih s hs (hss s hs)⟩
  | _ => trivial

/-- An imperative statement has no guard and no on in it. -/
theorem Tidy.guardless (h : s.Tidy Q) (hd : s.declarative = false) : s.guardless := by
  induction s with
  | compound ss ih =>
    obtain ⟨hm, hss⟩ := h
    rw [tidy_elements] at hss
    exact guardless_elements.2 fun s hs => ih s hs (hss s hs) ((hm s hs).trans hd)
  | ifThen | defer => exact h
  | ifElse e s t _ _ =>
    simp only [Stmt.guardless, Bool.and_eq_true]
    exact h
  | guard | on | blocking | invariant | declarativeCompound | declarativeIllegal => cases hd
  | _ => rfl

/-- A statement that is not declarative is imperative. -/
theorem Tidy.imperative (h : s.Tidy Q) (hd : s.declarative = false) : s.imperative := by
  induction s with
  | compound ss ih =>
    cases ss with
    | nil => rfl
    | cons s ss => exact ih s (by simp) h.2.1 hd
  | declarativeCompound | declarativeIllegal | theEnd => exact h.elim
  | guard | on | blocking | invariant => cases hd
  | _ => rfl

theorem Tidy.frames (h : s.Tidy Q) : ∀ e, .guard e ∈ s.frames → Q e := by
  have plain : ∀ {s : Stmt} (_ : s.guardless) e, .guard e ∈ s.frames → Q e :=
    fun h e he => by cases guardless_frames h _ he
  induction s with
  | compound ss ih =>
    have hss := tidy_elements.1 h.2
    intro e he
    rw [Stmt.frames, frames_elements] at he
    obtain ⟨s, hs, he⟩ := List.mem_flatMap.1 he
    exact ih s hs (hss s hs) e he
  | declarativeCompound | declarativeIllegal | theEnd => exact h.elim
  | guard e s ih =>
    rintro d (_ | ⟨_, hd⟩)
    · exact h.1
    · exact ih h.2 d hd
  | on _ s ih | blocking s ih =>
    rintro d (_ | ⟨_, hd⟩)
    exact ih h d hd
  | ifThen | ifElse | defer => exact plain (h.guardless rfl)
  | _ => simp [Stmt.frames]

end

theorem WellFormed.tidy {Γ : Context} {inOn : Bool} {s : Stmt} (hw : s.WellFormed Γ inOn) :
    s.Tidy fun e => e.Proper Γ (fun _ => True) .bool := by
  induction s generalizing inOn with
  | compound ss ih =>
    have hws := wellFormed_elements.1 hw.2
    exact ⟨hw.1, tidy_elements.2 fun s hs => ih s hs (hws s hs)⟩
  | guard e s ih => exact ⟨hw.1, ih hw.2⟩
  | on ts s ih => exact ih hw.2.2
  | blocking s ih => exact ih hw
  | declarativeCompound | declarativeIllegal | theEnd | ifThen | ifElse | defer => exact hw
  | _ => trivial

theorem mem_visit {path : List Frame} {d : Bool} {s : Stmt} {below : List (List Frame × Stmt)}
    {x : List Frame × Stmt} (h : x ∈ visit path d s below) :
    (x = (path, s) ∧ s.imperative) ∨ x ∈ below := by
  unfold visit at h
  split_ifs at h with h1 h2
  · rcases List.mem_append.1 h with h | h
    · exact .inl ⟨List.mem_singleton.1 h, h2⟩
    · exact .inr h
  · exact .inr h
  · cases h

/-- A collected statement is imperative. -/
theorem imperatives_imperative (s : Stmt) : ∀ {path : List Frame} {d : Bool},
    ∀ x ∈ s.imperatives path d, x.2.imperative := by
  induction s with
  | compound ss ih =>
    intro path d x h
    rcases mem_visit h with ⟨rfl, hi⟩ | h
    · exact hi
    · rw [imperatives_elements] at h
      obtain ⟨s, hs, h⟩ := List.mem_flatMap.1 h
      exact ih s hs x h
  | declarativeCompound ss ih =>
    intro path d x h
    rw [imperatives, imperatives_elements] at h
    obtain ⟨s, hs, h⟩ := List.mem_flatMap.1 h
    exact ih s hs x h
  | guard e s ih => exact ih
  | on ts s ih => exact ih
  | blocking s ih => exact ih
  | ifThen e s ih =>
    intro path d x h
    rcases mem_visit h with ⟨rfl, hi⟩ | h
    exacts [hi, ih x h]
  | ifElse e s t ihs iht =>
    intro path d x h
    rcases mem_visit h with ⟨rfl, hi⟩ | h
    · exact hi
    · exact (List.mem_append.1 h).elim (ihs x) (iht x)
  | defer as s ih =>
    intro path d x h
    rcases mem_visit h with ⟨rfl, hi⟩ | h
    exacts [hi, ih x h]
  | _ =>
    intro path d x h
    rcases mem_visit h with ⟨rfl, hi⟩ | h
    exacts [hi, absurd h List.not_mem_nil]

/-- The path of a collected statement extends the one above the tree by nodes of the tree. -/
theorem imperatives_path (s : Stmt) : ∀ {path : List Frame} {d : Bool}, ∀ x ∈ s.imperatives path d,
    ∃ inner, x.1 = inner ++ path ∧ inner ⊆ s.frames := by
  have node : ∀ {s : Stmt} {f : Frame} {path : List Frame} {x : List Frame × Stmt},
      (∃ inner, x.1 = inner ++ f :: path ∧ inner ⊆ s.frames) →
        ∃ inner, x.1 = inner ++ path ∧ inner ⊆ f :: s.frames := by
    rintro s f path x ⟨inner, hx, hi⟩
    refine ⟨inner ++ [f], by simp [hx], ?_⟩
    intro g hg
    rcases List.mem_append.1 hg with hg | hg
    · exact List.mem_cons_of_mem _ (hi hg)
    · rw [List.mem_singleton.1 hg]
      exact List.mem_cons_self
  have element : ∀ {ss : List Stmt} {path : List Frame} {x : List Frame × Stmt},
      (∃ s ∈ ss, ∃ inner, x.1 = inner ++ path ∧ inner ⊆ s.frames) →
        ∃ inner, x.1 = inner ++ path ∧ inner ⊆ frames.elements ss := by
    rintro ss path x ⟨s, hs, inner, hx, hi⟩
    rw [frames_elements]
    exact ⟨inner, hx, fun f hf => List.mem_flatMap.2 ⟨s, hs, hi hf⟩⟩
  induction s with
  | compound ss ih =>
    intro path d x h
    rcases mem_visit h with ⟨rfl, -⟩ | h
    · exact ⟨[], rfl, by simp⟩
    · rw [imperatives_elements] at h
      obtain ⟨s, hs, h⟩ := List.mem_flatMap.1 h
      exact element ⟨s, hs, ih s hs x h⟩
  | declarativeCompound ss ih =>
    intro path d x h
    rw [imperatives, imperatives_elements] at h
    obtain ⟨s, hs, h⟩ := List.mem_flatMap.1 h
    exact element ⟨s, hs, ih s hs x h⟩
  | guard e s ih => exact fun x h => node (ih x h)
  | on ts s ih => exact fun x h => node (ih x h)
  | blocking s ih => exact fun x h => node (ih x h)
  | ifThen e s ih =>
    intro path d x h
    rcases mem_visit h with ⟨rfl, -⟩ | h
    exacts [⟨[], rfl, by simp⟩, ih x h]
  | ifElse e s t ihs iht =>
    intro path d x h
    rcases mem_visit h with ⟨rfl, -⟩ | h
    · exact ⟨[], rfl, by simp⟩
    · rcases List.mem_append.1 h with h | h
      · obtain ⟨inner, hx, hi⟩ := ihs x h
        exact ⟨inner, hx, List.subset_append_of_subset_left _ hi⟩
      · obtain ⟨inner, hx, hi⟩ := iht x h
        exact ⟨inner, hx, List.subset_append_of_subset_right _ hi⟩
  | defer as s ih =>
    intro path d x h
    rcases mem_visit h with ⟨rfl, -⟩ | h
    exacts [⟨[], rfl, by simp⟩, ih x h]
  | _ =>
    intro path d x h
    rcases mem_visit h with ⟨rfl, -⟩ | h
    exacts [⟨[], rfl, by simp⟩, absurd h List.not_mem_nil]

/-- Below a statement without guards and ons only blockings are added to the path. -/
theorem guardless_path {s : Stmt} (h : s.guardless) {path : List Frame} {d : Bool}
    {x : List Frame × Stmt} (hx : x ∈ s.imperatives path d) :
    x.1.filterMap Frame.expression? = path.filterMap Frame.expression? ∧
      x.1.findSome? Frame.triggers? = path.findSome? Frame.triggers? := by
  obtain ⟨inner, he, hi⟩ := imperatives_path s x hx
  have hb : ∀ f ∈ inner, f = .blocking := fun f hf => guardless_frames h f (hi hf)
  rw [he, List.filterMap_append, List.findSome?_append]
  have he : inner.filterMap Frame.expression? = [] :=
    List.filterMap_eq_nil_iff.2 fun f hf => by rw [hb f hf]; rfl
  have ht : inner.findSome? Frame.triggers? = none :=
    List.findSome?_eq_none_iff.2 fun f hf => by rw [hb f hf]; rfl
  rw [he, ht]
  exact ⟨rfl, rfl⟩

end Stmt

/-! ## What is enabled of the collected statements -/

section
variable {Γ : Context} {m : Model} {ρ : Valuation} {t : Trigger}

/-- The collected statements that are enabled. -/
def collected (m : Model) (ρ : Valuation) (t : Trigger) (l : List (List Frame × Stmt)) : List Handler :=
  (CanonicalOn.enabled ρ t (l.flatMap (imperativeToCanonicalOns m))).map CanonicalOn.handler

theorem CanonicalOn.enabled_append (l l' : List CanonicalOn) :
    enabled ρ t (l ++ l') = enabled ρ t l ++ enabled ρ t l' :=
  List.filter_append l l'

theorem CanonicalOn.enabled_eq_filter (ons : List CanonicalOn) :
    enabled ρ t ons = (ons.filter (t.equal ·.trigger)).filter (·.guard.truth ρ) := by
  rw [enabled, List.filter_filter]
  exact List.filter_congr fun o _ => Bool.and_comm _ _

@[simp] theorem collected_nil : collected m ρ t [] = [] := rfl

@[simp] theorem collected_append (l l' : List (List Frame × Stmt)) :
    collected m ρ t (l ++ l') = collected m ρ t l ++ collected m ρ t l' := by
  simp [collected, CanonicalOn.enabled]

theorem collected_flatMap {α : Type} (l : List α) (f : α → List (List Frame × Stmt)) :
    collected m ρ t (l.flatMap f) = l.flatMap fun a => collected m ρ t (f a) := by
  induction l with
  | nil => rfl
  | cons a l ih => simp [ih]

namespace Frame

/-- The guards of a path hold and its on, if there is one, has the trigger. -/
def opens (ρ : Valuation) (t : Trigger) (path : List Frame) : Bool :=
  (path.filterMap expression?).all (·.truth ρ) &&
    (path.findSome? triggers?).all fun ts => (ts.find? t.equal).isSome

/-- The trigger of the on of a path. -/
def trigger? (t : Trigger) (path : List Frame) : Option Trigger :=
  (path.findSome? triggers?).bind fun ts => ts.find? t.equal

/-- A path with an on exactly when `inOn`, its triggers different from each other. -/
structure Fits (inOn : Bool) (path : List Frame) : Prop where
  inOn : (path.findSome? triggers?).isSome = inOn
  unique : ∀ ts, path.findSome? triggers? = some ts → ts.Pairwise (fun t u => t.equal u = false)

theorem fits_guard {inOn : Bool} {path : List Frame} (h : Fits inOn path) (e : Expr) :
    Fits inOn (.guard e :: path) := ⟨h.inOn, h.unique⟩

theorem fits_blocking {inOn : Bool} {path : List Frame} (h : Fits inOn path) :
    Fits inOn (.blocking :: path) := ⟨h.inOn, h.unique⟩

theorem fits_on {ts : List Trigger} (h : ts.Pairwise (fun t u => t.equal u = false)) (path : List Frame) :
    Fits true (.on ts :: path) := ⟨rfl, by rintro _ ⟨⟩; exact h⟩

@[simp] theorem opens_guard (e : Expr) (path : List Frame) :
    opens ρ t (.guard e :: path) = (e.truth ρ && opens ρ t path) :=
  Bool.and_assoc _ _ _

@[simp] theorem opens_blocking (path : List Frame) :
    opens ρ t (.blocking :: path) = opens ρ t path := rfl

theorem opens_on {path : List Frame} (h : Fits false path) (ts : List Trigger) :
    opens ρ t (.on ts :: path) = ((ts.find? t.equal).isSome && opens ρ t path) := by
  have hn : path.findSome? triggers? = none := by simpa using h.inOn
  show ((path.filterMap expression?).all (·.truth ρ) && (ts.find? t.equal).isSome) = _
  rw [opens, hn, Option.all_none, Bool.and_true, Bool.and_comm]

end Frame

/-- Of triggers that differ from each other at most one is the trigger. -/
theorem filter_triggers {ts : List Trigger} (h : ts.Pairwise (fun t u => t.equal u = false)) :
    ts.filter t.equal = (ts.find? t.equal).toList := by
  induction ts with
  | nil => rfl
  | cons u us ih =>
    rw [List.pairwise_cons] at h
    by_cases hu : t.equal u
    · -- the others differ from `u`, so from `t`
      have hus : us.filter t.equal = [] := List.filter_eq_nil_iff.2 fun v hv => by
        rw [Trigger.equal_congr hu v, h.1 v hv]
        exact Bool.false_ne_true
      rw [List.filter_cons_of_pos hu, List.find?_cons_of_pos hu, hus]
      rfl
    · rw [List.filter_cons_of_neg hu, List.find?_cons_of_neg hu, ih h.2]

theorem enabled_triggers (ts : List Trigger) (e : Expr) (s : Stmt) (b : Bool) :
    CanonicalOn.enabled ρ t (ts.map fun u => ⟨m.provides u && b, e, u, s⟩) =
      if e.truth ρ then (ts.filter t.equal).map fun u => ⟨m.provides u && b, e, u, s⟩ else [] := by
  rw [CanonicalOn.enabled, List.filter_map]
  cases he : e.truth ρ <;> simp [Function.comp_def, he]

/-- What one collected statement contributes. -/
theorem collected_single {inOn : Bool} {path : List Frame} (h : Frame.Fits inOn path) (s : Stmt) :
    collected m ρ t [(path, s)] =
      if Frame.opens ρ t path then
        (Frame.trigger? t path).toList.map fun u => ⟨u, s, m.provides u && path.any Frame.isBlocking⟩
      else [] := by
  simp only [collected, List.flatMap_cons, List.flatMap_nil, List.append_nil, imperativeToCanonicalOns]
  rw [enabled_triggers, truth_andExpressions, Frame.opens, Frame.trigger?]
  cases hts : path.findSome? Frame.triggers? with
  | none => simp
  | some ts =>
    rw [Option.getD_some, filter_triggers (h.unique ts hts), Option.all_some, Option.bind_some]
    cases ts.find? t.equal with
    | none => simp
    | some u =>
      cases (path.filterMap Frame.expression?).all (·.truth ρ) <;> rfl

theorem enabled_imperative {s : Stmt} (h : s.imperative) (on : Option Trigger) (blocking : Bool) :
    s.enabled ρ t on blocking = on.toList.map fun u => ⟨u, s, blocking⟩ := by
  cases s with
  | compound ss =>
    have hd := Stmt.imperative_not_declarative h
    simp only [Stmt.enabled, hd, Bool.false_eq_true, if_false]
  | guard | on | blocking | invariant | declarativeCompound | declarativeIllegal => cases h
  | _ => rfl

theorem collected_eq_nil {l : List (List Frame × Stmt)} :
    collected m ρ t l = [] ↔ ∀ x ∈ l, collected m ρ t [x] = [] := by
  have h : l = l.flatMap fun x => [x] := by simp
  conv_lhs => rw [h, collected_flatMap, List.flatMap_eq_nil_iff]

/-- The handler as the canonical form has it: blocking is for provides ports. -/
def mark (m : Model) (h : Handler) : Handler :=
  { h with blocking := m.provides h.trigger && h.blocking }

/-- The statements below one without guards and ons are enabled if its path opens and has an on. -/
theorem collected_guardless {inOn d : Bool} {path : List Frame} (hf : Frame.Fits inOn path) {s : Stmt}
    (hs : s.guardless) {x : List Frame × Stmt} (hx : x ∈ s.imperatives path d) :
    collected m ρ t [x] = [] ↔ Frame.opens ρ t path = false ∨ Frame.trigger? t path = none := by
  obtain ⟨he, ht⟩ := Stmt.guardless_path hs hx
  have hfx : Frame.Fits inOn x.1 := ⟨ht ▸ hf.inOn, ht ▸ hf.unique⟩
  rw [collected_single hfx x.2]
  have ho : Frame.opens ρ t x.1 = Frame.opens ρ t path := by rw [Frame.opens, he, ht]; rfl
  have hu : Frame.trigger? t x.1 = Frame.trigger? t path := by rw [Frame.trigger?, ht]; rfl
  rw [ho, hu]
  cases Frame.opens ρ t path <;> cases Frame.trigger? t path <;> simp

/-- Of an imperative statement that is enabled more is collected if something in it is. -/
theorem agree_nested {inOn : Bool} {path : List Frame} (hf : Frame.Fits inOn path)
    (ho : Frame.opens ρ t path) {s : Stmt} (hi : s.imperative) (hs : s.guardless) :
    Agree (fun _ => False)
      ((s.enabled ρ t (Frame.trigger? t path) (path.any Frame.isBlocking)).map (mark m))
      (collected m ρ t (s.imperatives path true))
      (∀ h ∈ s.enabled ρ t (Frame.trigger? t path) (path.any Frame.isBlocking), h.statement.nests = false) := by
  have hmem : ∀ x ∈ s.nested path, x ∈ s.imperatives path true := fun x hx => by
    rw [Stmt.imperatives_eq hi, if_pos rfl]
    exact List.mem_cons_of_mem _ hx
  rw [enabled_imperative hi]
  cases hu : Frame.trigger? t path with
  | none =>
    have hnone : collected m ρ t (s.imperatives path true) = [] :=
      collected_eq_nil.2 fun x hx => (collected_guardless hf hs hx).2 (.inr hu)
    rw [hnone]
    exact .of_eq rfl (by simp)
  | some u =>
    have hone := collected_single (m := m) (ρ := ρ) (t := t) hf s
    rw [ho, if_pos rfl, hu] at hone
    have happ : s.imperatives path true = [(path, s)] ++ s.nested path := by
      rw [Stmt.imperatives_eq hi, if_pos rfl]
      rfl
    rw [happ, collected_append, hone]
    -- the nested statements are all enabled, so only if there is none is nothing added
    have hn : collected m ρ t (s.nested path) = [] ↔ s.nests = false := by
      rw [← Stmt.nested_eq_nil, collected_eq_nil, List.eq_nil_iff_forall_not_mem]
      refine forall₂_congr fun x hx => ?_
      rw [collected_guardless hf hs (hmem x hx), ho, hu]
      simp
    simp only [Option.toList_some, List.map_cons, List.map_nil, List.mem_singleton, forall_eq]
    rw [← hn]
    refine ⟨fun h => by rw [h]; rfl, .inr ⟨by simp, fun hl => ?_⟩⟩
    simp only [List.length_append, List.length_cons, List.length_nil] at hl
    exact List.eq_nil_of_length_eq_zero (by omega)

/-- Below a path that does not open nothing is enabled. -/
theorem collected_closed {s : Stmt} : ∀ {inOn d : Bool} {path : List Frame}, s.WellFormed Γ inOn →
    Frame.Fits inOn path → Frame.opens ρ t path = false → collected m ρ t (s.imperatives path d) = [] := by
  have handler : ∀ {s : Stmt} {inOn d : Bool} {path : List Frame}, s.guardless → Frame.Fits inOn path →
      Frame.opens ρ t path = false → collected m ρ t (s.imperatives path d) = [] := fun hs hf ho =>
    collected_eq_nil.2 fun x hx => (collected_guardless hf hs hx).2 (.inl ho)
  induction s with
  | compound ss ih =>
    intro inOn d path hw hf ho
    by_cases hs : (Stmt.compound ss).declarative
    · have hws := Stmt.wellFormed_elements.1 hw.2
      rw [Stmt.imperatives, Stmt.visit, Stmt.declarative_not_imperative hs, hs, Stmt.imperatives_elements]
      simp only [Bool.true_or, if_true, Bool.false_eq_true, if_false, List.nil_append, collected_flatMap]
      exact List.flatMap_eq_nil_iff.2 fun s h => ih s h (hws s h) hf ho
    · exact handler (hw.tidy.guardless (by simpa using hs)) hf ho
  | declarativeCompound | declarativeIllegal | theEnd => exact fun hw => hw.elim
  | guard e s ih =>
    exact fun hw hf ho => ih hw.2 (Frame.fits_guard hf e) (by rw [Frame.opens_guard, ho, Bool.and_false])
  | on ts s ih =>
    intro inOn d path hw hf ho
    obtain ⟨rfl, hu, hw⟩ := hw
    exact ih hw (Frame.fits_on hu path) (by rw [Frame.opens_on hf, ho, Bool.and_false])
  | blocking s ih => exact fun hw hf ho => ih hw (Frame.fits_blocking hf) ho
  | invariant e =>
    intro inOn d path hw hf _
    simp [Stmt.imperatives, Stmt.visit, Stmt.declarative, Stmt.imperative]
  | _ => exact fun hw hf ho => handler (hw.tidy.guardless rfl) hf ho

/-- Along a path that opens, the collected statements are the enabled ones, and more if one of those
nests. -/
theorem agree_imperatives {s : Stmt} : ∀ {inOn d : Bool} {path : List Frame}, s.WellFormed Γ inOn →
    Frame.Fits inOn path → Frame.opens ρ t path → s.declarative ∨ d = true →
      Agree (fun _ => False)
        ((s.enabled ρ t (Frame.trigger? t path) (path.any Frame.isBlocking)).map (mark m))
        (collected m ρ t (s.imperatives path d))
        (∀ h ∈ s.enabled ρ t (Frame.trigger? t path) (path.any Frame.isBlocking), h.statement.nests = false) := by
  induction s with
  | compound ss ih =>
    intro inOn d path hw hf ho hd
    by_cases hs : (Stmt.compound ss).declarative
    · have hws := Stmt.wellFormed_elements.1 hw.2
      rw [Stmt.imperatives, Stmt.visit, Stmt.declarative_not_imperative hs, hs, Stmt.imperatives_elements,
        Stmt.enabled, if_pos hs, Stmt.enabled_elements, List.map_flatMap]
      simp only [Bool.true_or, if_true, Bool.false_eq_true, if_false, List.nil_append, collected_flatMap]
      refine (Agree.flatMap fun s h => ih s h (hws s h) hf ho (.inr rfl)).congr ?_
      simp only [List.mem_flatMap, forall_exists_index, and_imp]
      exact ⟨fun h x s hs hx => h s hs x hx, fun h s hs x hx => h x s hs hx⟩
    · obtain rfl := hd.resolve_left hs
      have hi : (Stmt.compound ss).declarative = false := by simpa using hs
      exact agree_nested hf ho (hw.tidy.imperative hi) (hw.tidy.guardless hi)
  | declarativeCompound | declarativeIllegal | theEnd => exact fun hw => hw.elim
  | guard e s ih =>
    intro inOn d path hw hf ho _
    rw [Stmt.imperatives, Stmt.enabled]
    cases he : e.truth ρ with
    | true => exact ih hw.2 (Frame.fits_guard hf e) (by rw [Frame.opens_guard, he, ho]; rfl) (.inr rfl)
    | false =>
      -- the guard does not hold, so nothing below it is collected as open
      have hc := collected_closed (m := m) (ρ := ρ) (t := t) (d := true) hw.2 (Frame.fits_guard hf e)
        (by rw [Frame.opens_guard, he, Bool.false_and])
      rw [hc]
      exact .of_eq rfl (by simp)
  | on ts s ih =>
    intro inOn d path hw hf ho _
    obtain ⟨rfl, hu, hw⟩ := hw
    have hpath := Frame.opens_on (ρ := ρ) (t := t) hf ts
    rw [Stmt.imperatives, Stmt.enabled]
    cases hts : ts.find? t.equal with
    | some u =>
      rw [hts, ho] at hpath
      have hagree := ih (d := true) hw (Frame.fits_on hu path) hpath (.inr rfl)
      rw [show Frame.trigger? t (.on ts :: path) = some u from hts] at hagree
      exact hagree
    | none =>
      rw [hts] at hpath
      rw [collected_closed (m := m) (d := true) hw (Frame.fits_on hu path) hpath]
      exact .of_eq rfl (by simp)
  | blocking s ih => exact fun hw hf ho _ => ih hw (Frame.fits_blocking hf) ho (.inr rfl)
  | invariant e =>
    intro inOn d path hw hf _ _
    simp only [Stmt.imperatives, Stmt.visit, Stmt.declarative, Stmt.imperative, Stmt.enabled]
    exact .of_eq rfl (by simp)
  | _ =>
    intro inOn d path hw hf ho hd
    obtain rfl := hd.resolve_left (by simp [Stmt.declarative])
    exact agree_nested hf ho rfl (hw.tidy.guardless rfl)

/-- The canonical ons of a body are its enabled statements, and more if one of those nests. -/
theorem agree_body {s : Stmt} (hw : s.WellFormed Γ false) :
    Agree (fun _ => False) ((s.enabled ρ t none false).map (mark m))
      (collected m ρ t (s.imperatives [] false))
      (∀ h ∈ s.enabled ρ t none false, h.statement.nests = false) := by
  have hf : Frame.Fits false [] := ⟨rfl, by rintro _ ⟨⟩⟩
  by_cases hd : s.declarative
  · exact agree_imperatives (m := m) (d := false) hw hf (rfl : Frame.opens ρ t [] = true) (.inl hd)
  · have hi := hw.tidy.imperative (by simpa using hd)
    rw [Stmt.imperatives_eq hi, enabled_imperative hi]
    exact .of_eq rfl (by simp)

theorem mem_canonicalOns {s : Stmt} {o : CanonicalOn} (h : o ∈ s.canonicalOns m) :
    ∃ x ∈ s.imperatives [] false, o.statement = x.2 ∧
      o.guard = andExpressions (x.1.filterMap Frame.expression?) := by
  obtain ⟨x, hx, ho⟩ := List.mem_flatMap.1 h
  obtain ⟨u, -, rfl⟩ := List.mem_map.1 ho
  exact ⟨x, hx, rfl, rfl⟩

theorem canonicalOns_imperative {s : Stmt} : ∀ o ∈ s.canonicalOns m, o.statement.imperative := by
  intro o ho
  obtain ⟨x, hx, hs, -⟩ := mem_canonicalOns ho
  rw [hs]
  exact Stmt.imperatives_imperative s x hx

theorem canonicalOns_proper {s : Stmt}
    (h : ∀ e, .guard e ∈ s.frames → e.Proper Γ (fun _ => True) .bool) :
    ∀ o ∈ s.canonicalOns m, o.guard.Proper Γ (fun _ => True) .bool := by
  intro o ho
  obtain ⟨x, hx, -, hg⟩ := mem_canonicalOns ho
  obtain ⟨inner, he, hi⟩ := Stmt.imperatives_path s x hx
  rw [hg]
  refine proper_andExpressions fun e hm => ?_
  obtain ⟨f, hf, hfe⟩ := List.mem_filterMap.1 hm
  obtain rfl : f = .guard e := by cases f <;> simp_all [Frame.expression?]
  rw [he, List.append_nil] at hf
  exact h e (hi hf)

end

end Dezyne
