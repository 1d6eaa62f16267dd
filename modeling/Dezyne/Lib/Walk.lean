import Mathlib.Logic.Relation
/-!
# Walks

The walks through a labelled graph, as the list of their edges.
-/

variable {σ ε : Type*}

/-- A walk over the edges `edge s e t`. -/
inductive Walk (edge : σ → ε → σ → Prop) : σ → List ε → σ → Prop
  | nil (s : σ) : Walk edge s [] s
  | cons {s t u : σ} {e : ε} {p : List ε} : edge s e t → Walk edge t p u → Walk edge s (e :: p) u

namespace Walk

variable {edge edge' : σ → ε → σ → Prop} {s t u : σ} {e : ε} {p q : List ε}

theorem single (h : edge s e t) : Walk edge s [e] t := cons h (nil t)

theorem append (hp : Walk edge s p t) (hq : Walk edge t q u) : Walk edge s (p ++ q) u := by
  induction hp with
  | nil => exact hq
  | cons he _ ih => exact cons he (ih hq)

theorem snoc (hp : Walk edge s p t) (he : edge t e u) : Walk edge s (p ++ [e]) u := hp.append (single he)

theorem mono (h : ∀ s e t, edge s e t → edge' s e t) (hp : Walk edge s p t) : Walk edge' s p t := by
  induction hp with
  | nil => exact nil _
  | cons he _ ih => exact cons (h _ _ _ he) ih

/-- What holds at the start and is kept along every edge holds at the end. -/
theorem closed {P : σ → Prop} (h : ∀ s e t, edge s e t → P s → P t) (hp : Walk edge s p t) (hs : P s) :
    P t := by
  induction hp with
  | nil => exact hs
  | cons he _ ih => exact ih (h _ _ _ he hs)

/-- A walk splits into two at any state of it. -/
theorem of_append : ∀ {p : List ε} {s : σ}, Walk edge s (p ++ q) u → ∃ t, Walk edge s p t ∧
    Walk edge t q u := by
  intro p
  induction p with
  | nil => intro s h; exact ⟨s, nil s, h⟩
  | cons e p ih =>
    intro s h
    cases h with
    | cons he h =>
      obtain ⟨t, hp, hq⟩ := ih h
      exact ⟨t, cons he hp, hq⟩

/-- The last edge of a walk. -/
theorem of_snoc (h : Walk edge s (p ++ [e]) t) : ∃ u, Walk edge s p u ∧ edge u e t := by
  obtain ⟨u, hp, he⟩ := of_append h
  cases he with
  | cons he hnil =>
    cases hnil
    exact ⟨u, hp, he⟩

/-- Where an edge has its ends, so has a walk that has an edge. -/
theorem ends_unique (h : ∀ s e t s' t', edge s e t → edge s' e t' → s = s' ∧ t = t') {s' t' : σ}
    (hp : Walk edge s p t) (hp' : Walk edge s' p t') (hne : p ≠ []) : s = s' ∧ t = t' := by
  induction hp generalizing s' with
  | nil => exact absurd rfl hne
  | @cons s t u e p he hp ih =>
    cases hp' with
    | @cons _ v _ _ _ he' hp' =>
      obtain ⟨rfl, rfl⟩ := h _ _ _ _ _ he he'
      cases p with
      | nil =>
        cases hp
        cases hp'
        exact ⟨rfl, rfl⟩
      | cons d p => exact ⟨rfl, (ih hp' (by simp)).2⟩

/-- A walk of as many edges as there are states has a cycle. -/
theorem exists_cycle [DecidableEq σ] : ∀ {p : List ε} {s : σ} {U : List σ}, Walk edge s p t →
    (∀ a b u, p = a ++ b → Walk edge s a u → Walk edge u b t → u ∈ U) → U.length ≤ p.length →
    ∃ a c b u, p = a ++ c ++ b ∧ c ≠ [] ∧ Walk edge s a u ∧ Walk edge u c u ∧ Walk edge u b t := by
  intro p
  induction p with
  | nil =>
    intro s U hp hU hlen
    have hs := hU [] [] s rfl (nil s) hp
    rw [List.eq_nil_of_length_eq_zero (Nat.le_zero.1 hlen)] at hs
    cases hs
  | cons e p ih =>
    intro s U hp hU hlen
    have hs : s ∈ U := hU [] (e :: p) s rfl (nil s) hp
    cases hp with
    | @cons _ v _ _ _ he hp =>
      by_cases hback : ∃ a b, p = a ++ b ∧ Walk edge v a s ∧ Walk edge s b t
      · obtain ⟨a, b, rfl, ha, hb⟩ := hback
        exact ⟨[], e :: a, b, s, rfl, by simp, nil s, cons he ha, hb⟩
      · obtain ⟨a, c, b, u, rfl, hc, ha, hcycle, hb⟩ := ih hp (U := U.erase s)
          (fun a b u heq ha hb => by
            have hu : u ≠ s := by
              rintro rfl
              exact hback ⟨a, b, heq, ha, hb⟩
            exact (List.mem_erase_of_ne hu).2 (hU (e :: a) b u (by rw [heq]; rfl) (cons he ha) hb))
          (by rw [List.length_erase_of_mem hs]; rw [List.length_cons] at hlen; omega)
        exact ⟨e :: a, c, b, u, rfl, hc, cons he ha, hcycle, hb⟩

/-- Where all other edges lower a rank, every cycle has an edge of the kind. -/
theorem exists_of_rank {P : ε → Prop} (rank : σ → Nat) (h : ∀ s e t, edge s e t → ¬ P e → rank t < rank s)
    {c : List ε} (hne : c ≠ []) (hc : Walk edge s c s) : ∃ e ∈ c, P e := by
  apply Classical.byContradiction
  intro hnot
  have hlower : ∀ {p : List ε} {s t : σ}, Walk edge s p t → (∀ e ∈ p, ¬ P e) → rank t + p.length ≤ rank s := by
    intro p s t hp hall
    induction hp with
    | nil => simp
    | @cons s t u e p he _ ih =>
      have := h s e t he (hall e (by simp))
      have := ih fun e he => hall e (by simp [he])
      rw [List.length_cons]
      omega
  have hle := hlower hc fun e he hP => hnot ⟨e, he, hP⟩
  have hpos := List.length_pos_iff.2 hne
  omega

/-- No walk leads from a state back to it where the edges are well-founded. -/
theorem not_closed_of_acc (h : Acc (fun t s => ∃ e, edge s e t) s) : ∀ c, c ≠ [] → ¬ Walk edge s c s := by
  induction h with
  | intro s _ ih =>
    intro c hc hw
    cases hw with
    | nil => exact hc rfl
    | @cons _ t _ e c he hw => exact ih t ⟨e, he⟩ (c ++ [e]) (by simp) (hw.snoc he)

end Walk
