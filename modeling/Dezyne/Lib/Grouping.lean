import Mathlib.Data.List.Basic
/-!
# Grouping by an equivalence

`groups` puts the elements of a list that are equivalent to each other in one
group, in the order of their first elements, each group in the order of the
list. Looking up the group of a key is filtering by the key: nothing is lost,
nothing occurs twice, and the order stays.
-/

namespace Grouping

variable {α β : Type*}

/-- An equivalence, as the tests of a program have it. -/
structure Equivalence (r : α → α → Bool) : Prop where
  refl : ∀ a, r a a
  comm : ∀ a b, r a b = r b a
  trans : ∀ {a b c}, r a b → r b c → r a c

/-- The members of the first group are taken out of the whole list. -/
def groups (r : α → α → Bool) : List α → List (List α)
  | [] => []
  | a :: as => (a :: as.filter (r · a)) :: groups r (as.filter (!r · a))
termination_by l => l.length
decreasing_by
  simp only [List.unattach_filter, List.unattach_attach, List.length_cons]
  exact Nat.lt_succ_of_le (List.length_filter_le _ as)

theorem groups_cons (r : α → α → Bool) (a : α) (as : List α) :
    groups r (a :: as) = (a :: as.filter (r · a)) :: groups r (as.filter (!r · a)) := by
  rw [groups]

/-- Grouping the images is grouping by the images. -/
theorem groups_map (r : β → β → Bool) (f : α → β) (l : List α) :
    groups r (l.map f) = (groups (fun a b => r (f a) (f b)) l).map (List.map f) := by
  fun_induction groups (fun a b => r (f a) (f b)) l with
  | case1 => rw [List.map_nil, groups, List.map_nil]
  | case2 a as ih =>
    simp only [List.unattach_filter, List.unattach_attach] at ih
    rw [List.map_cons, groups_cons, List.filter_map, List.filter_map, List.map_cons, List.map_cons]
    congr 1

/-- A test that holds of the members of one class, or of nothing. -/
def OfClass (r : α → α → Bool) (q : α → Bool) : Prop := ∀ a, q a → ∀ b, q b = r b a

/-- What `f` makes of a group whose first element passes the test. -/
def select (q : α → Bool) (f : List α → List β) : List α → List β
  | [] => []
  | a :: as => if q a then f (a :: as) else []

/-- Of the groups of a list the test selects one: what it selects of the list. -/
theorem flatMap_groups {r : α → α → Bool} (h : Equivalence r) {q : α → Bool} (hq : OfClass r q)
    (f : List α → List β) (l : List α) :
    (groups r l).flatMap (select q f) = select q f (l.filter q) := by
  fun_induction groups r l with
  | case1 => rfl
  | case2 a as ih =>
    simp only [List.unattach_filter, List.unattach_attach] at ih
    rw [List.flatMap_cons, ih, List.filter_filter]
    by_cases ha : q a
    · -- the first group is what passes the test, and nothing else does
      have hrest : as.filter (fun b => q b && !r b a) = [] := by
        refine List.filter_eq_nil_iff.2 fun b _ => ?_
        rw [hq a ha b]
        cases r b a <;> simp
      have hgroup : as.filter (r · a) = as.filter q := List.filter_congr fun b _ => (hq a ha b).symm
      rw [hrest, hgroup, List.filter_cons_of_pos ha, select, select, List.append_nil]
    · have hrest : as.filter (fun b => q b && !r b a) = as.filter q := by
        refine List.filter_congr fun b _ => ?_
        cases hb : q b with
        | false => rfl
        | true =>
          -- a member of the group of `a` would make `a` pass
          have hba : r b a = false := by
            rw [h.comm, ← hq b hb a]
            simpa using ha
          rw [hba]
          rfl
      rw [hrest, List.filter_cons_of_neg ha, select, if_neg ha, List.nil_append]

/-- The members of a group are equivalent to its first element, and every group has one. -/
theorem mem_groups {r : α → α → Bool} (h : Equivalence r) {l : List α} {g : List α} (hg : g ∈ groups r l) :
    ∃ a as, g = a :: as ∧ a ∈ l ∧ ∀ b ∈ g, r b a ∧ b ∈ l := by
  fun_induction groups r l with
  | case1 => cases hg
  | case2 a as ih =>
    simp only [List.unattach_filter, List.unattach_attach] at ih
    rcases List.mem_cons.1 hg with rfl | hg
    · refine ⟨a, _, rfl, by simp, fun b hb => ?_⟩
      rcases List.mem_cons.1 hb with rfl | hb
      · exact ⟨h.refl _, by simp⟩
      · obtain ⟨hm, hr⟩ := List.mem_filter.1 hb
        exact ⟨hr, by simp [hm]⟩
    · obtain ⟨b, bs, rfl, hb, hbs⟩ := ih hg
      refine ⟨b, bs, rfl, List.mem_cons_of_mem _ (List.mem_filter.1 hb).1, fun c hc => ?_⟩
      exact ⟨(hbs c hc).1, List.mem_cons_of_mem _ (List.mem_filter.1 (hbs c hc).2).1⟩

/-- The groups have, of every class, what the list has. -/
theorem filter_groups {r : α → α → Bool} (h : Equivalence r) {q : α → Bool} (hq : OfClass r q) (l : List α) :
    (groups r l).flatMap (List.filter q) = l.filter q := by
  have hselect : (groups r l).flatMap (List.filter q) = (groups r l).flatMap (select q id) := by
    apply List.flatMap_congr
    intro g hg
    obtain ⟨a, as, rfl, -, hmem⟩ := mem_groups h hg
    by_cases ha : q a
    · rw [select, if_pos ha]
      exact List.filter_eq_self.2 fun b hb => by rw [hq a ha b, (hmem b hb).1]
    · rw [select, if_neg ha, List.filter_eq_nil_iff]
      intro b hb hqb
      apply ha
      rw [hq b hqb a, h.comm, (hmem b hb).1]
  rw [hselect, flatMap_groups h hq]
  cases hl : l.filter q with
  | nil => rfl
  | cons a as =>
    have ha : q a := (List.mem_filter.1 (hl ▸ List.mem_cons_self : a ∈ l.filter q)).2
    rw [select, if_pos ha, id]

/-- No two groups are of one class. -/
theorem groups_pairwise {r : α → α → Bool} (h : Equivalence r) (l : List α) :
    (groups r l).Pairwise fun g g' => ∀ a ∈ g, ∀ b ∈ g', r a b = false := by
  fun_induction groups r l with
  | case1 => exact .nil
  | case2 a as ih =>
    simp only [List.unattach_filter, List.unattach_attach] at ih
    refine List.pairwise_cons.2 ⟨fun g hg x hx b hb => ?_, ih⟩
    have hba : r b a = false := by
      obtain ⟨_, _, -, -, hmem⟩ := mem_groups h hg
      simpa using (List.mem_filter.1 (hmem b hb).2).2
    have hxa : r x a := by
      rcases List.mem_cons.1 hx with rfl | hx
      · exact h.refl _
      · exact (List.mem_filter.1 hx).2
    rw [h.comm x b]
    by_contra hxb
    rw [h.trans (by simpa using hxb) hxa] at hba
    cases hba

end Grouping
