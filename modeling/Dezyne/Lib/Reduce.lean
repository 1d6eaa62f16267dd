import Mathlib.Data.List.Basic
/-!
# `reduce`

The `reduce` of SRFI-1: a left fold over the tail that starts at the head, the
next element being the first argument. A property both arguments pass on holds
of the result, and a map to truth values that turns the operation into a
conjunction (or disjunction) turns the reduction into `all` (or `any`).
-/

namespace Reduce

variable {α : Type*}

def reduce (f : α → α → α) (init : α) : List α → α
  | [] => init
  | a :: as => as.foldl (fun acc e => f e acc) a

@[simp] theorem reduce_nil (f : α → α → α) (init : α) : reduce f init [] = init := rfl
@[simp] theorem reduce_single (f : α → α → α) (init a : α) : reduce f init [a] = a := rfl

theorem foldl_closed {P : α → Prop} {f : α → α → α} (hf : ∀ a b, P a → P b → P (f a b)) (as : List α) :
    ∀ acc, P acc → (∀ a ∈ as, P a) → P (as.foldl (fun acc e => f e acc) acc) := by
  induction as with
  | nil => exact fun _ h _ => h
  | cons a as ih =>
    intro acc h hs
    exact ih _ (hf a acc (hs a (by simp)) h) fun b hb => hs b (by simp [hb])

theorem reduce_closed {P : α → Prop} {f : α → α → α} {init : α} (hf : ∀ a b, P a → P b → P (f a b))
    (hi : P init) {l : List α} (h : ∀ a ∈ l, P a) : P (reduce f init l) := by
  cases l with
  | nil => exact hi
  | cons a as => exact foldl_closed hf as a (h a (by simp)) fun b hb => h b (by simp [hb])

section
variable {f : α → α → α} {init : α} {φ : α → Bool}

theorem reduce_all (hf : ∀ a b, φ (f a b) = (φ a && φ b)) (hi : φ init = true) (l : List α) :
    φ (reduce f init l) = l.all φ := by
  have fold : ∀ (as : List α) acc, φ (as.foldl (fun acc e => f e acc) acc) = (φ acc && as.all φ) := by
    intro as
    induction as with
    | nil => simp
    | cons a as ih => intro acc; simp [ih, hf, Bool.and_left_comm, Bool.and_assoc]
  cases l with
  | nil => simpa using hi
  | cons a as => simp [reduce, fold]

theorem reduce_any (hf : ∀ a b, φ (f a b) = (φ a || φ b)) (hi : φ init = false) (l : List α) :
    φ (reduce f init l) = l.any φ := by
  have hnot : ∀ a b, (!φ (f a b)) = (!φ a && !φ b) := fun a b => by rw [hf, Bool.not_or]
  have hinit : (!φ init) = true := by rw [hi, Bool.not_false]
  have hall := @reduce_all _ f init (fun a => !φ a) hnot hinit l
  rw [← Bool.not_not (φ _), hall, List.not_all_eq_any_not]
  simp

end

end Reduce
