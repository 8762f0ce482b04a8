import Mathlib.Data.List.Basic
import Mathlib.Data.List.Perm.Basic
import Mathlib.Data.List.Nodup
import Mathlib.Algebra.Ring.Nat
import Mathlib.Algebra.Ring.Int.Defs

/-! # Arrays of buckets

An array of buckets as a list of lists: pushing an element to the front of the bucket that a
function picks, and erasing an element from every bucket. A run of pushes leaves in each bucket
the elements sent there, latest first, and the buckets together hold a permutation of what they
held and what was pushed.
-/

namespace Buckets
set_option autoImplicit false

variable {α : Type} {bs : List (List α)}

@[simp] theorem getD_replicate_nil (n i : ℕ) : (List.replicate n ([] : List α)).getD i [] = [] := by
  rw [List.getD_eq_getElem?_getD, List.getElem?_replicate]
  split <;> rfl

theorem getD_modify_cons {i : ℕ} (hi : i < bs.length) (e : α) (j : ℕ) :
    (bs.modify i (e :: ·)).getD j [] = if i = j then e :: bs.getD j [] else bs.getD j [] := by
  simp only [List.getD_eq_getElem?_getD, List.getElem?_modify]
  by_cases hij : i = j
  · subst hij
    simp [List.getElem?_eq_getElem hi]
  · cases bs[j]? <;> simp [hij]

theorem flatten_modify_cons {i : ℕ} (hi : i < bs.length) (e : α) :
    (bs.modify i (e :: ·)).flatten.Perm (e :: bs.flatten) := by
  rw [List.modify_eq_take_cons_drop hi]
  conv_rhs => rw [← List.take_append_drop i bs, List.drop_eq_getElem_cons hi]
  simp only [List.flatten_append, List.flatten_cons]
  exact List.perm_middle

theorem length_foldl_modify (f : α → ℕ) (l : List α) :
    ∀ bs : List (List α), (l.foldl (fun bs e => bs.modify (f e) (e :: ·)) bs).length = bs.length := by
  induction l with
  | nil => intro bs; rfl
  | cons e l ih => intro bs; rw [List.foldl_cons, ih, List.length_modify]

theorem getD_foldl_modify (f : α → ℕ) (l : List α) :
    ∀ bs : List (List α), (∀ e ∈ l, f e < bs.length) → ∀ j,
      (l.foldl (fun bs e => bs.modify (f e) (e :: ·)) bs).getD j [] =
        (l.filter (f · = j)).reverse ++ bs.getD j [] := by
  induction l with
  | nil => intro bs _ j; rfl
  | cons e l ih =>
    intro bs hf j
    rw [List.foldl_cons, ih _ (fun x hx => by rw [List.length_modify]; exact hf x (List.mem_cons_of_mem e hx)),
      getD_modify_cons (hf e List.mem_cons_self)]
    by_cases hj : f e = j
    · simp [hj]
    · simp [hj]

theorem flatten_foldl_modify (f : α → ℕ) (l : List α) :
    ∀ bs : List (List α), (∀ e ∈ l, f e < bs.length) →
      (l.foldl (fun bs e => bs.modify (f e) (e :: ·)) bs).flatten.Perm (l ++ bs.flatten) := by
  induction l with
  | nil => intro bs _; rfl
  | cons e l ih =>
    intro bs hf
    rw [List.foldl_cons]
    refine (ih _ fun x hx => by rw [List.length_modify]; exact hf x (List.mem_cons_of_mem e hx)).trans ?_
    refine ((flatten_modify_cons (hf e List.mem_cons_self) e).append_left l).trans ?_
    exact List.perm_middle

theorem flatten_map_erase [DecidableEq α] (x : α) :
    ∀ bs : List (List α), bs.flatten.Nodup → (bs.map (·.erase x)).flatten = bs.flatten.erase x := by
  intro bs
  induction bs with
  | nil => intro _; rfl
  | cons b bs ih =>
    intro hnd
    rw [List.flatten_cons] at hnd
    simp only [List.map_cons, List.flatten_cons]
    by_cases hx : x ∈ b
    · have hout : x ∉ bs.flatten := fun h => List.disjoint_of_nodup_append hnd hx h
      rw [List.erase_append_left _ hx]
      congr 1
      rw [List.map_congr_left fun c hc => List.erase_of_not_mem fun h => hout (List.mem_flatten_of_mem hc h),
        List.map_id']
    · rw [List.erase_append_right _ hx, List.erase_of_not_mem hx, ih (List.Nodup.of_append_right hnd)]

end Buckets
