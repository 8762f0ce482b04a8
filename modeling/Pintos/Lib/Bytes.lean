import Mathlib.Logic.Function.Basic
import Mathlib.Algebra.Ring.Nat
import Mathlib.Algebra.Ring.Int.Defs

/-! # Ranges of a buffer

A buffer is a function from addresses. `copy dst d src s n` is `dst` with its `n` cells from
`d` on replaced by those of `src` from `s` on, which is what `memcpy` does between two buffers
that do not overlap. The lemmas say how copies compose: one after the next, a copy read back
from a copy, and a read-modify-write of a block.
-/

namespace Bytes
set_option autoImplicit false

variable {α : Type}

def copy (dst : Nat → α) (d : Nat) (src : Nat → α) (s n : Nat) : Nat → α :=
  fun x => if d ≤ x ∧ x < d + n then src (s + (x - d)) else dst x

@[simp] theorem copy_zero (dst src : Nat → α) (d s : Nat) : copy dst d src s 0 = dst := by
  funext x
  exact if_neg (by omega)

section
variable (dst src : Nat → α) {d s n x : Nat}

theorem copy_of_mem (h₁ : d ≤ x) (h₂ : x < d + n) : copy dst d src s n x = src (s + (x - d)) :=
  if_pos ⟨h₁, h₂⟩

theorem copy_of_not_mem (h : x < d ∨ d + n ≤ x) : copy dst d src s n x = dst x :=
  if_neg (by omega)

end

theorem update_copy_end (dst src : Nat → α) (d s n : Nat) :
    Function.update (copy dst d src s n) (d + n) (src (s + n)) = copy dst d src s (n + 1) := by
  funext x
  by_cases hx : x = d + n
  · subst hx
    rw [Function.update_self, copy_of_mem _ _ (Nat.le_add_right d n) (by omega)]
    congr 1
    omega
  · rw [Function.update_of_ne hx]
    by_cases hy : d ≤ x ∧ x < d + n
    · rw [copy_of_mem _ _ hy.1 hy.2, copy_of_mem _ _ hy.1 (by omega)]
    · rw [copy_of_not_mem _ _ (by omega), copy_of_not_mem _ _ (by omega)]

theorem update_copy_front (dst src : Nat → α) (d s n : Nat) :
    Function.update (copy dst (d + 1) src (s + 1) n) d (src s) = copy dst d src s (n + 1) := by
  funext x
  by_cases hx : x = d
  · subst hx
    rw [Function.update_self, copy_of_mem _ _ (Nat.le_refl _) (by omega), Nat.sub_self, Nat.add_zero]
  · rw [Function.update_of_ne hx]
    by_cases hy : d + 1 ≤ x ∧ x < d + 1 + n
    · rw [copy_of_mem _ _ hy.1 hy.2, copy_of_mem _ _ (by omega) (by omega)]
      congr 1
      omega
    · rw [copy_of_not_mem _ _ (by omega), copy_of_not_mem _ _ (by omega)]

theorem copy_append (dst src : Nat → α) (d s n m : Nat) :
    copy (copy dst d src s n) (d + n) src (s + n) m = copy dst d src s (n + m) := by
  funext x
  by_cases hx : d + n ≤ x ∧ x < d + n + m
  · rw [copy_of_mem _ _ hx.1 hx.2, copy_of_mem _ _ (by omega) (by omega)]
    congr 1
    omega
  · rw [copy_of_not_mem _ _ (by omega)]
    by_cases hy : d ≤ x ∧ x < d + n
    · rw [copy_of_mem _ _ hy.1 hy.2, copy_of_mem _ _ hy.1 (by omega)]
    · rw [copy_of_not_mem _ _ (by omega), copy_of_not_mem _ _ (by omega)]

theorem copy_copy_src (dst b src : Nat → α) {d e s t n N : Nat} (h₁ : e ≤ s)
    (h₂ : s + n ≤ e + N) :
    copy dst d (copy b e src t N) s n = copy dst d src (t + (s - e)) n := by
  funext x
  by_cases hx : d ≤ x ∧ x < d + n
  · rw [copy_of_mem _ _ hx.1 hx.2, copy_of_mem _ _ hx.1 hx.2, copy_of_mem _ _ (by omega) (by omega)]
    congr 1
    omega
  · rw [copy_of_not_mem _ _ (by omega), copy_of_not_mem _ _ (by omega)]

/-- A block of `N` cells read into `b`, changed in `n` cells from `o`, and written back: only
those cells change. -/
theorem copy_read_modify_write (blk b src : Nat → α) {o s n N : Nat} (h : o + n ≤ N) :
    copy blk 0 (copy (copy b 0 blk 0 N) o src s n) 0 N = copy blk o src s n := by
  funext x
  by_cases hx : x < N
  · rw [copy_of_mem _ _ (Nat.zero_le x) (by omega), Nat.sub_zero, Nat.zero_add]
    by_cases hy : o ≤ x ∧ x < o + n
    · rw [copy_of_mem _ _ hy.1 hy.2, copy_of_mem _ _ hy.1 hy.2]
    · rw [copy_of_not_mem (copy b 0 blk 0 N) src (by omega), copy_of_not_mem blk src (by omega),
        copy_of_mem b blk (Nat.zero_le x) (by omega), Nat.sub_zero, Nat.zero_add]
  · rw [copy_of_not_mem _ _ (by omega), copy_of_not_mem _ _ (by omega)]

theorem foldl_apply_of_forall {β : Type} (f : (Nat → α) → β → Nat → α) {x : Nat} :
    ∀ (l : List β), (∀ b ∈ l, ∀ m, f m b x = m x) → ∀ m, l.foldl f m x = m x
  | [], _, _ => rfl
  | b :: l, h, m => by
    rw [List.foldl_cons, foldl_apply_of_forall f l (fun b' hb' => h b' (List.mem_cons_of_mem b hb')),
      h b List.mem_cons_self]

end Bytes
