import Mathlib.Logic.Equiv.Basic
import Mathlib.Data.List.Perm.Basic
import Mathlib.Data.List.Nodup
import Mathlib.Algebra.Ring.Nat
import Mathlib.Algebra.Ring.Int.Defs

/-! # Three-way comparators and shuffled buffers

A comparator returns a `strcmp`-type result: negative, zero or positive. `Lawful compare` says
it is the comparison of a total preorder: swapping the arguments swaps the sign, and `≤ 0` is
transitive. A list is `Sorted` when each element compares `≤ 0` with every later one.

A buffer is a function from indexes; `Shuffle b a n` says that `b` holds the first `n` cells of
`a` in some order and every other cell unchanged, which is what a sequence of swaps of cells
below `n` leaves (`Shuffle.swap`, `Shuffle.trans`). Its first `n` cells are then a permutation
of those of `a` (`Shuffle.perm`).
-/

namespace Compare
set_option autoImplicit false

variable {α : Type}

structure Lawful (compare : α → α → Int) : Prop where
  swap : ∀ a b, compare a b < 0 ↔ 0 < compare b a
  trans : ∀ a b c, compare a b ≤ 0 → compare b c ≤ 0 → compare a c ≤ 0

/-- Each element compares `≤ 0` with every element after it. -/
def Sorted (compare : α → α → Int) (l : List α) : Prop := l.Pairwise fun a b => compare a b ≤ 0

instance (compare : α → α → Int) (l : List α) : Decidable (Sorted compare l) :=
  inferInstanceAs (Decidable (List.Pairwise _ l))

section Lawful
variable {compare : α → α → Int} (h : Lawful compare) {a b c : α}
include h

theorem Lawful.self (a : α) : compare a a = 0 := by
  have hs := h.swap a a
  omega

theorem Lawful.nonpos_of_pos (hab : 0 < compare a b) : compare b a ≤ 0 :=
  Int.le_of_lt ((h.swap b a).mpr hab)

theorem Lawful.nonneg_of_nonpos (hba : compare b a ≤ 0) : 0 ≤ compare a b := by
  have hs := h.swap a b
  omega

theorem Lawful.nonpos_of_nonneg (hab : 0 ≤ compare a b) : compare b a ≤ 0 := by
  have hs := h.swap a b
  omega

theorem Lawful.neg_of_neg_of_nonpos (hab : compare a b < 0) (hbc : compare b c ≤ 0) :
    compare a c < 0 := by
  apply Int.not_le.mp
  intro hac
  have hca : compare c a ≤ 0 := h.nonpos_of_nonneg hac
  have hba : compare b a ≤ 0 := h.trans b c a hbc hca
  have := h.nonneg_of_nonpos hba
  omega

theorem Lawful.pos_of_nonpos_of_pos (hcb : compare c b ≤ 0) (hab : 0 < compare a b) :
    0 < compare a c := by
  apply Int.not_le.mp
  intro hac
  have := h.trans a c b hac hcb
  omega

end Lawful

theorem sorted_map_range_iff {compare : α → α → Int} {e : Nat → α} {n : Nat} :
    Sorted compare ((List.range n).map e) ↔ ∀ i j, i < j → j < n → compare (e i) (e j) ≤ 0 := by
  rw [Sorted, List.pairwise_iff_getElem]
  constructor
  · intro hs i j hij hj
    have := hs i j (by simp; omega) (by simp; omega) hij
    simpa using this
  · intro hs i j hi hj hij
    simp only [List.length_map, List.length_range] at hi hj
    simpa using hs i j hij hj

/-! ## Shuffles of a buffer's first cells -/

/-- `b` holds the first `n` cells of `a` in some order, and every other cell of `a`. -/
def Shuffle (b a : Nat → α) (n : Nat) : Prop :=
  ∃ σ : Equiv.Perm Nat, (∀ x, n ≤ x → σ x = x) ∧ b = a ∘ σ

theorem lt_of_fixes {σ : Equiv.Perm Nat} {n x : Nat} (hσ : ∀ x, n ≤ x → σ x = x) (hx : x < n) :
    σ x < n := by
  apply Nat.lt_of_not_le
  intro hle
  have hfix : σ (σ x) = σ x := hσ _ hle
  have := σ.injective hfix
  omega

theorem symm_fixes {σ : Equiv.Perm Nat} {n : Nat} (hσ : ∀ x, n ≤ x → σ x = x) :
    ∀ x, n ≤ x → σ.symm x = x := by
  intro x hx
  rw [Equiv.symm_apply_eq]
  exact (hσ x hx).symm

namespace Shuffle
variable {a b c : Nat → α} {n : Nat}

theorem refl (a : Nat → α) (n : Nat) : Shuffle a a n := ⟨Equiv.refl _, fun _ _ => rfl, rfl⟩

theorem trans (hcb : Shuffle c b n) (hba : Shuffle b a n) : Shuffle c a n := by
  obtain ⟨τ, hτ, rfl⟩ := hcb
  obtain ⟨σ, hσ, rfl⟩ := hba
  refine ⟨τ.trans σ, fun x hx => ?_, rfl⟩
  rw [Equiv.trans_apply, hτ x hx, hσ x hx]

theorem mono {m : Nat} (hba : Shuffle b a n) (hnm : n ≤ m) : Shuffle b a m := by
  obtain ⟨σ, hσ, rfl⟩ := hba
  exact ⟨σ, fun x hx => hσ x (Nat.le_trans hnm hx), rfl⟩

theorem swap {x y : Nat} (hx : x < n) (hy : y < n) : Shuffle (a ∘ Equiv.swap x y) a n :=
  ⟨Equiv.swap x y, fun z hz => Equiv.swap_apply_of_ne_of_ne (by omega) (by omega), rfl⟩

theorem eq_of_le (hba : Shuffle b a n) {x : Nat} (hx : n ≤ x) : b x = a x := by
  obtain ⟨σ, hσ, rfl⟩ := hba
  rw [Function.comp_apply, hσ x hx]

theorem exists_eq (hba : Shuffle b a n) {x : Nat} (hx : x < n) : ∃ y < n, b x = a y := by
  obtain ⟨σ, hσ, rfl⟩ := hba
  exact ⟨σ x, lt_of_fixes hσ hx, rfl⟩

theorem perm (hba : Shuffle b a n) : List.Perm ((List.range n).map b) ((List.range n).map a) := by
  obtain ⟨σ, hσ, rfl⟩ := hba
  have hrange : List.Perm ((List.range n).map σ) (List.range n) := by
    rw [List.perm_ext_iff_of_nodup (List.nodup_range.map σ.injective) List.nodup_range]
    intro x
    simp only [List.mem_map, List.mem_range]
    constructor
    · rintro ⟨y, hy, rfl⟩
      exact lt_of_fixes hσ hy
    · intro hx
      exact ⟨σ.symm x, lt_of_fixes (symm_fixes hσ) hx, σ.apply_symm_apply x⟩
  rw [← List.map_map]
  exact hrange.map a

end Shuffle

end Compare
