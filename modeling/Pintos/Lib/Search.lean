import Mathlib.Order.Bounds.Basic
import Mathlib.Data.Set.Basic
import Mathlib.Algebra.Ring.Nat
import Mathlib.Algebra.Ring.Int.Defs

/-! # First-fit search over a window of naturals

A loop that tries `i, i + 1, …, i + k - 1` in turn and stops at the first candidate that passes
returns the least passing candidate of the window, or nothing when none passes. `IsFirst S r`
says that `r` is that answer for the set `S` of passing candidates.
-/

namespace Search
set_option autoImplicit false

/-- The candidates among `i, …, i + k - 1` that satisfy `P`. -/
def window (P : ℕ → Prop) (i k : ℕ) : Set ℕ := {x | i ≤ x ∧ x < i + k ∧ P x}

/-- `r` is the least element of `S`, or `none` when `S` is empty. -/
def IsFirst (S : Set ℕ) : Option ℕ → Prop
  | some x => IsLeast S x
  | none => S = ∅

variable {P : ℕ → Prop} {S T : Set ℕ} {r : Option ℕ}

theorem isFirst_window_zero (i : ℕ) : IsFirst (window P i 0) none := by
  ext x
  simp only [window, Set.mem_ofPred_eq, Set.mem_empty_iff_false, iff_false]
  omega

theorem isFirst_window_hit {i : ℕ} (hi : P i) (k : ℕ) : IsFirst (window P i (k + 1)) (some i) :=
  ⟨⟨le_rfl, by omega, hi⟩, fun _ hx => hx.1⟩

theorem IsFirst.window_miss {i k : ℕ} (hi : ¬P i) (h : IsFirst (window P (i + 1) k) r) :
    IsFirst (window P i (k + 1)) r := by
  have hw : window P i (k + 1) = window P (i + 1) k := by
    ext x
    simp only [window, Set.mem_ofPred_eq]
    constructor
    · rintro ⟨hlo, hhi, hx⟩
      rcases Nat.eq_or_lt_of_le hlo with rfl | hlt
      · exact absurd hx hi
      · exact ⟨hlt, by omega, hx⟩
    · rintro ⟨hlo, hhi, hx⟩
      exact ⟨by omega, by omega, hx⟩
  rw [hw]
  exact h

theorem IsFirst.congr (h : IsFirst S r) (hST : S = T) : IsFirst T r := hST ▸ h

theorem IsFirst.mem {x : ℕ} (h : IsFirst S (some x)) : x ∈ S := (show IsLeast S x from h).1

end Search
