import Mathlib.Data.Nat.ModEq
import Mathlib.Algebra.Ring.Nat
import Mathlib.Algebra.Ring.Int.Defs

/-! # Ring buffers

`contents buf N tail count` reads `count` cells of a buffer of `N` cells from `tail` on,
wrapping around at `N`. Writing the cell after the last one and counting one more appends to
the contents, and moving `tail` one cell on drops their first element.
-/

namespace Ring
set_option autoImplicit false

variable {α : Type*}

def contents (buf : ℕ → α) (N tail : ℕ) : ℕ → List α
  | 0 => []
  | count + 1 => contents buf N tail count ++ [buf ((tail + count) % N)]

variable {buf : ℕ → α} {N tail : ℕ}

@[simp] theorem length_contents (count : ℕ) : (contents buf N tail count).length = count := by
  induction count with
  | zero => rfl
  | succ c ih => simp [contents, ih]

theorem contents_ne_nil {count : ℕ} (h : count ≠ 0) : contents buf N tail count ≠ [] := by
  intro hnil
  have := congrArg List.length hnil
  simp only [length_contents, List.length_nil] at this
  exact h this

theorem mod_ne_of_lt {i count : ℕ} (hi : i < count) (hc : count < N) :
    (tail + i) % N ≠ (tail + count) % N := by
  intro h
  have hmod : i ≡ count [MOD N] := Nat.ModEq.add_left_cancel' tail h
  rw [Nat.ModEq, Nat.mod_eq_of_lt (by omega), Nat.mod_eq_of_lt hc] at hmod
  omega

theorem contents_update_of_le {count : ℕ} (x : α) (j : ℕ) (hj : count ≤ j) (hc : j < N) :
    contents (Function.update buf ((tail + j) % N) x) N tail count = contents buf N tail count := by
  induction count with
  | zero => rfl
  | succ c ih =>
    rw [contents, contents, ih (by omega),
      Function.update_of_ne (mod_ne_of_lt (by omega) hc)]

theorem contents_push {count : ℕ} (hc : count < N) (x : α) :
    contents (Function.update buf ((tail + count) % N) x) N tail (count + 1) =
      contents buf N tail count ++ [x] := by
  rw [contents, contents_update_of_le x count (Nat.le_refl _) hc, Function.update_self]

theorem contents_pop (count : ℕ) :
    contents buf N ((tail + 1) % N) count = (contents buf N tail (count + 1)).tail := by
  induction count with
  | zero => rfl
  | succ c ih =>
    have hne : contents buf N tail (c + 1) ≠ [] := contents_ne_nil (Nat.succ_ne_zero c)
    rw [contents, ih, show contents buf N tail (c + 1 + 1) =
      contents buf N tail (c + 1) ++ [buf ((tail + (c + 1)) % N)] from rfl,
      List.tail_append_of_ne_nil hne, Nat.mod_add_mod, Nat.add_right_comm tail 1 c,
      Nat.add_assoc tail c 1]

theorem head_contents {count : ℕ} (h : count ≠ 0) :
    (contents buf N tail count).head? = some (buf (tail % N)) := by
  induction count with
  | zero => exact absurd rfl h
  | succ c ih =>
    rcases Nat.eq_zero_or_pos c with rfl | hc
    · rfl
    · rw [contents, List.head?_append, ih (Nat.pos_iff_ne_zero.mp hc)]
      rfl

end Ring
