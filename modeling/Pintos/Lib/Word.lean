import Mathlib.Data.Nat.Bitwise
import Mathlib.Tactic.Ring
import Mathlib.Algebra.Ring.Nat
import Mathlib.Algebra.Ring.Int.Defs

/-! # Masks, shifts and quotients on words

A mask of `c` bits from bit `s` on keeps the bits of a number that a division by `2 ^ s` and a
remainder by `2 ^ c` keep. On `UInt32` the low masks, the high masks and the shifts read as
remainders and divisions of `toNat`, so that `omega` can reason about addresses built from them.
A quotient estimated with a truncated divisor is at most one too large (`div_le_div_add_one`).
`x &&& (x - 1)` turns off the lowest set bit of `x`, and stays in the range `[2 ^ k, 2 ^ (k + 1))`
of `x` unless `x` is `2 ^ k`.
-/

namespace Word
set_option autoImplicit false

theorem and_mask (x s c : ℕ) : x &&& (2 ^ c - 1) * 2 ^ s = x / 2 ^ s % 2 ^ c * 2 ^ s := by
  apply Nat.eq_of_testBit_eq
  intro i
  simp only [Nat.testBit_and, Nat.testBit_mul_two_pow, Nat.testBit_two_pow_sub_one,
    Nat.testBit_mod_two_pow, Nat.testBit_div_two_pow]
  by_cases h : s ≤ i
  · rw [Nat.sub_add_cancel h]
    simp [h, Bool.and_comm]
  · simp [h]

theorem or_and (a b c : UInt32) : (a ||| b) &&& c = a &&& c ||| b &&& c := by
  apply UInt32.toNat_inj.mp
  simp only [UInt32.toNat_and, UInt32.toNat_or, Nat.and_or_distrib_right]

theorem toNat_and_low (x : UInt32) {m : UInt32} (k : ℕ) (hm : m.toNat = 2 ^ k - 1) :
    (x &&& m).toNat = x.toNat % 2 ^ k := by
  rw [UInt32.toNat_and, hm, Nat.and_two_pow_sub_one_eq_mod]

theorem toNat_and_high (x : UInt32) {m : UInt32} (k : ℕ) (hk : k ≤ 32)
    (hm : m.toNat = (2 ^ (32 - k) - 1) * 2 ^ k) : (x &&& m).toNat = x.toNat / 2 ^ k * 2 ^ k := by
  rw [UInt32.toNat_and, hm, and_mask]
  congr 1
  apply Nat.mod_eq_of_lt
  have hx : x.toNat < 2 ^ k * 2 ^ (32 - k) := by
    rw [← Nat.pow_add, Nat.add_sub_cancel' hk]
    exact x.toNat_lt
  exact Nat.div_lt_of_lt_mul hx

theorem toNat_mid (x : UInt32) {m s : UInt32} (k c : ℕ) (hs : s.toNat = k) (hk : k < 32)
    (hm : m.toNat = (2 ^ c - 1) * 2 ^ k) : ((x &&& m) >>> s).toNat = x.toNat / 2 ^ k % 2 ^ c := by
  rw [UInt32.toNat_shiftRight, hs, Nat.mod_eq_of_lt hk, Nat.shiftRight_eq_div_pow,
    UInt32.toNat_and, hm, and_mask, Nat.mul_div_cancel _ (Nat.two_pow_pos k)]

theorem toNat_or_of_lt (x b : UInt32) (k : ℕ) (hx : x.toNat % 2 ^ k = 0) (hb : b.toNat < 2 ^ k) :
    (x ||| b).toNat = x.toNat + b.toNat := by
  have hx' : x.toNat = (x.toNat / 2 ^ k) <<< k := by
    rw [Nat.shiftLeft_eq, Nat.div_mul_cancel (Nat.dvd_of_mod_eq_zero hx)]
  rw [UInt32.toNat_or, hx', ← Nat.shiftLeft_add_eq_or_of_lt hb, ← hx']

theorem toNat_shiftRight (x : UInt32) {s : UInt32} (k : ℕ) (hs : s.toNat = k) (hk : k < 32) :
    (x >>> s).toNat = x.toNat / 2 ^ k := by
  rw [UInt32.toNat_shiftRight, hs, Nat.mod_eq_of_lt hk, Nat.shiftRight_eq_div_pow]

/-! ## Estimating a quotient

Dividing by some `V ≤ d` instead of `d` can only overestimate `n / d`, and by at most one when
the error `d - V`, counted once per unit of the quotient, stays below `V`. -/

theorem div_div_two_div_pow (n v k : ℕ) : n / 2 / v / 2 ^ k = n / (v * 2 ^ (k + 1)) := by
  rw [Nat.div_div_eq_div_mul, Nat.div_div_eq_div_mul, pow_succ]
  congr 1
  ring

theorem div_le_div_add_one {n d V : ℕ} (hV : 0 < V) (hVd : V ≤ d)
    (herr : (n / d + 1) * (d - V) ≤ V) : n / V ≤ n / d + 1 := by
  have hd : 0 < d := lt_of_lt_of_le hV hVd
  have hsplit : d * (n / d + 1) = (n / d + 1) * V + (n / d + 1) * (d - V) := by
    rw [← Nat.mul_add, Nat.add_sub_cancel' hVd, Nat.mul_comm]
  have hlt : n < V * (n / d + 2) := calc
    n < d * (n / d + 1) := Nat.lt_mul_div_succ n hd
    _ = (n / d + 1) * V + (n / d + 1) * (d - V) := hsplit
    _ ≤ (n / d + 1) * V + V := Nat.add_le_add_left herr _
    _ = V * (n / d + 2) := by ring
  exact Nat.le_of_lt_succ (Nat.div_lt_of_lt_mul hlt)

/-! ## The lowest set bit -/

theorem and_sub_one_lt {x : ℕ} (hx : 0 < x) : x &&& (x - 1) < x :=
  lt_of_le_of_lt Nat.and_le_right (by omega)

/-- Above `2 ^ k` and below `2 ^ (k + 1)`, both `x` and `x - 1` have bit `k`, and so does
`x &&& (x - 1)`. -/
theorem two_pow_le_and_sub_one {x k : ℕ} (hlo : 2 ^ k < x) (hhi : x < 2 ^ (k + 1)) :
    2 ^ k ≤ x &&& (x - 1) := by
  apply Nat.ge_two_pow_of_testBit
  rw [Nat.testBit_and, Nat.testBit_of_two_pow_le_and_two_pow_add_one_gt (le_of_lt hlo) hhi,
    Nat.testBit_of_two_pow_le_and_two_pow_add_one_gt (by omega) (by omega), Bool.and_self]

end Word
