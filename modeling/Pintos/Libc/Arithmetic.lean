import Pintos.Lib.Word
import Mathlib.Data.Int.Init
import Mathlib.Data.UInt

/-! # `lib/arithmetic.c`: 64-bit division on a 32-bit machine

GCC calls `__udivdi3`, `__umoddi3`, `__divdi3` and `__moddi3` for 64-bit `/` and `%`. They rest
on `udiv64`, which either divides a 32-bit divisor into the two words in turn or normalises a
longer divisor with `nlz` and corrects a `DIVL` estimate once (Hacker's Delight). The `DIVL`
instruction is modelled with its divide error: `divl` returns `none` where the CPU traps.

* `div64_entry_points`: the quotients are exact, and no `divl` traps, for every divisor but `0`
  (and the overflowing `INT64_MIN / -1`); `umod64` returns a `uint32_t` and `smod64` an
  `int32_t`, so the remainders come back truncated to 32 bits.
* `moddi3_drops_high_bits`: a remainder of 33 bits that comes back as `0`.
-/

namespace Pintos.Arith
set_option autoImplicit false

/-- `divl (n, d)`: `DIVL` divides `edx:eax = n1:n0` by `d` and leaves the quotient in `eax`; it
raises a divide error (`none`) when `d` is zero or the quotient needs more than 32 bits. -/
def divl (n : UInt64) (d : UInt32) : Option UInt32 :=
  let n1 : UInt32 := (n >>> 32).toUInt32
  let n0 : UInt32 := n.toUInt32
  let q := (n1.toNat * 2 ^ 32 + n0.toNat) / d.toNat
  if d = 0 ∨ 2 ^ 32 ≤ q then none else some (UInt32.ofNat q)

/-- One test of `nlz`: if `x <= bound`, count `k` more zeros and shift them out. -/
def nlzStep (bound k : UInt32) (st : Nat × UInt32) : Nat × UInt32 :=
  if st.2 ≤ bound then (st.1 + k.toNat, st.2 <<< k) else st

/-- `nlz (x)`: the number of leading zero bits of a nonzero `x`. -/
def nlz (x : UInt32) : Nat :=
  let st := nlzStep 0x0000FFFF 16 (0, x)
  let st := nlzStep 0x00FFFFFF 8 st
  let st := nlzStep 0x0FFFFFFF 4 st
  let st := nlzStep 0x3FFFFFFF 2 st
  if st.2 ≤ 0x7FFFFFFF then st.1 + 1 else st.1

/-- `udiv64 (n, d)`: a divisor of 32 bits divides the high and the low word in turn; a longer one
is normalised by `nlz` and the quotient estimated from its high word, then corrected once. -/
def udiv64 (n d : UInt64) : Option UInt64 :=
  if d >>> 32 = 0 then
    let b : UInt64 := (1 : UInt64) <<< 32
    let n1 : UInt32 := (n >>> 32).toUInt32
    let n0 : UInt32 := n.toUInt32
    let d0 : UInt32 := d.toUInt32
    do
      let q ← divl (b * (n1 % d0).toUInt64 + n0.toUInt64) d0
      return q.toUInt64 + b * (n1 / d0).toUInt64
  else if n < d then some 0
  else
    let d1 : UInt32 := (d >>> 32).toUInt32
    let s := nlz d1
    do
      let q ← divl (n >>> 1) ((d <<< s.toUInt64) >>> 32).toUInt32
      let q : UInt64 := q.toUInt64 >>> (31 - s).toUInt64
      return if n - (q - 1) * d < d then q - 1 else q

/-- `umod64 (n, d)`, which returns a `uint32_t`. -/
def umod64 (n d : UInt64) : Option UInt32 := do
  let q ← udiv64 n d
  return (n - d * q).toUInt32

/-- `sdiv64 (n, d)`: the quotient of the absolute values, negated when the signs differ. -/
def sdiv64 (n d : Int64) : Option Int64 := do
  let nAbs : UInt64 := if n ≥ 0 then n.toUInt64 else -n.toUInt64
  let dAbs : UInt64 := if d ≥ 0 then d.toUInt64 else -d.toUInt64
  let qAbs ← udiv64 nAbs dAbs
  return if (n < 0) = (d < 0) then qAbs.toInt64 else -qAbs.toInt64

/-- `smod64 (n, d)`, which returns an `int32_t`. -/
def smod64 (n d : Int64) : Option Int32 := do
  let q ← sdiv64 n d
  return (n - d * q).toInt32

def divdi3 (n d : Int64) : Option Int64 := sdiv64 n d
def moddi3 (n d : Int64) : Option Int64 := (smod64 n d).map Int32.toInt64
def udivdi3 (n d : UInt64) : Option UInt64 := udiv64 n d
def umoddi3 (n d : UInt64) : Option UInt64 := (umod64 n d).map UInt32.toUInt64

/-! ## `divl` and `nlz` -/

theorem split_words (n : UInt64) :
    (n >>> 32).toUInt32.toNat * 2 ^ 32 + n.toUInt32.toNat = n.toNat := by
  have := n.toNat_lt
  have h32 : (32 : UInt64).toNat % 64 = 32 := rfl
  simp only [UInt64.toNat_toUInt32, UInt64.toNat_shiftRight, h32, Nat.shiftRight_eq_div_pow]
  omega

theorem divl_eq (n : UInt64) (d : UInt32) :
    divl n d = if d = 0 ∨ 2 ^ 32 ≤ n.toNat / d.toNat then none
      else some (UInt32.ofNat (n.toNat / d.toNat)) := by
  simp only [divl, split_words]

theorem divl_of_lt {n : UInt64} {d : UInt32} (hd : d ≠ 0) (hq : n.toNat / d.toNat < 2 ^ 32) :
    ∃ q, divl n d = some q ∧ q.toNat = n.toNat / d.toNat := by
  refine ⟨UInt32.ofNat (n.toNat / d.toNat), ?_, ?_⟩
  · rw [divl_eq, if_neg (not_or.mpr ⟨hd, Nat.not_le.mpr hq⟩)]
  · rw [UInt32.toNat_ofNat', Nat.mod_eq_of_lt hq]

/-- One test of `nlz` for `k = j` bits: on a word that has at least `32 - 2 j` significant bits,
the word afterwards has at least `32 - j`, and is still `x` shifted by the count. -/
theorem nlzStep_spec {b k : UInt32} {j : ℕ} (hk : k.toNat = j) (hj : 2 * j ≤ 32)
    (hb : b.toNat = 2 ^ (32 - j) - 1) {x : UInt32} {st : ℕ × UInt32}
    (hy : st.2.toNat = x.toNat * 2 ^ st.1) (hlow : 2 ^ (32 - 2 * j) ≤ st.2.toNat) :
    (nlzStep b k st).2.toNat = x.toNat * 2 ^ (nlzStep b k st).1 ∧
      2 ^ (32 - j) ≤ (nlzStep b k st).2.toNat := by
  have hpos : 0 < 2 ^ (32 - j) := Nat.two_pow_pos _
  by_cases hle : st.2 ≤ b
  · -- the top `j` bits are clear: shift them out
    have hlt : st.2.toNat < 2 ^ (32 - j) := by
      rw [UInt32.le_iff_toNat_le, hb] at hle
      omega
    have hshift : (st.2 <<< k).toNat = st.2.toNat * 2 ^ j := by
      rw [UInt32.toNat_shiftLeft, hk, Nat.mod_eq_of_lt (by omega : j < 32), Nat.shiftLeft_eq]
      apply Nat.mod_eq_of_lt
      calc st.2.toNat * 2 ^ j < 2 ^ (32 - j) * 2 ^ j :=
            Nat.mul_lt_mul_of_pos_right hlt (Nat.two_pow_pos j)
        _ = 2 ^ 32 := by rw [← pow_add, Nat.sub_add_cancel (by omega)]
    simp only [nlzStep, hle, if_true, hshift, hk]
    refine ⟨by rw [hy, pow_add, Nat.mul_assoc], ?_⟩
    calc 2 ^ (32 - j) = 2 ^ (32 - 2 * j) * 2 ^ j := by rw [← pow_add]; congr 1; omega
      _ ≤ st.2.toNat * 2 ^ j := Nat.mul_le_mul_right _ hlow
  · -- a bit among the top `j` is set
    simp only [nlzStep, hle, if_false]
    rw [UInt32.le_iff_toNat_le, hb] at hle
    exact ⟨hy, by omega⟩

theorem nlz_spec {x : UInt32} (hx : x ≠ 0) :
    nlz x ≤ 31 ∧ 2 ^ 31 ≤ x.toNat * 2 ^ nlz x ∧ x.toNat * 2 ^ nlz x < 2 ^ 32 := by
  have hx' : 1 ≤ x.toNat := by
    rcases Nat.eq_zero_or_pos x.toNat with h | h
    · exact absurd (UInt32.toNat_inj.mp (h.trans UInt32.toNat_zero.symm)) hx
    · exact h
  obtain ⟨h1, l1⟩ := @nlzStep_spec 0x0000FFFF 16 16 rfl (by omega) rfl x (0, x) (by simp)
    (by simpa using hx')
  obtain ⟨h2, l2⟩ := nlzStep_spec (b := 0x00FFFFFF) (k := 8) (j := 8) rfl (by omega) rfl h1 l1
  obtain ⟨h3, l3⟩ := nlzStep_spec (b := 0x0FFFFFFF) (k := 4) (j := 4) rfl (by omega) rfl h2 l2
  obtain ⟨h4, l4⟩ := nlzStep_spec (b := 0x3FFFFFFF) (k := 2) (j := 2) rfl (by omega) rfl h3 l3
  have hmain : 2 ^ 31 ≤ x.toNat * 2 ^ nlz x ∧ x.toNat * 2 ^ nlz x < 2 ^ 32 := by
    dsimp only [nlz]
    generalize nlzStep 0x3FFFFFFF 2 (nlzStep 0x0FFFFFFF 4 (nlzStep 0x00FFFFFF 8
      (nlzStep 0x0000FFFF 16 (0, x)))) = st at h4 l4 ⊢
    have hy := st.2.toNat_lt
    -- the last test counts one more zero without shifting it out
    by_cases hle : st.2 ≤ 0x7FFFFFFF
    · rw [if_pos hle, show x.toNat * 2 ^ (st.1 + 1) = st.2.toNat * 2 by
        rw [h4, pow_succ, Nat.mul_assoc]]
      simp only [UInt32.le_iff_toNat_le, UInt32.toNat_ofNat] at hle
      omega
    · rw [if_neg hle, ← h4]
      simp only [UInt32.le_iff_toNat_le, UInt32.toNat_ofNat] at hle
      omega
  refine ⟨?_, hmain⟩
  by_contra hgt
  have : 2 ^ 32 ≤ x.toNat * 2 ^ nlz x := calc
    2 ^ 32 ≤ 1 * 2 ^ nlz x := by rw [Nat.one_mul]; exact Nat.pow_le_pow_right (by omega) (by omega)
    _ ≤ x.toNat * 2 ^ nlz x := Nat.mul_le_mul_right _ hx'
  omega

/-! ## `udiv64` -/

theorem toNat_high (n : UInt64) : (n >>> 32).toUInt32.toNat = n.toNat / 2 ^ 32 := by
  have := n.toNat_lt
  have h32 : (32 : UInt64).toNat % 64 = 32 := rfl
  simp only [UInt64.toNat_toUInt32, UInt64.toNat_shiftRight, h32, Nat.shiftRight_eq_div_pow]
  omega

theorem udiv64_short {n d : UInt64} (hd : d ≠ 0) (hs : d >>> 32 = 0) :
    udiv64 n d = some (n / d) := by
  have hN := n.toNat_lt
  have hD : d.toNat < 2 ^ 32 := by
    have := congrArg UInt64.toNat hs
    rw [UInt64.toNat_shiftRight, Nat.shiftRight_eq_div_pow] at this
    simpa using this
  have hD0 : 0 < d.toNat := Nat.pos_of_ne_zero fun h => hd (UInt64.toNat_inj.mp (by simpa using h))
  have hd0 : d.toUInt32.toNat = d.toNat := by rw [UInt64.toNat_toUInt32, Nat.mod_eq_of_lt hD]
  have hd0ne : d.toUInt32 ≠ 0 := fun h => by
    rw [h, UInt32.toNat_zero] at hd0
    omega
  have hr : (n.toNat / 2 ^ 32 % d.toNat) < d.toNat := Nat.mod_lt _ hD0
  have hX : ((1 : UInt64) <<< 32 * ((n >>> 32).toUInt32 % d.toUInt32).toUInt64 +
      n.toUInt32.toUInt64).toNat = 2 ^ 32 * (n.toNat / 2 ^ 32 % d.toNat) + n.toNat % 2 ^ 32 := by
    have hb : ((1 : UInt64) <<< 32).toNat = 2 ^ 32 := rfl
    rw [UInt64.toNat_add, UInt64.toNat_mul, hb, UInt32.toNat_toUInt64, UInt32.toNat_mod, toNat_high,
      hd0, UInt32.toNat_toUInt64, UInt64.toNat_toUInt32]
    omega
  obtain ⟨q, hdivl, hq⟩ := divl_of_lt hd0ne (n := (1 : UInt64) <<< 32 *
    ((n >>> 32).toUInt32 % d.toUInt32).toUInt64 + n.toUInt32.toUInt64)
    (by rw [hX, hd0]; exact Nat.div_lt_of_lt_mul (by omega))
  -- `n / d` is the quotient of that dividend plus `b` times the high word's quotient
  have hsplit : n.toNat = (2 ^ 32 * (n.toNat / 2 ^ 32 % d.toNat) + n.toNat % 2 ^ 32) +
      d.toNat * (2 ^ 32 * (n.toNat / 2 ^ 32 / d.toNat)) := by
    have h1 := Nat.div_add_mod n.toNat (2 ^ 32)
    have h2 := Nat.div_add_mod (n.toNat / 2 ^ 32) d.toNat
    calc n.toNat = 2 ^ 32 * (d.toNat * (n.toNat / 2 ^ 32 / d.toNat) + n.toNat / 2 ^ 32 % d.toNat) +
          n.toNat % 2 ^ 32 := by rw [h2, h1]
      _ = _ := by ring
  have hdiv : n.toNat / d.toNat = (2 ^ 32 * (n.toNat / 2 ^ 32 % d.toNat) + n.toNat % 2 ^ 32) /
      d.toNat + 2 ^ 32 * (n.toNat / 2 ^ 32 / d.toNat) := by
    conv_lhs => rw [hsplit]
    exact Nat.add_mul_div_left _ _ hD0
  rw [hX, hd0] at hq
  simp only [udiv64, hs, if_true, hdivl, Option.bind_eq_bind, Option.bind_some, Option.pure_def,
    Option.some.injEq]
  apply UInt64.toNat_inj.mp
  have hlt : n.toNat / d.toNat < 2 ^ 64 := lt_of_le_of_lt (Nat.div_le_self _ _) hN
  have hhigh : 2 ^ 32 * (n.toNat / 2 ^ 32 / d.toNat) < 2 ^ 64 := by
    have := Nat.div_le_self (n.toNat / 2 ^ 32) d.toNat
    have := Nat.mul_div_le n.toNat (2 ^ 32)
    omega
  rw [UInt64.toNat_div, UInt64.toNat_add, UInt64.toNat_mul, UInt32.toNat_toUInt64, hq,
    UInt32.toNat_toUInt64, UInt32.toNat_div, toNat_high, hd0, show ((1 : UInt64) <<< 32).toNat =
    2 ^ 32 from rfl, Nat.mod_eq_of_lt hhigh, ← hdiv, Nat.mod_eq_of_lt hlt]

/-- The error of the truncated divisor, counted once per unit of a 64-bit quotient by a divisor
with its top bit at `63 - s`, stays below the truncated divisor. -/
theorem pow_err_le {s : ℕ} (hs : s ≤ 31) : 2 ^ (s + 1) * (2 ^ (32 - s) - 1) ≤ 2 ^ (63 - s) := by
  rcases Nat.lt_or_ge s 31 with hlt | hge
  · calc 2 ^ (s + 1) * (2 ^ (32 - s) - 1) ≤ 2 ^ (s + 1) * 2 ^ (32 - s) :=
          Nat.mul_le_mul_left _ (Nat.sub_le _ _)
      _ = 2 ^ 33 := by rw [← pow_add]; congr 1; omega
      _ ≤ 2 ^ (63 - s) := Nat.pow_le_pow_right (by omega) (by omega)
  · obtain rfl : s = 31 := by omega
    decide

/-- **The estimate of Hacker's Delight.** Dividing a 64-bit `N` by the divisor `D` with its low
`m = 32 - s` bits cleared, where `D / 2 ^ m` has its top bit at 31, gives `N / D` or one more. -/
theorem estimate_bounds {N D s : ℕ} (hN : N < 2 ^ 64) (hs : s ≤ 31)
    (hv : 2 ^ 31 ≤ D / 2 ^ (32 - s)) :
    N / D ≤ N / (D / 2 ^ (32 - s) * 2 ^ (32 - s)) ∧
      N / (D / 2 ^ (32 - s) * 2 ^ (32 - s)) ≤ N / D + 1 := by
  have hm := Nat.two_pow_pos (32 - s)
  have hWD : D / 2 ^ (32 - s) * 2 ^ (32 - s) ≤ D := Nat.div_mul_le_self D _
  have hWlo : 2 ^ (63 - s) ≤ D / 2 ^ (32 - s) * 2 ^ (32 - s) := calc
    2 ^ (63 - s) = 2 ^ 31 * 2 ^ (32 - s) := by rw [← pow_add]; congr 1; omega
    _ ≤ D / 2 ^ (32 - s) * 2 ^ (32 - s) := Nat.mul_le_mul_right _ hv
  have hWpos : 0 < D / 2 ^ (32 - s) * 2 ^ (32 - s) := lt_of_lt_of_le (Nat.two_pow_pos _) hWlo
  refine ⟨Nat.div_le_div_left hWD hWpos, Word.div_le_div_add_one hWpos hWD ?_⟩
  -- the quotient has at most `s + 1` bits and the error at most `32 - s`
  have hQ : N / D + 1 ≤ 2 ^ (s + 1) := by
    have hQD : N / D * 2 ^ (63 - s) < 2 ^ (s + 1) * 2 ^ (63 - s) := calc
      N / D * 2 ^ (63 - s) ≤ N / D * D := Nat.mul_le_mul_left _ (hWlo.trans hWD)
      _ ≤ N := Nat.div_mul_le_self N D
      _ < 2 ^ 64 := hN
      _ = 2 ^ (s + 1) * 2 ^ (63 - s) := by rw [← pow_add]; congr 1; omega
    exact Nat.lt_of_mul_lt_mul_right hQD
  have herr : D - D / 2 ^ (32 - s) * 2 ^ (32 - s) ≤ 2 ^ (32 - s) - 1 := by
    have := Nat.mod_add_div' D (2 ^ (32 - s))
    have := Nat.mod_lt D hm
    omega
  calc (N / D + 1) * (D - D / 2 ^ (32 - s) * 2 ^ (32 - s))
      ≤ 2 ^ (s + 1) * (2 ^ (32 - s) - 1) := Nat.mul_le_mul hQ herr
    _ ≤ 2 ^ (63 - s) := pow_err_le hs
    _ ≤ _ := hWlo

theorem correct_once {n d q : UInt64} (hdn : d ≤ n) (hd : d ≠ 0)
    (hq : q.toNat = n.toNat / d.toNat ∨ q.toNat = n.toNat / d.toNat + 1) :
    (if n - (q - 1) * d < d then q - 1 else q) = n / d := by
  have hN := n.toNat_lt
  have hD0 : 0 < d.toNat := Nat.pos_of_ne_zero fun h => hd (UInt64.toNat_inj.mp (by simpa using h))
  have hDN : d.toNat ≤ n.toNat := UInt64.le_iff_toNat_le.mp hdn
  have hQ : 0 < n.toNat / d.toNat := Nat.div_pos hDN hD0
  have hQD : n.toNat / d.toNat * d.toNat ≤ n.toNat := Nat.div_mul_le_self _ _
  have hQD' : n.toNat < n.toNat / d.toNat * d.toNat + d.toNat := by
    have := Nat.lt_mul_div_succ n.toNat hD0
    rw [Nat.mul_succ, Nat.mul_comm] at this
    exact this
  have hq1 : (1 : UInt64) ≤ q := by
    rw [UInt64.le_iff_toNat_le, UInt64.toNat_one]
    omega
  have hsub1 : (q - 1).toNat = q.toNat - 1 := by rw [UInt64.toNat_sub_of_le _ _ hq1, UInt64.toNat_one]
  have hmul : (q.toNat - 1) * d.toNat ≤ n.toNat / d.toNat * d.toNat :=
    Nat.mul_le_mul_right _ (by omega)
  have hprod : ((q - 1) * d).toNat = (q.toNat - 1) * d.toNat := by
    rw [UInt64.toNat_mul, hsub1, Nat.mod_eq_of_lt (by omega)]
  have hdiff : (n - (q - 1) * d).toNat = n.toNat - (q.toNat - 1) * d.toNat := by
    rw [UInt64.toNat_sub_of_le _ _ (UInt64.le_iff_toNat_le.mpr (by omega)), hprod]
  rcases hq with hq | hq
  · -- the estimate was right: `n - (q - 1) d` is at least `d`
    have hpred : (q.toNat - 1) * d.toNat = n.toNat / d.toNat * d.toNat - d.toNat := by
      rw [Nat.sub_one_mul, hq]
    have hge : ¬n - (q - 1) * d < d := by
      rw [UInt64.lt_iff_toNat_lt, hdiff, hpred]
      have : d.toNat ≤ n.toNat / d.toNat * d.toNat := Nat.le_mul_of_pos_left _ hQ
      omega
    rw [if_neg hge]
    apply UInt64.toNat_inj.mp
    rw [UInt64.toNat_div, hq]
  · -- one too many: `n - (q - 1) d` is the remainder
    have hlt : n - (q - 1) * d < d := by
      rw [UInt64.lt_iff_toNat_lt, hdiff, hq, Nat.add_sub_cancel]
      omega
    rw [if_pos hlt]
    apply UInt64.toNat_inj.mp
    rw [hsub1, UInt64.toNat_div, hq, Nat.add_sub_cancel]

/-- Normalising a divisor of more than 32 bits: `(d << s) >> 32` is `d` with its low `32 - s` bits
dropped, and has its top bit at 31. -/
theorem normalize_spec {d : UInt64} (hs : d >>> 32 ≠ 0) :
    nlz (d >>> 32).toUInt32 ≤ 31 ∧
      ((d <<< (nlz (d >>> 32).toUInt32).toUInt64) >>> 32).toUInt32.toNat =
        d.toNat / 2 ^ (32 - nlz (d >>> 32).toUInt32) ∧
      2 ^ 31 ≤ d.toNat / 2 ^ (32 - nlz (d >>> 32).toUInt32) := by
  have hD := d.toNat_lt
  have hd1 : (d >>> 32).toUInt32 ≠ 0 := fun h => hs (UInt64.toNat_inj.mp (by
    have := congrArg UInt32.toNat h
    rw [toNat_high, UInt32.toNat_zero] at this
    rw [UInt64.toNat_shiftRight, Nat.shiftRight_eq_div_pow]
    simpa using this))
  obtain ⟨hs31, hlo, hhi⟩ := nlz_spec hd1
  generalize nlz (d >>> 32).toUInt32 = s at hs31 hlo hhi ⊢
  rw [toNat_high] at hlo hhi
  have hsplit : 2 ^ 32 = 2 ^ (32 - s) * 2 ^ s := by rw [← pow_add]; congr 1; omega
  have hhigh : d.toNat / 2 ^ 32 < 2 ^ (32 - s) := by
    exact Nat.lt_of_mul_lt_mul_right (hhi.trans_eq hsplit)
  have hshl : (d <<< s.toUInt64).toNat = d.toNat * 2 ^ s := by
    have hst : s.toUInt64.toNat % 64 = s := by
      rw [Nat.toUInt64_eq, UInt64.toNat_ofNat', Nat.mod_eq_of_lt (by omega), Nat.mod_eq_of_lt (by omega)]
    rw [UInt64.toNat_shiftLeft, hst, Nat.shiftLeft_eq]
    apply Nat.mod_eq_of_lt
    calc d.toNat * 2 ^ s < 2 ^ 32 * 2 ^ (32 - s) * 2 ^ s := by
          apply Nat.mul_lt_mul_of_pos_right _ (Nat.two_pow_pos s)
          have := Nat.lt_mul_div_succ d.toNat (Nat.two_pow_pos 32)
          calc d.toNat < 2 ^ 32 * (d.toNat / 2 ^ 32 + 1) := this
            _ ≤ 2 ^ 32 * 2 ^ (32 - s) := Nat.mul_le_mul_left _ hhigh
      _ = 2 ^ 64 := by rw [Nat.mul_assoc, ← hsplit]; rfl
  have hnorm : d.toNat * 2 ^ s / 2 ^ 32 = d.toNat / 2 ^ (32 - s) := by
    rw [hsplit, Nat.mul_div_mul_right _ _ (Nat.two_pow_pos s)]
  refine ⟨hs31, by rw [toNat_high, hshl, hnorm], ?_⟩
  -- the top bit of the high word lands at bit 31
  rw [← hnorm]
  calc 2 ^ 31 ≤ d.toNat / 2 ^ 32 * 2 ^ s := hlo
    _ ≤ d.toNat * 2 ^ s / 2 ^ 32 := by
      rw [Nat.le_div_iff_mul_le (Nat.two_pow_pos 32), Nat.mul_right_comm]
      exact Nat.mul_le_mul_right _ (Nat.div_mul_le_self _ _)

/-- A divisor of more than 32 bits: `DIVL` of `n / 2` by the normalised divisor does not trap, and
its quotient shifted back is `n / d` or one more, which the last line corrects. -/
theorem udiv64_long {n d : UInt64} (hs : d >>> 32 ≠ 0) (hdn : d ≤ n) :
    udiv64 n d = some (n / d) := by
  have hd : d ≠ 0 := fun h => hs (by rw [h]; rfl)
  have hN := n.toNat_lt
  obtain ⟨hs31, hv, hvlo⟩ := normalize_spec hs
  have hvne : ((d <<< (nlz (d >>> 32).toUInt32).toUInt64) >>> 32).toUInt32 ≠ 0 := fun h => by
    rw [h, UInt32.toNat_zero] at hv
    omega
  have hu : (n >>> 1).toNat = n.toNat / 2 := by
    rw [UInt64.toNat_shiftRight, show (1 : UInt64).toNat % 64 = 1 from rfl, Nat.shiftRight_eq_div_pow,
      pow_one]
  obtain ⟨q, hdivl, hq⟩ := divl_of_lt hvne (n := n >>> 1)
    (by rw [hu, hv]; exact Nat.div_lt_of_lt_mul (by omega))
  have hnd : ¬n < d := fun h =>
    Nat.not_lt.mpr (UInt64.le_iff_toNat_le.mp hdn) (UInt64.lt_iff_toNat_lt.mp h)
  simp only [udiv64, hs, if_false, hnd, hdivl, Option.bind_eq_bind, Option.bind_some,
    Option.pure_def, Option.some.injEq]
  apply correct_once hdn hd
  rw [hu, hv] at hq
  generalize nlz (d >>> 32).toUInt32 = s at hs31 hvlo hq ⊢
  have hshift : (q.toUInt64 >>> (31 - s).toUInt64).toNat =
      n.toNat / (d.toNat / 2 ^ (32 - s) * 2 ^ (32 - s)) := by
    have hst : (31 - s).toUInt64.toNat % 64 = 31 - s := by
      rw [Nat.toUInt64_eq, UInt64.toNat_ofNat', Nat.mod_eq_of_lt (by omega), Nat.mod_eq_of_lt (by omega)]
    rw [UInt64.toNat_shiftRight, hst, Nat.shiftRight_eq_div_pow, UInt32.toNat_toUInt64, hq,
      Word.div_div_two_div_pow, show 31 - s + 1 = 32 - s by omega]
  have := estimate_bounds hN hs31 hvlo
  omega

theorem udiv64_lt {n d : UInt64} (hs : d >>> 32 ≠ 0) (hnd : n < d) : udiv64 n d = some (n / d) := by
  have h0 : n / d = 0 := by
    apply UInt64.toNat_inj.mp
    rw [UInt64.toNat_div, Nat.div_eq_of_lt (UInt64.lt_iff_toNat_lt.mp hnd), UInt64.toNat_zero]
  simp [udiv64, hs, hnd, h0]

/-- **`udiv64` is exact** for every nonzero divisor, and none of its `DIVL`s traps. -/
theorem udiv64_eq {n d : UInt64} (hd : d ≠ 0) : udiv64 n d = some (n / d) := by
  by_cases hs : d >>> 32 = 0
  · exact udiv64_short hd hs
  · by_cases hnd : n < d
    · exact udiv64_lt hs hnd
    · exact udiv64_long hs (UInt64.le_iff_toNat_le.mpr
        (Nat.not_lt.mp fun h => hnd (UInt64.lt_iff_toNat_lt.mpr h)))

/-! ## The remainders and the signed operations -/

theorem umod64_eq {n d : UInt64} (hd : d ≠ 0) :
    ∃ r, umod64 n d = some r ∧ r.toNat = n.toNat % d.toNat % 2 ^ 32 := by
  refine ⟨_, by simp only [umod64, udiv64_eq hd, Option.bind_eq_bind, Option.bind_some]; rfl, ?_⟩
  have hN := n.toNat_lt
  have hprod : (d * (n / d)).toNat = d.toNat * (n.toNat / d.toNat) := by
    rw [UInt64.toNat_mul, UInt64.toNat_div, Nat.mod_eq_of_lt (lt_of_le_of_lt (Nat.mul_div_le _ _) hN)]
  have hle : d * (n / d) ≤ n := UInt64.le_iff_toNat_le.mpr (by rw [hprod]; exact Nat.mul_div_le _ _)
  rw [UInt64.toNat_toUInt32, UInt64.toNat_sub_of_le _ _ hle, hprod, ← Nat.mod_eq_sub_mul_div]

theorem tdiv_eq_natAbs (a b : Int) : a.tdiv b =
    if (a < 0) = (b < 0) then ((a.natAbs / b.natAbs : Nat) : Int)
    else -((a.natAbs / b.natAbs : Nat) : Int) := by
  cases a <;> cases b <;> simp [Int.tdiv, Int.negSucc_lt_zero]
  omega

theorem toNat_abs (n : Int64) :
    (if n ≥ 0 then n.toUInt64 else -n.toUInt64).toNat = n.toInt.natAbs := by
  have hcond := BitVec.toInt_eq_toNat_cond n.toBitVec
  rw [Int64.toInt_toBitVec, ← Int64.toBitVec_toUInt64, UInt64.toNat_toBitVec] at hcond
  have hlt := n.toUInt64.toNat_lt
  by_cases hn : n ≥ 0
  · have h0 : 0 ≤ n.toInt := by simpa [Int64.le_iff_toInt_le] using hn
    rw [if_pos hn]
    split at hcond <;> omega
  · have h0 : n.toInt < 0 := by simpa [Int64.le_iff_toInt_le] using hn
    rw [if_neg hn, UInt64.toNat_neg]
    split at hcond
    · omega
    · simp only [UInt64.size] at *
      omega

theorem toInt_toInt64 (q : UInt64) :
    q.toInt64.toInt = if 2 * q.toNat < 2 ^ 64 then (q.toNat : Int) else q.toNat - 2 ^ 64 := by
  rw [← Int64.toInt_toBitVec, UInt64.toBitVec_toInt64, BitVec.toInt_eq_toNat_cond,
    UInt64.toNat_toBitVec]
  rfl

/-- **`sdiv64` is C's truncating quotient** for every nonzero divisor, but for the overflowing
`INT64_MIN / -1`. -/
theorem sdiv64_eq {n d : Int64} (hd : d ≠ 0) (hov : ¬(n = Int64.minValue ∧ d = -1)) :
    ∃ q, sdiv64 n d = some q ∧ q.toInt = n.toInt.tdiv d.toInt := by
  have hdI : d.toInt ≠ 0 := fun h => hd (Int64.toInt_inj.mp (by rw [h, Int64.toInt_zero]))
  have hn1 := Int64.le_toInt n
  have hn2 := Int64.toInt_lt n
  have hd1 := Int64.le_toInt d
  have hd2 := Int64.toInt_lt d
  have hdabs : (if d ≥ 0 then d.toUInt64 else -d.toUInt64) ≠ 0 := fun h => by
    have := toNat_abs d
    rw [h, UInt64.toNat_zero] at this
    omega
  simp only [sdiv64, udiv64_eq hdabs, Option.bind_eq_bind, Option.bind_some, Option.pure_def,
    Option.some.injEq, exists_eq_left']
  have hQ : ((if n ≥ 0 then n.toUInt64 else -n.toUInt64) /
      (if d ≥ 0 then d.toUInt64 else -d.toUInt64)).toNat = n.toInt.natAbs / d.toInt.natAbs := by
    rw [UInt64.toNat_div, toNat_abs, toNat_abs]
  generalize (if n ≥ 0 then n.toUInt64 else -n.toUInt64) /
      (if d ≥ 0 then d.toUInt64 else -d.toUInt64) = q at hQ
  have hQle : n.toInt.natAbs / d.toInt.natAbs ≤ n.toInt.natAbs := Nat.div_le_self _ _
  by_cases hbig : n.toInt.natAbs / d.toInt.natAbs = 2 ^ 63
  · -- only `INT64_MIN / 1` has a quotient of 64 bits
    have hd1' : d.toInt.natAbs = 1 := by
      by_contra hne
      have : n.toInt.natAbs / d.toInt.natAbs ≤ n.toInt.natAbs / 2 := Nat.div_le_div_left (by omega) (by omega)
      omega
    have hnmin : n = Int64.minValue := Int64.toInt_inj.mp (by rw [Int64.toInt_minValue]; omega)
    have hdone : d = 1 := by
      have hdm : d.toInt = 1 ∨ d.toInt = -1 := by omega
      rcases hdm with h | h
      · exact Int64.toInt_inj.mp (by rw [h]; rfl)
      · exact absurd ⟨hnmin, Int64.toInt_inj.mp (by rw [h]; rfl)⟩ hov
    have hq : q = 9223372036854775808 := UInt64.toNat_inj.mp (by rw [hQ, hbig]; rfl)
    subst hnmin hdone hq
    decide +kernel
  · have hlt : 2 * q.toNat < 2 ^ 64 := by omega
    rw [tdiv_eq_natAbs]
    simp only [Int64.lt_iff_toInt_lt, Int64.toInt_zero]
    by_cases hc : (n.toInt < 0) = (d.toInt < 0)
    · rw [if_pos hc, if_pos hc, toInt_toInt64, if_pos hlt, hQ]
    · rw [if_neg hc, if_neg hc, Int64.toInt_neg, toInt_toInt64, if_pos hlt, hQ,
        Int.bmod_eq_of_le (by omega) (by omega)]

theorem smod64_eq {n d : Int64} (hd : d ≠ 0) (hov : ¬(n = Int64.minValue ∧ d = -1)) :
    ∃ r, smod64 n d = some r ∧ r.toInt = (n.toInt.tmod d.toInt).bmod (2 ^ 32) := by
  obtain ⟨q, hq, hqv⟩ := sdiv64_eq hd hov
  refine ⟨_, by simp only [smod64, hq, Option.bind_eq_bind, Option.bind_some]; rfl, ?_⟩
  have hr : (n - d * q).toInt = n.toInt.tmod d.toInt := by
    have hdI : d.toInt ≠ 0 := fun h => hd (Int64.toInt_inj.mp (by rw [h, Int64.toInt_zero]))
    have hlt := Int.natAbs_tmod n.toInt d.toInt
    have := Nat.mod_lt n.toInt.natAbs (Int.natAbs_pos.mpr hdI)
    have hd1 := Int64.le_toInt d
    have hd2 := Int64.toInt_lt d
    rw [Int64.toInt_sub, Int64.toInt_mul, Int.sub_bmod_bmod, hqv, ← Int.tmod_def]
    exact Int.bmod_eq_of_le (by omega) (by omega)
  rw [Int64.toInt_toInt32, hr]

/-! ## The entry points GCC calls -/

/-- For every nonzero divisor, and but for the overflowing `INT64_MIN / -1`, no `DIVL` traps:
`__udivdi3` and `__divdi3` return the quotients, and `__umoddi3` and `__moddi3` the remainders cut
to 32 bits. -/
theorem div64_entry_points {n d : UInt64} {a b : Int64} (hd : d ≠ 0) (hb : b ≠ 0)
    (hov : ¬(a = Int64.minValue ∧ b = -1)) :
    udivdi3 n d = some (n / d) ∧
    (∃ r, umoddi3 n d = some r ∧ r.toNat = n.toNat % d.toNat % 2 ^ 32) ∧
    (∃ q, divdi3 a b = some q ∧ q.toInt = a.toInt.tdiv b.toInt) ∧
    (∃ r, moddi3 a b = some r ∧ r.toInt = (a.toInt.tmod b.toInt).bmod (2 ^ 32)) := by
  refine ⟨udiv64_eq hd, ?_, sdiv64_eq hb hov, ?_⟩
  · obtain ⟨r, hr, hrv⟩ := umod64_eq hd
    exact ⟨r.toUInt64, by rw [umoddi3, hr]; rfl, by rw [UInt32.toNat_toUInt64, hrv]⟩
  · obtain ⟨r, hr, hrv⟩ := smod64_eq hb hov
    exact ⟨r.toInt64, by rw [moddi3, hr]; rfl, by rw [Int32.toInt_toInt64, hrv]⟩

/-- `2 ^ 40 + 5` by `2 ^ 33 + 1`, unsigned, and `-7` by `2`, signed. -/
theorem div64_entry_points_mixed :
    (2 ^ 33 + 1 : UInt64) ≠ 0 ∧ (2 : Int64) ≠ 0 ∧ ¬((-7 : Int64) = Int64.minValue ∧ (2 : Int64) = -1) ∧
    udivdi3 (2 ^ 40 + 5) (2 ^ 33 + 1) = some ((2 ^ 40 + 5) / (2 ^ 33 + 1)) ∧
    (∃ r, umoddi3 (2 ^ 40 + 5) (2 ^ 33 + 1) = some r ∧
      r.toNat = (2 ^ 40 + 5 : UInt64).toNat % (2 ^ 33 + 1 : UInt64).toNat % 2 ^ 32) ∧
    (∃ q, divdi3 (-7) 2 = some q ∧ q.toInt = (-7 : Int64).toInt.tdiv (2 : Int64).toInt) ∧
    (∃ r, moddi3 (-7) 2 = some r ∧
      r.toInt = ((-7 : Int64).toInt.tmod (2 : Int64).toInt).bmod (2 ^ 32)) :=
  ⟨by decide, by decide, by decide, div64_entry_points (by decide) (by decide) (by decide)⟩

/-- A remainder of 33 bits: `__umoddi3` and `__moddi3` return `0` for `2 ^ 32 % (2 ^ 32 + 1)`,
which is `2 ^ 32`. -/
theorem moddi3_drops_high_bits :
    umoddi3 (2 ^ 32) (2 ^ 32 + 1) = some 0 ∧ (2 ^ 32 : UInt64) % (2 ^ 32 + 1) = 2 ^ 32 ∧
      moddi3 (2 ^ 32) (2 ^ 32 + 1) = some 0 ∧
      (2 ^ 32 : Int).tmod (2 ^ 32 + 1) = 2 ^ 32 := by
  decide +kernel

end Pintos.Arith
