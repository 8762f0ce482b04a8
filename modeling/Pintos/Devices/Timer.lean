import Mathlib.Data.UInt
import Mathlib.Tactic.NormNum
import Mathlib.Tactic.Ring

/-! # `devices/timer.c`: calibrating the busy-wait loop

`timer_calibrate` measures how many iterations of `busy_wait` fit in one timer tick, for the
sub-tick delays. Only `too_many_loops (loops)` looks at the hardware: it waits for a tick, runs
`loops` iterations and says whether the tick count moved meanwhile. The model takes it as an
oracle `tooManyLoops` on `unsigned` values, of which the loop invariants assume nothing.

* `Bracket`: what the refining loop keeps of `loops_per_tick`; each test of a bit halves the
  step that is known to be too many.
* `timerCalibrate_brackets`: when `1u << 10` loops fit in a tick and `1u << 31` do not, the
  calibration passes its `ASSERT`, and `loops_per_tick` fits while `2^(k-9)` more do not,
  `2^k` being its highest bit.
* `timer_calibrate_within`: on a machine where exactly the counts below `T` fit, the result is
  below `T` by less than one part in 512 of itself.
-/

namespace Pintos.Devices
set_option autoImplicit false

/-- The `while` loop: doubles `loops_per_tick` while twice it still fits in a tick, with its
`ASSERT (loops_per_tick != 0)` (`none`). Twenty-two doublings of `1u << 10` wrap to 0, so from
there the loop has ended within its fuel. -/
def doublingLoop (tooManyLoops : UInt32 → Bool) : Nat → UInt32 → Option UInt32
  | 0, loopsPerTick => some loopsPerTick
  | fuel + 1, loopsPerTick =>
    if !tooManyLoops (loopsPerTick <<< 1) then
      let loopsPerTick := loopsPerTick <<< 1
      if loopsPerTick = 0 then none else doublingLoop tooManyLoops fuel loopsPerTick
    else some loopsPerTick

/-- The `for` loop: `test_bit` runs down from `high_bit >> 1`, and is set in `loops_per_tick`
when `loops_per_tick | test_bit` still fits in a tick, until it is `high_bit >> 10`. Nine
halvings of `high_bit >> 1` give `high_bit >> 10`, so ten rounds of fuel end the loop. -/
def refineLoop (tooManyLoops : UInt32 → Bool) (highBit : UInt32) :
    Nat → UInt32 → UInt32 → UInt32
  | 0, loopsPerTick, _ => loopsPerTick
  | fuel + 1, loopsPerTick, testBit =>
    if testBit = highBit >>> 10 then loopsPerTick
    else
      let loopsPerTick :=
        if !tooManyLoops (loopsPerTick ||| testBit) then loopsPerTick ||| testBit else loopsPerTick
      refineLoop tooManyLoops highBit fuel loopsPerTick (testBit >>> 1)

/-- `timer_calibrate ()`: the `loops_per_tick` it leaves, `none` if its `ASSERT` fails. -/
def timerCalibrate (tooManyLoops : UInt32 → Bool) : Option UInt32 :=
  (doublingLoop tooManyLoops 22 ((1 : UInt32) <<< 10)).map fun loopsPerTick =>
    let highBit := loopsPerTick
    refineLoop tooManyLoops highBit 10 loopsPerTick (highBit >>> 1)

section
variable {tooManyLoops : UInt32 → Bool}

theorem toNat_shiftLeft_one {l : UInt32} {k : Nat} (hl : l.toNat = 2 ^ k) (hk : k < 31) :
    (l <<< 1).toNat = 2 ^ (k + 1) := by
  have hlt : 2 ^ (k + 1) < 2 ^ 32 := Nat.pow_lt_pow_right (by norm_num) (by omega)
  rw [UInt32.toNat_shiftLeft, hl, show (1 : UInt32).toNat % 32 = 1 from rfl, Nat.shiftLeft_eq,
    ← Nat.pow_succ, Nat.mod_eq_of_lt hlt]

theorem toNat_shiftRight_pow {l : UInt32} {k j : Nat} (hl : l.toNat = 2 ^ k) (hj : j ≤ k)
    (h32 : j < 32) : (l >>> j.toUInt32).toNat = 2 ^ (k - j) := by
  have hj32 : j.toUInt32.toNat % 32 = j := by
    rw [Nat.toUInt32_eq, UInt32.toNat_ofNat']
    omega
  rw [UInt32.toNat_shiftRight, hl, hj32, Nat.shiftRight_eq_div_pow, Nat.pow_div hj (by norm_num)]

theorem toNat_or_pow {l t : UInt32} {i : Nat} (hl : 2 ^ (i + 1) ∣ l.toNat) (ht : t.toNat = 2 ^ i) :
    (l ||| t).toNat = l.toNat + 2 ^ i := by
  obtain ⟨q, hq⟩ := hl
  rw [UInt32.toNat_or, ht, hq,
    ← Nat.two_pow_add_eq_or_of_lt (Nat.pow_lt_pow_right (by norm_num) (Nat.lt_succ_self i))]

theorem eq_of_toNat_eq {l : UInt32} {n : Nat} (h : l.toNat = n) : l = n.toUInt32 := by
  rw [← UInt32.toNat_inj, Nat.toUInt32_eq, UInt32.toNat_ofNat', ← h, Nat.mod_eq_of_lt l.toNat_lt]

/-- The doubling loop, from a power `2^k` that fits in a tick: it stops at a power `2^k'` that
fits while twice it does not, as long as `1u << 31` does not fit. -/
theorem doublingLoop_top (hhi : tooManyLoops ((1 : UInt32) <<< 31) = true) :
    ∀ fuel {k : Nat} {l : UInt32}, 31 ≤ k + fuel → k ≤ 30 → l.toNat = 2 ^ k →
      tooManyLoops l = false →
      ∃ k' h, k ≤ k' ∧ k' ≤ 30 ∧ doublingLoop tooManyLoops fuel l = some h ∧
        h.toNat = 2 ^ k' ∧ tooManyLoops h = false ∧ tooManyLoops (h <<< 1) = true
  | 0, k, l, hfuel, hk, _, _ => by omega
  | fuel + 1, k, l, hfuel, hk, hl, hfit => by
    have hnext := toNat_shiftLeft_one hl (by omega)
    rw [doublingLoop]
    by_cases htest : tooManyLoops (l <<< 1) = true
    · -- twice `l` is too many: the loop stops at `l`
      simp only [htest, Bool.not_true, Bool.false_eq_true, if_false]
      exact ⟨k, l, le_rfl, hk, rfl, hl, hfit, htest⟩
    · -- `1u << 31` is too many, so twice `l` is at most `1u << 30`
      have hk' : k + 1 ≤ 30 := by
        by_contra hk'
        have h31 : l <<< 1 = (1 : UInt32) <<< 31 :=
          UInt32.toNat_inj.mp (by rw [hnext, show k + 1 = 31 by omega]; rfl)
        exact htest (h31 ▸ hhi)
      have hne : l <<< 1 ≠ 0 := fun h0 => by
        have := congrArg UInt32.toNat h0
        rw [hnext] at this
        exact absurd this (Nat.two_pow_pos _).ne'
      simp only [Bool.eq_false_iff.mpr htest, Bool.not_false, if_true, hne, if_false]
      obtain ⟨k', h, hkk, hk'', hrun, hh, hfit', htop⟩ :=
        doublingLoop_top hhi fuel (by omega) hk' hnext (Bool.eq_false_iff.mpr htest)
      exact ⟨k', h, by omega, hk'', hrun, hh, hfit', htop⟩

/-- What the refining loop keeps of `loops_per_tick`: it lies in `[2^k, 2^(k+1))`, is a
multiple of `step`, fits in a tick, and `step` more does not. -/
structure Bracket (tooManyLoops : UInt32 → Bool) (k step : Nat) (loopsPerTick : UInt32) :
    Prop where
  lower : 2 ^ k ≤ loopsPerTick.toNat
  upper : loopsPerTick.toNat < 2 ^ (k + 1)
  dvd : step ∣ loopsPerTick.toNat
  fits : tooManyLoops loopsPerTick = false
  next : tooManyLoops (loopsPerTick.toNat + step).toUInt32 = true

theorem add_le_of_dvd_of_lt {a l n : Nat} (hl : a ∣ l) (hn : a ∣ n) (h : l < n) : l + a ≤ n := by
  obtain ⟨q, rfl⟩ := hl
  obtain ⟨r, rfl⟩ := hn
  have hqr : q < r := Nat.lt_of_mul_lt_mul_left h
  calc a * q + a = a * (q + 1) := by ring
    _ ≤ a * r := Nat.mul_le_mul_left a hqr

theorem Bracket.refine {k i : Nat} {l t : UInt32} (hb : Bracket tooManyLoops k (2 ^ (i + 1)) l)
    (ht : t.toNat = 2 ^ i) (hik : i < k) :
    Bracket tooManyLoops k (2 ^ i)
      (if !tooManyLoops (l ||| t) then l ||| t else l) := by
  have hor := toNat_or_pow hb.dvd ht
  have hpow : 2 ^ (i + 1) = 2 ^ i + 2 ^ i := by rw [Nat.pow_succ]; ring
  have hdvd : 2 ^ i ∣ l.toNat := (Nat.pow_dvd_pow 2 (Nat.le_succ i)).trans hb.dvd
  have hroom : l.toNat + 2 ^ (i + 1) ≤ 2 ^ (k + 1) :=
    add_le_of_dvd_of_lt hb.dvd (Nat.pow_dvd_pow 2 (by omega)) hb.upper
  have hlower := hb.lower
  have hbit := Nat.two_pow_pos i
  cases htest : tooManyLoops (l ||| t)
  · -- `l ||| t` fits: the bit is kept
    simp only [Bool.not_false, if_true]
    refine ⟨by omega, by omega, ?_, htest, ?_⟩
    · rw [hor]
      exact Nat.dvd_add hdvd dvd_rfl
    · rw [hor, Nat.add_assoc, ← hpow]
      exact hb.next
  · -- `l ||| t` is too many: `l` stays, and now `2^i` more is known to be too many
    simp only [Bool.not_true, Bool.false_eq_true, if_false]
    refine ⟨hb.lower, hb.upper, hdvd, hb.fits, ?_⟩
    rw [← eq_of_toNat_eq hor]
    exact htest

/-- The refining loop from the bit `2^(k-10+n)`, with a step twice that: it ends with the step
`2^(k-9)`. -/
theorem refineLoop_bracket {h : UInt32} {k : Nat} (hh : h.toNat = 2 ^ k) (hk : 10 ≤ k ∧ k ≤ 30) :
    ∀ n {fuel : Nat} {l t : UInt32}, n < fuel → n ≤ 9 → t.toNat = 2 ^ (k - 10 + n) →
      Bracket tooManyLoops k (2 ^ (k - 9 + n)) l →
      Bracket tooManyLoops k (2 ^ (k - 9)) (refineLoop tooManyLoops h fuel l t) := by
  have hstop : (h >>> 10).toNat = 2 ^ (k - 10) :=
    toNat_shiftRight_pow (j := 10) hh hk.1 (by norm_num)
  intro n
  induction n with
  | zero =>
    intro fuel l t hfuel _ ht hb
    obtain ⟨fuel, rfl⟩ : ∃ f, fuel = f + 1 := ⟨fuel - 1, by omega⟩
    have heq : t = h >>> 10 := UInt32.toNat_inj.mp (by rw [ht, hstop, Nat.add_zero])
    rw [refineLoop, if_pos heq]
    exact hb
  | succ n ih =>
    intro fuel l t hfuel hn ht hb
    obtain ⟨fuel, rfl⟩ : ∃ f, fuel = f + 1 := ⟨fuel - 1, by omega⟩
    have hne : t ≠ h >>> 10 := fun heq => by
      have := congrArg UInt32.toNat heq
      rw [ht, hstop] at this
      have := Nat.pow_right_injective (le_refl 2) this
      omega
    have hhalf : (t >>> 1).toNat = 2 ^ (k - 10 + n) :=
      toNat_shiftRight_pow (j := 1) ht (by omega) (by norm_num)
    rw [refineLoop, if_neg hne]
    have hb' := Bracket.refine (i := k - 10 + (n + 1))
      (by rw [show k - 10 + (n + 1) + 1 = k - 9 + (n + 1) by omega]; exact hb) ht (by omega)
    rw [show k - 10 + (n + 1) = k - 9 + n by omega] at hb'
    exact ih (by omega) (by omega) hhalf hb'

theorem timerCalibrate_brackets (hlo : tooManyLoops ((1 : UInt32) <<< 10) = false)
    (hhi : tooManyLoops ((1 : UInt32) <<< 31) = true) :
    ∃ k loopsPerTick, 10 ≤ k ∧ k ≤ 30 ∧ timerCalibrate tooManyLoops = some loopsPerTick ∧
      Bracket tooManyLoops k (2 ^ (k - 9)) loopsPerTick := by
  obtain ⟨k, h, hk, hk', hrun, hh, hfit, htop⟩ :=
    doublingLoop_top (k := 10) hhi 22 (by norm_num) (by norm_num) (by rfl) hlo
  -- the refinement starts from `high_bit` itself, whose next step `2^k` is its double
  have hstart : Bracket tooManyLoops k (2 ^ (k - 9 + 9)) h := by
    rw [show k - 9 + 9 = k by omega]
    have hpos := Nat.two_pow_pos k
    refine ⟨hh.ge, by rw [hh, Nat.pow_succ]; omega, hh ▸ dvd_rfl, hfit, ?_⟩
    rw [← eq_of_toNat_eq (show (h <<< 1).toNat = h.toNat + 2 ^ k by
      rw [toNat_shiftLeft_one hh (by omega), hh, Nat.pow_succ]; ring)]
    exact htop
  have htest : (h >>> 1).toNat = 2 ^ (k - 10 + 9) :=
    (toNat_shiftRight_pow (j := 1) hh (by omega) (by norm_num)).trans (by congr 1; omega)
  refine ⟨k, _, hk, hk', by rw [timerCalibrate, hrun, Option.map_some], ?_⟩
  exact refineLoop_bracket hh ⟨hk, hk'⟩ 9 (by norm_num) le_rfl htest hstart

end

/-- A machine on which `loops` iterations of `busy_wait` outlast a tick exactly when there are
at least `T` of them. -/
def threshold (T : Nat) (loops : UInt32) : Bool := decide (T ≤ loops.toNat)

theorem timer_calibrate_within {T : Nat} (hlo : 2 ^ 10 < T) (hhi : T ≤ 2 ^ 31) :
    ∃ loopsPerTick, timerCalibrate (threshold T) = some loopsPerTick ∧
      loopsPerTick.toNat < T ∧ 512 * T ≤ 513 * loopsPerTick.toNat := by
  have h10 : threshold T ((1 : UInt32) <<< 10) = false := by
    simp only [threshold, decide_eq_false_iff_not, not_le]
    exact lt_of_eq_of_lt rfl hlo
  have h31 : threshold T ((1 : UInt32) <<< 31) = true := by
    simp only [threshold, decide_eq_true_eq]
    exact le_of_le_of_eq hhi rfl
  obtain ⟨k, l, hk, hk', hrun, hb⟩ := timerCalibrate_brackets h10 h31
  have hfit : l.toNat < T := by simpa [threshold] using hb.fits
  have hstep : 2 ^ (k - 9) * 512 = 2 ^ k := by
    rw [show (512 : Nat) = 2 ^ 9 from rfl, ← Nat.pow_add, Nat.sub_add_cancel (by omega)]
  have hroom : l.toNat + 2 ^ (k - 9) < 2 ^ 32 := by
    have := Nat.pow_le_pow_right (show 0 < 2 by norm_num) (show k + 1 ≤ 31 by omega)
    have := hb.upper
    omega
  have hnext : T ≤ l.toNat + 2 ^ (k - 9) := by
    have := hb.next
    simp only [threshold, decide_eq_true_eq, Nat.toUInt32_eq, UInt32.toNat_ofNat',
      Nat.mod_eq_of_lt hroom] at this
    exact this
  exact ⟨l, hrun, hfit, by have := hb.lower; omega⟩

theorem timer_calibrate_within_100k :
    2 ^ 10 < 100000 ∧ 100000 ≤ 2 ^ 31 ∧ ∃ loopsPerTick,
      timerCalibrate (threshold 100000) = some loopsPerTick ∧
        loopsPerTick.toNat < 100000 ∧ 512 * 100000 ≤ 513 * loopsPerTick.toNat :=
  ⟨by norm_num, by norm_num, timer_calibrate_within (by norm_num) (by norm_num)⟩

example : timerCalibrate (threshold 100000) = some 99968 := by decide

end Pintos.Devices
