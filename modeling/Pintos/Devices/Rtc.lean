import Mathlib.Data.UInt

/-! # `devices/rtc.c`: the real-time clock

`rtc_get_time` reads the six time registers of the CMOS clock, in BCD, until a second read of
the seconds agrees with the first, and counts seconds from them. Its variables are `int` and
`time_t` is a 32-bit `unsigned long`: `time += x` converts `x` and wraps modulo 2^32, and the
`int` product of the year term overflows from 2039 on. The model is `none` where the C code is
undefined: that overflow, and a read of `days_per_month` past its end.

* `unixTime`: what the comment on `rtc_get_time` says it returns, the seconds from 1 January
  1970 to the Gregorian date and time the registers hold.
* `rtc_get_time_ahead`: for every date from 1970 to 2038 the result is 27 to 32 days past that.
  The loop adds the days of the current month too, and the code's leap years are 1974, 1978, ...
  where the calendar has 1972, 1976, ... (and 1970 as well, for its own months from March on).
* `rtc_get_time_backwards`: at the end of each month followed by a shorter one, the result goes
  back by a day or more when the clock ticks one second on.
-/

namespace Pintos.Devices
set_option autoImplicit false

/-- `bcd_to_bin (x)`. -/
def bcdToBin (x : UInt8) : Nat := (x &&& 0x0f).toNat + (x >>> 4).toNat * 10

/-- One pass of the loop: `RTC_REG_SEC`, `RTC_REG_MIN`, `RTC_REG_HOUR`, `RTC_REG_MDAY`,
`RTC_REG_MON` and `RTC_REG_YEAR` as `cmos_read` returns them. -/
structure CmosTime where
  sec : UInt8
  min : UInt8
  hour : UInt8
  mday : UInt8
  mon : UInt8
  year : UInt8
deriving DecidableEq, Repr

/-- The `do ... while` loop over the passes the clock answers, each with the seconds register
read once more after it. It stops at the first pass whose two seconds agree; `none` if none
does, and the loop does not end. -/
def readStable : List (CmosTime × UInt8) → Option CmosTime
  | [] => none
  | (r, sec) :: passes => if bcdToBin r.sec ≠ bcdToBin sec then readStable passes else some r

def daysPerMonth : List Nat := [31, 28, 31, 30, 31, 30, 31, 31, 30, 31, 30, 31]

def INT_MAX : Int := 2 ^ 31 - 1

/-- `time += x` for an `int` `x`: `x` is converted to `time_t` and the sum wraps modulo 2^32.
`time = x` is `addTime 0 x`. -/
def addTime (time : Nat) (x : Int) : Nat := ((time + x) % 2 ^ 32).toNat

/-- Translate years-since-1900 into years-since-1970, a year before 70 being past 2000. -/
def yearsSince1970 (year : Int) : Int := (if year < 70 then year + 100 else year) - 70

/-- `(year * 365 + (year - 1) / 4) * 24 * 60 * 60`, in `int`. -/
def yearSeconds (year : Int) : Int := (year * 365 + (year - 1).tdiv 4) * 24 * 60 * 60

/-- The `for` loop: `time += days_per_month[i - 1] * 24 * 60 * 60` for `i` from 1 to `mon`;
`none` once it reads past the array. -/
def addMonths (time : Nat) (mon : Int) : Option Nat :=
  (List.range mon.toNat).foldlM
    (fun t i => daysPerMonth[i]?.map fun (d : Nat) => addTime t ((d : Int) * 24 * 60 * 60))
    time

/-- `rtc_get_time` from the line after the loop, on the registers of the pass it stopped at. -/
def rtcTime (r : CmosTime) : Option Nat :=
  let sec : Int := bcdToBin r.sec
  let min : Int := bcdToBin r.min
  let hour : Int := bcdToBin r.hour
  let mday : Int := bcdToBin r.mday
  let mon : Int := bcdToBin r.mon
  let year := yearsSince1970 (bcdToBin r.year)
  -- `year` is never negative, so the product overflows exactly when its last factor does
  if INT_MAX < yearSeconds year then none
  else (addMonths (addTime 0 (yearSeconds year)) mon).map fun time =>
    let time := if mon > 2 ∧ year.tmod 4 = 0 then addTime time (24 * 60 * 60) else time
    let time := addTime time ((mday - 1) * 24 * 60 * 60)
    let time := addTime time (hour * 60 * 60)
    let time := addTime time (min * 60)
    addTime time sec

/-- `rtc_get_time ()`, on the passes the clock answers. -/
def rtcGetTime (passes : List (CmosTime × UInt8)) : Option Nat :=
  (readStable passes).bind rtcTime

/-! ## The Unix time of a date -/

/-- Leap years of the Gregorian calendar. -/
def isLeap (y : Nat) : Bool := y % 4 == 0 && (y % 100 != 0 || y % 400 == 0)

def yearLength (y : Nat) : Nat := if isLeap y then 366 else 365

def monthLength (y m : Nat) : Nat := if m = 2 ∧ isLeap y then 29 else daysPerMonth.getD (m - 1) 0

/-- Days from 1 January 1970 to day `d` of month `m` of year `y`. -/
def epochDays (y m d : Nat) : Nat :=
  ((List.range (y - 1970)).map fun k => yearLength (1970 + k)).sum +
    ((List.range (m - 1)).map fun i => monthLength y (i + 1)).sum + (d - 1)

def unixTime (y m d hour min sec : Nat) : Nat :=
  epochDays y m d * 86400 + hour * 3600 + min * 60 + sec

/-- The year a year-of-the-century register stands for, by the convention `rtc_get_time`
documents. -/
def centuryYear (yy : Nat) : Nat := if yy < 70 then 2000 + yy else 1900 + yy

/-- The Unix time of the date and time the registers of one pass hold. -/
def CmosTime.unixTime (r : CmosTime) : Nat :=
  Devices.unixTime (centuryYear (bcdToBin r.year)) (bcdToBin r.mon) (bcdToBin r.mday)
    (bcdToBin r.hour) (bcdToBin r.min) (bcdToBin r.sec)

/-- The BCD byte of a number below 100. -/
def toBcd (n : Nat) : UInt8 := (n / 10 * 16 + n % 10).toUInt8

/-! ## What `rtc_get_time` counts -/

theorem bcdToBin_eq (x : UInt8) : bcdToBin x = x.toNat % 16 + x.toNat / 16 * 10 := by
  have hand : (x &&& 0x0f).toNat = x.toNat % 16 := by
    rw [UInt8.toNat_and]
    exact Nat.and_two_pow_sub_one_eq_mod x.toNat 4
  have hshift : (x >>> 4).toNat = x.toNat / 16 := by
    rw [UInt8.toNat_shiftRight]
    exact Nat.shiftRight_eq_div_pow x.toNat 4
  rw [bcdToBin, hand, hshift]

theorem bcdToBin_le (x : UInt8) : bcdToBin x ≤ 165 := by
  have := x.toNat_lt
  rw [bcdToBin_eq]
  omega

theorem bcdToBin_toBcd {n : Nat} (h : n < 100) : bcdToBin (toBcd n) = n := by
  have hlt : n / 10 * 16 + n % 10 < 2 ^ 8 := by omega
  rw [bcdToBin_eq, toBcd, Nat.toUInt8_eq, UInt8.toNat_ofNat', Nat.mod_eq_of_lt hlt]
  omega

theorem addTime_addTime (time : Nat) (x y : Int) :
    addTime (addTime time x) y = addTime time (x + y) := by
  unfold addTime
  omega

theorem addTime_zero_of_lt {x : Int} (h0 : 0 ≤ x) (h : x < 2 ^ 32) : addTime 0 x = x.toNat := by
  unfold addTime
  omega

theorem yearsSince1970_eq {yy : Nat} (h : yy ≤ 165) :
    yearsSince1970 yy = ((centuryYear yy - 1970 : Nat) : Int) := by
  unfold yearsSince1970 centuryYear
  split <;> split <;> omega

/-- `(year - 1) / 4` truncates towards zero, so at `year = 0` it is `0` as the `Nat` quotient
is. -/
theorem yearSeconds_eq (y : Nat) :
    yearSeconds y = (((365 * y + (y - 1) / 4) * 86400 : Nat) : Int) := by
  have hdiv : ((y : Int) - 1).tdiv 4 = (((y - 1) / 4 : Nat) : Int) := by
    cases y with
    | zero => decide
    | succ n => rw [Int.tdiv_eq_ediv_of_nonneg (by omega)]; omega
  rw [yearSeconds, hdiv]
  push_cast
  omega

/-- The days the loop adds for the first `n` months. -/
def monthsBefore (n : Nat) : Nat := ((List.range n).map fun i => daysPerMonth.getD i 0).sum

theorem monthsBefore_succ (n : Nat) :
    monthsBefore (n + 1) = monthsBefore n + daysPerMonth.getD n 0 := by
  simp [monthsBefore, List.range_succ]

theorem addMonths_succ (time : Nat) (n : Nat) :
    addMonths time ((n + 1 : Nat) : Int) = (addMonths time n).bind fun t =>
      daysPerMonth[n]?.map fun (d : Nat) => addTime t ((d : Int) * 24 * 60 * 60) := by
  simp only [addMonths, Int.toNat_natCast, List.range_succ, List.foldlM_append, List.foldlM_cons,
    List.foldlM_nil, bind_pure]
  rfl

theorem addMonths_eq (time : Nat) (x : Int) {n : Nat} (hn : n ≤ 12) :
    addMonths (addTime time x) n = some (addTime time (x + monthsBefore n * 24 * 60 * 60)) := by
  induction n with
  | zero => simp [addMonths, monthsBefore]
  | succ n ih =>
    have hget : daysPerMonth[n]? = some (daysPerMonth.getD n 0) := by
      rw [List.getD_eq_getElem?_getD, List.getElem?_eq_getElem (by simp [daysPerMonth]; omega)]
      rfl
    rw [addMonths_succ, ih (by omega), Option.bind_some, hget, Option.map_some, addTime_addTime,
      monthsBefore_succ]
    congr 2
    push_cast
    omega

/-- The days `rtc_get_time` counts for `y` years since 1970, month `mon` and day `mday`. -/
def codeDays (y mon mday : Nat) : Nat :=
  365 * y + (y - 1) / 4 + monthsBefore mon + (if 2 < mon ∧ y % 4 = 0 then 1 else 0) + (mday - 1)

theorem monthsBefore_le : ∀ n ≤ 12, monthsBefore n ≤ 365 := by
  decide

/-- With no overflow and a month within the array, `rtc_get_time` counts `codeDays` days and
the time of day, and no sum wraps. -/
theorem rtcTime_eq (r : CmosTime) (hy : centuryYear (bcdToBin r.year) ≤ 2038)
    (hm : 1 ≤ bcdToBin r.mon ∧ bcdToBin r.mon ≤ 12) (hd : 1 ≤ bcdToBin r.mday) :
    rtcTime r = some (codeDays (centuryYear (bcdToBin r.year) - 1970) (bcdToBin r.mon)
      (bcdToBin r.mday) * 86400 + bcdToBin r.hour * 3600 + bcdToBin r.min * 60 + bcdToBin r.sec) := by
  have hyy := bcdToBin_le r.year
  have hday := bcdToBin_le r.mday
  have hhour := bcdToBin_le r.hour
  have hmin := bcdToBin_le r.min
  have hsec := bcdToBin_le r.sec
  have hmonths := monthsBefore_le _ hm.2
  generalize hY : centuryYear (bcdToBin r.year) - 1970 = y at *
  have hyear : yearsSince1970 (bcdToBin r.year) = y := by rw [yearsSince1970_eq hyy, hY]
  have hmod : (y : Int).tmod 4 = 0 ↔ y % 4 = 0 := by
    rw [Int.tmod_eq_emod_of_nonneg (by omega)]; omega
  have hy68 : y ≤ 68 := by
    rw [← hY]; unfold centuryYear at hy ⊢; split at hy <;> split <;> omega
  have hcap : ¬INT_MAX < yearSeconds y := by
    rw [yearSeconds_eq, INT_MAX]; omega
  unfold rtcTime
  rw [hyear, if_neg hcap]
  rw [addMonths_eq 0 _ hm.2, Option.map_some, Option.some_inj]
  -- the leap day of the code, then every later `time +=`, folded into one wrapped sum
  dsimp only
  simp only [gt_iff_lt, hmod, addTime_addTime, yearSeconds_eq]
  split
  next hleap =>
    have hcode : 2 < bcdToBin r.mon ∧ y % 4 = 0 := by omega
    rw [addTime_addTime, codeDays, if_pos hcode, addTime_zero_of_lt (by omega) (by omega)]
    omega
  next hleap =>
    have hcode : ¬(2 < bcdToBin r.mon ∧ y % 4 = 0) := by omega
    rw [addTime_addTime, codeDays, if_neg hcode, addTime_zero_of_lt (by omega) (by omega)]
    omega

/-! ## Against the calendar -/

theorem daysPerMonth_bounds : ∀ m ≤ 12, 1 ≤ m →
    28 ≤ daysPerMonth.getD (m - 1) 0 ∧ daysPerMonth.getD (m - 1) 0 ≤ 31 ∧
      (daysPerMonth.getD (m - 1) 0 = 28 → m = 2) := by
  decide

/-- From 1970 to 2099 the leap years are `1970 + y` for `y % 4 = 2`: 2000 is one, by the rule
of 400. -/
theorem isLeap_iff {y : Nat} (h : y < 130) : isLeap (1970 + y) = true ↔ y % 4 = 2 := by
  simp only [isLeap, Bool.and_eq_true, beq_iff_eq, Bool.or_eq_true, bne_iff_ne, ne_eq]
  omega

theorem yearLengths_sum {y : Nat} (h : y ≤ 130) :
    ((List.range y).map fun k => yearLength (1970 + k)).sum = 365 * y + (y + 1) / 4 := by
  induction y with
  | zero => rfl
  | succ y ih =>
    have hleap := isLeap_iff (show y < 130 by omega)
    have hlen : yearLength (1970 + y) = 365 + if y % 4 = 2 then 1 else 0 := by
      unfold yearLength
      by_cases hy : y % 4 = 2
      · rw [if_pos (hleap.mpr hy), if_pos hy]
      · rw [if_neg (mt hleap.mp hy), if_neg hy]
    rw [List.range_succ, List.map_append, List.sum_append, ih (by omega)]
    simp only [List.map_cons, List.map_nil, List.sum_cons, List.sum_nil, hlen]
    split <;> omega

theorem monthLengths_sum (y : Nat) {n : Nat} (h : n ≤ 12) :
    ((List.range n).map fun i => monthLength y (i + 1)).sum =
      monthsBefore n + if 2 ≤ n ∧ isLeap y then 1 else 0 := by
  induction n with
  | zero => rfl
  | succ n ih =>
    rw [List.range_succ, List.map_append, List.sum_append, ih (by omega), monthsBefore_succ]
    simp only [List.map_cons, List.map_nil, List.sum_cons, List.sum_nil, monthLength,
      Nat.add_sub_cancel]
    -- February is the one month whose length depends on the year
    by_cases hn : n = 1
    · subst hn
      cases isLeap y <;> rfl
    · have hfeb : ¬(n + 1 = 2 ∧ isLeap y = true) := by omega
      rw [if_neg hfeb]
      cases isLeap y
      · simp only [Bool.false_eq_true, and_false, if_false]
        omega
      · simp only [and_true]
        split <;> split <;> omega

theorem epochDays_eq {y mon : Nat} (mday : Nat) (hy : y < 130) (hm : 1 ≤ mon ∧ mon ≤ 12) :
    epochDays (1970 + y) mon mday = 365 * y + (y + 1) / 4 + monthsBefore (mon - 1) +
      (if 3 ≤ mon ∧ y % 4 = 2 then 1 else 0) + (mday - 1) := by
  have hleap := isLeap_iff hy
  rw [epochDays, Nat.add_sub_cancel_left, yearLengths_sum (by omega),
    monthLengths_sum _ (by omega)]
  by_cases hy4 : y % 4 = 2
  · simp only [hleap.mpr hy4, hy4, and_true]
    split <;> split <;> omega
  · simp only [mt hleap.mp hy4, hy4, Bool.false_eq_true, and_false, if_false]
    omega

/-- The days `rtc_get_time` counts exceed the calendar's by 27 to 32: the loop adds the current
month, and the code's leap days differ from the calendar's by one at most. -/
theorem codeDays_ahead {y mon : Nat} (mday : Nat) (hy : y < 130) (hm : 1 ≤ mon ∧ mon ≤ 12) :
    epochDays (1970 + y) mon mday + 27 ≤ codeDays y mon mday ∧
      codeDays y mon mday ≤ epochDays (1970 + y) mon mday + 32 := by
  have hmonth := daysPerMonth_bounds mon hm.2 hm.1
  have hsucc := monthsBefore_succ (mon - 1)
  rw [show mon - 1 + 1 = mon by omega] at hsucc
  rw [epochDays_eq mday hy hm, codeDays]
  split <;> split <;> omega

theorem rtc_get_time_ahead {passes : List (CmosTime × UInt8)} {r : CmosTime}
    (hr : readStable passes = some r) (hy : centuryYear (bcdToBin r.year) ≤ 2038)
    (hm : 1 ≤ bcdToBin r.mon ∧ bcdToBin r.mon ≤ 12) (hd : 1 ≤ bcdToBin r.mday) :
    ∃ t, rtcGetTime passes = some t ∧
      r.unixTime + 27 * 86400 ≤ t ∧ t ≤ r.unixTime + 32 * 86400 := by
  have hyear : 1970 ≤ centuryYear (bcdToBin r.year) := by unfold centuryYear; split <;> omega
  have hdays := codeDays_ahead (bcdToBin r.mday)
    (show centuryYear (bcdToBin r.year) - 1970 < 130 by omega) hm
  rw [Nat.add_sub_cancel' hyear] at hdays
  refine ⟨_, by rw [rtcGetTime, hr, Option.bind_some, rtcTime_eq r hy hm hd], ?_⟩
  rw [CmosTime.unixTime, unixTime]
  omega

theorem rtc_get_time_ahead_epoch :
    ∃ t, rtcGetTime [(⟨0, 0, 0, 1, 1, 0x70⟩, 0)] = some t ∧
      CmosTime.unixTime ⟨0, 0, 0, 1, 1, 0x70⟩ + 27 * 86400 ≤ t ∧
        t ≤ CmosTime.unixTime ⟨0, 0, 0, 1, 1, 0x70⟩ + 32 * 86400 :=
  rtc_get_time_ahead rfl (by decide) (by decide) (by decide)

theorem epochDays_next_month (y : Nat) {m : Nat} (hm : 1 ≤ m ∧ m ≤ 12) :
    epochDays y (m + 1) 1 = epochDays y m (monthLength y m) + 1 := by
  have hlen : 1 ≤ monthLength y m := by
    have := daysPerMonth_bounds m hm.2 hm.1
    unfold monthLength; split <;> omega
  obtain ⟨k, rfl⟩ : ∃ k, m = k + 1 := ⟨m - 1, by omega⟩
  unfold epochDays
  simp only [Nat.add_sub_cancel, List.range_succ, List.map_append, List.map_cons, List.map_nil,
    List.sum_append, List.sum_cons, List.sum_nil]
  omega

theorem rtc_get_time_backwards (yy : UInt8) (m : Nat) (hy : centuryYear (bcdToBin yy) ≤ 2038)
    (hm : 1 ≤ m ∧ m ≤ 11) (hshort : daysPerMonth.getD m 0 < daysPerMonth.getD (m - 1) 0) :
    let last : CmosTime :=
      ⟨toBcd 59, toBcd 59, toBcd 23, toBcd (daysPerMonth.getD (m - 1) 0), toBcd m, yy⟩
    let first : CmosTime := ⟨toBcd 0, toBcd 0, toBcd 0, toBcd 1, toBcd (m + 1), yy⟩
    first.unixTime = last.unixTime + 1 ∧
      ∃ t₁ t₂, rtcTime last = some t₁ ∧ rtcTime first = some t₂ ∧ t₂ + 86399 ≤ t₁ := by
  intro last first
  have hm2 : m ≠ 2 := by rintro rfl; exact absurd hshort (by decide)
  have hlen := daysPerMonth_bounds m (by omega) hm.1
  have hmonth : monthLength (centuryYear (bcdToBin yy)) m = daysPerMonth.getD (m - 1) 0 := by
    simp [monthLength, hm2]
  have hlast : bcdToBin (toBcd (daysPerMonth.getD (m - 1) 0)) = daysPerMonth.getD (m - 1) 0 :=
    bcdToBin_toBcd (by omega)
  have hm₁ : bcdToBin (toBcd m) = m := bcdToBin_toBcd (by omega)
  have hm₂ : bcdToBin (toBcd (m + 1)) = m + 1 := bcdToBin_toBcd (by omega)
  have h₁ := rtcTime_eq last hy (by simp only [last, hm₁]; omega) (by simp only [last, hlast]; omega)
  have h₂ := rtcTime_eq first hy (by simp only [first, hm₂]; omega)
    (show 1 ≤ bcdToBin (toBcd 1) by decide)
  refine ⟨?_, _, _, h₁, h₂, ?_⟩
  · simp only [CmosTime.unixTime, unixTime, last, first]
    simp (disch := omega) only [bcdToBin_toBcd]
    rw [epochDays_next_month _ (by omega), hmonth]
    omega
  · simp only [last, first]
    simp (disch := omega) only [bcdToBin_toBcd]
    rw [codeDays, codeDays, monthsBefore_succ]
    split <;> split <;> omega

theorem rtc_get_time_backwards_january :
    let last : CmosTime :=
      ⟨toBcd 59, toBcd 59, toBcd 23, toBcd (daysPerMonth.getD 0 0), toBcd 1, 0x24⟩
    let first : CmosTime := ⟨toBcd 0, toBcd 0, toBcd 0, toBcd 1, toBcd 2, 0x24⟩
    first.unixTime = last.unixTime + 1 ∧
      ∃ t₁ t₂, rtcTime last = some t₁ ∧ rtcTime first = some t₂ ∧ t₂ + 86399 ≤ t₁ :=
  rtc_get_time_backwards 0x24 1 (by decide) (by decide) (by decide)

end Pintos.Devices
