import Pintos.Lib.Search

/-! # `lib/kernel/bitmap.c`

The bitmap over a list of bits, one per element; `bit_cnt` is its length. Here `bitmap_test`
reads the bit that `bitmap_mark` and `bitmap_reset` write; `Packed` models the packing of the bits
into `elem_type` words and shows that it refines this model. A function returns `none` where the C code fails an `ASSERT`, and
`bitmap_scan` returns `some none` for `BITMAP_ERROR`.
-/

namespace Pintos.KBitmap
open Search
set_option autoImplicit false

structure Bitmap where
  bits : List Bool
deriving DecidableEq, Repr

def Bitmap.bit (b : Bitmap) (j : Nat) : Bool := b.bits.getD j false

/-- Every bit of `[start, start + cnt)` is `value`. -/
def Bitmap.Uniform (b : Bitmap) (start cnt : Nat) (value : Bool) : Prop :=
  ∀ j, start ≤ j → j < start + cnt → b.bit j = value

/-- `sizeof (elem_type) * CHAR_BIT` for the 32-bit `unsigned long`. -/
def ELEM_BITS : Nat := 32

def elemCnt (bitCnt : Nat) : Nat := (bitCnt + ELEM_BITS - 1) / ELEM_BITS

def byteCnt (bitCnt : Nat) : Nat := 4 * elemCnt bitCnt

/-- `sizeof (struct bitmap)` is 8 on the 32-bit target. -/
def bitmapBufSize (bitCnt : Nat) : Nat := 8 + byteCnt bitCnt

def bitmapCreateInBuf (bitCnt blockSize : Nat) : Option Bitmap :=
  if blockSize ≥ bitmapBufSize bitCnt then some ⟨List.replicate bitCnt false⟩ else none

def bitmapSize (b : Bitmap) : Nat := b.bits.length

def bitmapSet (b : Bitmap) (idx : Nat) (value : Bool) : Option Bitmap :=
  if idx < bitmapSize b then some ⟨b.bits.set idx value⟩ else none

def bitmapTest (b : Bitmap) (idx : Nat) : Option Bool :=
  if idx < bitmapSize b then some (b.bit idx) else none

/-- The loop of `bitmap_set_multiple` from `i`, with `k` rounds left. -/
def setMultipleFrom (start : Nat) (value : Bool) : Nat → Bitmap → Nat → Option Bitmap
  | 0, b, _ => some b
  | k + 1, b, i => do
    let b ← bitmapSet b (start + i) value
    setMultipleFrom start value k b (i + 1)

def bitmapSetMultiple (b : Bitmap) (start cnt : Nat) (value : Bool) : Option Bitmap :=
  if start ≤ bitmapSize b ∧ start + cnt ≤ bitmapSize b then setMultipleFrom start value cnt b 0
  else none

def containsFrom (b : Bitmap) (start : Nat) (value : Bool) : Nat → Nat → Option Bool
  | 0, _ => some false
  | k + 1, i => do
    if (← bitmapTest b (start + i)) = value then return true
    containsFrom b start value k (i + 1)

def bitmapContains (b : Bitmap) (start cnt : Nat) (value : Bool) : Option Bool :=
  if start ≤ bitmapSize b ∧ start + cnt ≤ bitmapSize b then containsFrom b start value cnt 0
  else none

/-- The loop of `bitmap_count` from `i`, with `k` rounds left and `valueCnt` bits counted. -/
def countFrom (b : Bitmap) (start : Nat) (value : Bool) : Nat → Nat → Nat → Option Nat
  | 0, _, valueCnt => some valueCnt
  | k + 1, i, valueCnt => do
    let valueCnt := if (← bitmapTest b (start + i)) = value then valueCnt + 1 else valueCnt
    countFrom b start value k (i + 1) valueCnt

def bitmapCount (b : Bitmap) (start cnt : Nat) (value : Bool) : Option Nat :=
  if start ≤ bitmapSize b ∧ start + cnt ≤ bitmapSize b then countFrom b start value cnt 0 0
  else none

def bitmapAny (b : Bitmap) (start cnt : Nat) : Option Bool := bitmapContains b start cnt true

def bitmapNone (b : Bitmap) (start cnt : Nat) : Option Bool := do
  return !(← bitmapContains b start cnt true)

def bitmapAll (b : Bitmap) (start cnt : Nat) : Option Bool := do
  return !(← bitmapContains b start cnt false)

/-- The loop `for (i = start; i <= last; i++)` of `bitmap_scan`, with `k` rounds left. -/
def scanFrom (b : Bitmap) (cnt : Nat) (value : Bool) : Nat → Nat → Option (Option Nat)
  | 0, _ => some none
  | k + 1, i => do
    if !(← bitmapContains b i cnt !value) then return some i
    scanFrom b cnt value k (i + 1)

def bitmapScan (b : Bitmap) (start cnt : Nat) (value : Bool) : Option (Option Nat) :=
  if start ≤ bitmapSize b then
    if cnt ≤ bitmapSize b then scanFrom b cnt value (bitmapSize b - cnt + 1 - start) start
    else some none
  else none

def bitmapScanAndFlip (b : Bitmap) (start cnt : Nat) (value : Bool) :
    Option (Bitmap × Option Nat) := do
  match ← bitmapScan b start cnt value with
  | some idx => return (← bitmapSetMultiple b idx cnt !value, some idx)
  | none => return (b, none)

/-! ## What each function computes -/

section Spec
variable {b : Bitmap}

theorem bit_set {idx : Nat} (j : Nat) (v : Bool) (h : idx < bitmapSize b) :
    Bitmap.bit ⟨b.bits.set idx v⟩ j = if j = idx then v else b.bit j := by
  simp only [Bitmap.bit, List.getD_eq_getElem?_getD, List.getElem?_set]
  by_cases hj : idx = j
  · subst hj
    simp [show idx < b.bits.length from h]
  · simp [hj, Ne.symm hj]

theorem bit_replicate_false (n j : Nat) : Bitmap.bit ⟨List.replicate n false⟩ j = false := by
  simp only [Bitmap.bit, List.getD_eq_getElem?_getD, List.getElem?_replicate]
  split <;> rfl

theorem setMultipleFrom_spec (start : Nat) (v : Bool) (k : Nat) :
    ∀ (b : Bitmap) (i : Nat), start + i + k ≤ bitmapSize b →
      ∃ b', setMultipleFrom start v k b i = some b' ∧ bitmapSize b' = bitmapSize b ∧
        ∀ j, b'.bit j = if start + i ≤ j ∧ j < start + i + k then v else b.bit j := by
  induction k with
  | zero =>
    intro b i _
    refine ⟨b, rfl, rfl, fun j => ?_⟩
    rw [if_neg (by omega)]
  | succ k ih =>
    intro b i hk
    have hset : bitmapSet b (start + i) v = some ⟨b.bits.set (start + i) v⟩ :=
      if_pos (by omega)
    have hsize : bitmapSize ⟨b.bits.set (start + i) v⟩ = bitmapSize b := List.length_set ..
    obtain ⟨b', hrun, hsize', hbit⟩ := ih ⟨b.bits.set (start + i) v⟩ (i + 1) (by omega)
    refine ⟨b', by simp [setMultipleFrom, hset, hrun], hsize'.trans hsize, fun j => ?_⟩
    rw [hbit j, bit_set j v (by omega)]
    by_cases h1 : start + (i + 1) ≤ j ∧ j < start + (i + 1) + k
    · rw [if_pos h1, if_pos (by omega)]
    · rw [if_neg h1]
      by_cases h2 : j = start + i
      · rw [if_pos h2, if_pos (by omega)]
      · rw [if_neg h2, if_neg (by omega)]

theorem bitmapSetMultiple_spec {start cnt : Nat} (v : Bool) (h : start + cnt ≤ bitmapSize b) :
    ∃ b', bitmapSetMultiple b start cnt v = some b' ∧ bitmapSize b' = bitmapSize b ∧
      ∀ j, b'.bit j = if start ≤ j ∧ j < start + cnt then v else b.bit j := by
  obtain ⟨b', hrun, hsize, hbit⟩ := setMultipleFrom_spec start v cnt b 0 (by omega)
  exact ⟨b', by rw [bitmapSetMultiple, if_pos ⟨by omega, h⟩, hrun], hsize, by simpa using hbit⟩

theorem containsFrom_spec (start : Nat) (v : Bool) (k : Nat) :
    ∀ i, start + i + k ≤ bitmapSize b →
      ∃ c, containsFrom b start v k i = some c ∧
        (c = true ↔ ∃ j, start + i ≤ j ∧ j < start + i + k ∧ b.bit j = v) := by
  induction k with
  | zero =>
    intro i _
    exact ⟨false, rfl, by simp only [Bool.false_eq_true, false_iff]; omega⟩
  | succ k ih =>
    intro i hk
    have htest : bitmapTest b (start + i) = some (b.bit (start + i)) := if_pos (by omega)
    by_cases hv : b.bit (start + i) = v
    · refine ⟨true, by simp [containsFrom, htest, hv], ?_⟩
      simp only [true_iff]
      exact ⟨start + i, by omega, by omega, hv⟩
    · obtain ⟨c, hrun, hc⟩ := ih (i + 1) (by omega)
      refine ⟨c, by simp [containsFrom, htest, hv, hrun], hc.trans ⟨?_, ?_⟩⟩
      · rintro ⟨j, h1, h2, hj⟩
        exact ⟨j, by omega, by omega, hj⟩
      · rintro ⟨j, h1, h2, hj⟩
        refine ⟨j, ?_, by omega, hj⟩
        rcases Nat.eq_or_lt_of_le h1 with rfl | hlt
        · exact absurd hj hv
        · omega

theorem bitmapContains_spec {start cnt : Nat} (v : Bool) (h : start + cnt ≤ bitmapSize b) :
    ∃ c, bitmapContains b start cnt v = some c ∧
      (c = true ↔ ∃ j, start ≤ j ∧ j < start + cnt ∧ b.bit j = v) := by
  obtain ⟨c, hrun, hc⟩ := containsFrom_spec start v cnt 0 (by omega)
  exact ⟨c, by rw [bitmapContains, if_pos ⟨by omega, h⟩, hrun], by simpa using hc⟩

theorem countFrom_spec (start : Nat) (v : Bool) (k : Nat) :
    ∀ i n, start + i + k ≤ bitmapSize b →
      countFrom b start v k i n = some (n + (List.range' (start + i) k).countP fun j => b.bit j = v) := by
  induction k with
  | zero => intro i n _; rfl
  | succ k ih =>
    intro i n hk
    have htest : bitmapTest b (start + i) = some (b.bit (start + i)) := if_pos (by omega)
    have hstep : countFrom b start v (k + 1) i n =
        countFrom b start v k (i + 1) (if b.bit (start + i) = v then n + 1 else n) := by
      simp [countFrom, htest]
    rw [hstep, ih (i + 1) _ (by omega), List.range'_succ, List.countP_cons, Nat.add_assoc start i 1]
    by_cases hv : b.bit (start + i) = v
    · simp only [hv, if_true, decide_true, Option.some.injEq]
      omega
    · simp [hv]

theorem bitmapCount_spec {start cnt : Nat} (v : Bool) (h : start + cnt ≤ bitmapSize b) :
    bitmapCount b start cnt v = some ((List.range' start cnt).countP fun j => b.bit j = v) := by
  rw [bitmapCount, if_pos ⟨by omega, h⟩, countFrom_spec start v cnt 0 0 (by omega)]
  simp

theorem not_contains_iff_uniform {start cnt : Nat} {v : Bool} :
    (¬∃ j, start ≤ j ∧ j < start + cnt ∧ b.bit j = !v) ↔ b.Uniform start cnt v := by
  simp only [Bitmap.Uniform, not_exists, not_and]
  refine forall_congr' fun j => ?_
  cases b.bit j <;> cases v <;> simp

theorem bitmapAll_spec {start cnt : Nat} (h : start + cnt ≤ bitmapSize b) :
    ∃ c, bitmapAll b start cnt = some c ∧ (c = true ↔ b.Uniform start cnt true) := by
  obtain ⟨c, hrun, hc⟩ := bitmapContains_spec false h
  refine ⟨!c, by simp [bitmapAll, hrun], ?_⟩
  rw [← not_contains_iff_uniform, Bool.not_true, ← hc]
  cases c <;> simp

theorem bitmapAny_spec {start cnt : Nat} (h : start + cnt ≤ bitmapSize b) :
    ∃ c, bitmapAny b start cnt = some c ∧ (c = true ↔ ∃ j, start ≤ j ∧ j < start + cnt ∧ b.bit j) :=
  bitmapContains_spec true h

theorem bitmapNone_spec {start cnt : Nat} (h : start + cnt ≤ bitmapSize b) :
    ∃ c, bitmapNone b start cnt = some c ∧ (c = true ↔ b.Uniform start cnt false) := by
  obtain ⟨c, hrun, hc⟩ := bitmapContains_spec true h
  refine ⟨!c, by simp [bitmapNone, hrun], ?_⟩
  rw [← not_contains_iff_uniform, Bool.not_false, ← hc]
  cases c <;> simp

theorem scanFrom_spec (b : Bitmap) (cnt : Nat) (v : Bool) (k : Nat) :
    ∀ i, i + k + cnt ≤ bitmapSize b + 1 →
      ∃ r, scanFrom b cnt v k i = some r ∧ IsFirst (window (b.Uniform · cnt v) i k) r := by
  induction k with
  | zero => exact fun i _ => ⟨none, rfl, isFirst_window_zero i⟩
  | succ k ih =>
    intro i hk
    have hcon : ∃ c, bitmapContains b i cnt (!v) = some c ∧
        (c = true ↔ ∃ j, i ≤ j ∧ j < i + cnt ∧ b.bit j = !v) := bitmapContains_spec (!v) (by omega)
    obtain ⟨c, hc, hciff⟩ := hcon
    cases hcv : c with
    | false =>
      have hu : b.Uniform i cnt v := not_contains_iff_uniform.mp fun hj => by
        rw [← hciff, hcv] at hj
        exact Bool.false_ne_true hj
      exact ⟨some i, by simp [scanFrom, hc, hcv], isFirst_window_hit hu k⟩
    | true =>
      have hu : ¬b.Uniform i cnt v := fun hu => not_contains_iff_uniform.mpr hu (hciff.mp hcv)
      obtain ⟨r, hrun, hr⟩ := ih (i + 1) (by omega)
      exact ⟨r, by simp [scanFrom, hc, hcv, hrun], hr.window_miss hu⟩

theorem bitmapScan_spec (b : Bitmap) (start cnt : Nat) (v : Bool) (h : start ≤ bitmapSize b) :
    ∃ r, bitmapScan b start cnt v = some r ∧
      IsFirst {x | start ≤ x ∧ x + cnt ≤ bitmapSize b ∧ b.Uniform x cnt v} r := by
  by_cases hcnt : cnt ≤ bitmapSize b
  · by_cases hlast : start ≤ bitmapSize b - cnt
    · obtain ⟨r, hrun, hr⟩ := scanFrom_spec b cnt v (bitmapSize b - cnt + 1 - start) start
        (by omega)
      refine ⟨r, by rw [bitmapScan, if_pos h, if_pos hcnt, hrun], hr.congr ?_⟩
      ext x
      simp only [window, Set.mem_ofPred_eq]
      constructor
      · rintro ⟨h1, h2, hx⟩
        exact ⟨h1, by omega, hx⟩
      · rintro ⟨h1, h2, hx⟩
        exact ⟨h1, by omega, hx⟩
    · -- no window fits after `start`: the loop does not run
      have hk : bitmapSize b - cnt + 1 - start = 0 := by omega
      refine ⟨none, by rw [bitmapScan, if_pos h, if_pos hcnt, hk]; rfl, ?_⟩
      ext x
      simp only [Set.mem_ofPred_eq, Set.mem_empty_iff_false, iff_false]
      omega
  · refine ⟨none, by rw [bitmapScan, if_pos h, if_neg hcnt], ?_⟩
    ext x
    simp only [Set.mem_ofPred_eq, Set.mem_empty_iff_false, iff_false]
    omega

theorem bitmapScanAndFlip_spec (b : Bitmap) (start cnt : Nat) (v : Bool) (h : start ≤ bitmapSize b) :
    ∃ r b', bitmapScanAndFlip b start cnt v = some (b', r) ∧
      IsFirst {x | start ≤ x ∧ x + cnt ≤ bitmapSize b ∧ b.Uniform x cnt v} r ∧
      match r with
      | some x => bitmapSize b' = bitmapSize b ∧
          ∀ j, b'.bit j = if x ≤ j ∧ j < x + cnt then !v else b.bit j
      | none => b' = b := by
  obtain ⟨r, hscan, hr⟩ := bitmapScan_spec b start cnt v h
  cases r with
  | none => exact ⟨none, b, by simp [bitmapScanAndFlip, hscan], hr, rfl⟩
  | some x =>
    obtain ⟨b', hset, hsize, hbit⟩ := bitmapSetMultiple_spec (!v) hr.mem.2.1
    exact ⟨some x, b', by simp [bitmapScanAndFlip, hscan, hset], hr, hsize, hbit⟩

theorem Bitmap.ext_bit {c c' : Bitmap} (hsize : bitmapSize c = bitmapSize c')
    (hbit : ∀ j, j < bitmapSize c → c.bit j = c'.bit j) : c = c' := by
  obtain ⟨l⟩ := c
  obtain ⟨l'⟩ := c'
  congr 1
  refine List.ext_getElem hsize fun j h1 h2 => ?_
  have hj := hbit j h1
  simp only [Bitmap.bit, List.getD_eq_getElem?_getD, List.getElem?_eq_getElem h1,
    List.getElem?_eq_getElem h2, Option.getD_some] at hj
  exact hj

end Spec

end Pintos.KBitmap
