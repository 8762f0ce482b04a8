import Pintos.Kernel.Bitmap

/-! # `lib/kernel/bitmap.c` over its words

`struct bitmap` holds `bit_cnt` and an array of `elem_type` words, the 32-bit `unsigned long`:
bit `i` of the bitmap is bit `i % ELEM_BITS` of word `elem_idx (i)`. `PackedBitmap` is that
representation with as many words as `elem_cnt (bit_cnt)`, and its functions are `bitmap.c`'s:
`bitmap_mark`, `bitmap_reset` and `bitmap_flip` change one word, and the loops of
`bitmap_set_multiple`, `bitmap_count`, `bitmap_contains` and `bitmap_scan` go through
`bitmap_set` and `bitmap_test` as the C code does.

`PackedBitmap.toBitmap` reads the `bit_cnt` bits back, and every function here commutes with it:
the words refine the array of bits of `Bitmap`, whose loop lemmas then hold of the words. The
padding bits of the last word are never read; `bitmap_create_in_buf` leaves them as the buffer
had them.
-/

namespace Pintos.KBitmap
open Search
set_option autoImplicit false

def elemIdx (bitIdx : Nat) : Nat := bitIdx / ELEM_BITS

def bitMask (bitIdx : Nat) : UInt32 := 1 <<< (bitIdx % ELEM_BITS).toUInt32

structure PackedBitmap where
  bitCnt : Nat
  bits : List UInt32
  length_bits : bits.length = elemCnt bitCnt

namespace PackedBitmap

/-- Bit `j`, as `bitmap_test` reads it. -/
def bit (b : PackedBitmap) (j : Nat) : Bool := (b.bits.getD (elemIdx j) 0 &&& bitMask j) != 0

/-- The array of `bit_cnt` bits that the words stand for. -/
def toBitmap (b : PackedBitmap) : Bitmap := ⟨(List.range b.bitCnt).map b.bit⟩

def bitmapSize (b : PackedBitmap) : Nat := b.bitCnt

/-- `b->bits[idx] = op (b->bits[idx], mask)` for the word and mask of `bit_idx`, the one write of
`bitmap_mark`, `bitmap_reset` and `bitmap_flip`. None of them checks `bit_idx`; a word outside
the array is `none`. -/
def modifyWord (op : UInt32 → UInt32 → UInt32) (b : PackedBitmap) (bitIdx : Nat) :
    Option PackedBitmap :=
  if elemIdx bitIdx < b.bits.length then
    some ⟨b.bitCnt, b.bits.modify (elemIdx bitIdx) (op · (bitMask bitIdx)),
      by rw [List.length_modify, b.length_bits]⟩
  else none

def bitmapMark (b : PackedBitmap) (bitIdx : Nat) : Option PackedBitmap :=
  modifyWord (fun w mask => w ||| mask) b bitIdx

def bitmapReset (b : PackedBitmap) (bitIdx : Nat) : Option PackedBitmap :=
  modifyWord (fun w mask => w &&& ~~~mask) b bitIdx

def bitmapFlip (b : PackedBitmap) (bitIdx : Nat) : Option PackedBitmap :=
  modifyWord (fun w mask => w ^^^ mask) b bitIdx

def bitmapSet (b : PackedBitmap) (idx : Nat) (value : Bool) : Option PackedBitmap :=
  if idx < b.bitCnt then if value then bitmapMark b idx else bitmapReset b idx else none

def bitmapTest (b : PackedBitmap) (idx : Nat) : Option Bool :=
  if idx < b.bitCnt then some (b.bit idx) else none

def setMultipleFrom (start : Nat) (value : Bool) : Nat → PackedBitmap → Nat → Option PackedBitmap
  | 0, b, _ => some b
  | k + 1, b, i => do
    let b ← bitmapSet b (start + i) value
    setMultipleFrom start value k b (i + 1)

def bitmapSetMultiple (b : PackedBitmap) (start cnt : Nat) (value : Bool) : Option PackedBitmap :=
  if start ≤ b.bitCnt ∧ start + cnt ≤ b.bitCnt then setMultipleFrom start value cnt b 0 else none

def bitmapSetAll (b : PackedBitmap) (value : Bool) : Option PackedBitmap :=
  bitmapSetMultiple b 0 (bitmapSize b) value

/-- `bitmap_create_in_buf` over a buffer whose words are `block`. -/
def bitmapCreateInBuf (bitCnt : Nat) (block : Nat → UInt32) (blockSize : Nat) :
    Option PackedBitmap :=
  if blockSize ≥ bitmapBufSize bitCnt then
    bitmapSetAll ⟨bitCnt, (List.range (elemCnt bitCnt)).map block, by simp⟩ false
  else none

def countFrom (b : PackedBitmap) (start : Nat) (value : Bool) : Nat → Nat → Nat → Option Nat
  | 0, _, valueCnt => some valueCnt
  | k + 1, i, valueCnt => do
    let valueCnt := if (← bitmapTest b (start + i)) = value then valueCnt + 1 else valueCnt
    countFrom b start value k (i + 1) valueCnt

def bitmapCount (b : PackedBitmap) (start cnt : Nat) (value : Bool) : Option Nat :=
  if start ≤ b.bitCnt ∧ start + cnt ≤ b.bitCnt then countFrom b start value cnt 0 0 else none

def containsFrom (b : PackedBitmap) (start : Nat) (value : Bool) : Nat → Nat → Option Bool
  | 0, _ => some false
  | k + 1, i => do
    if (← bitmapTest b (start + i)) = value then return true
    containsFrom b start value k (i + 1)

def bitmapContains (b : PackedBitmap) (start cnt : Nat) (value : Bool) : Option Bool :=
  if start ≤ b.bitCnt ∧ start + cnt ≤ b.bitCnt then containsFrom b start value cnt 0 else none

def bitmapAny (b : PackedBitmap) (start cnt : Nat) : Option Bool := bitmapContains b start cnt true

def bitmapNone (b : PackedBitmap) (start cnt : Nat) : Option Bool := do
  return !(← bitmapContains b start cnt true)

def bitmapAll (b : PackedBitmap) (start cnt : Nat) : Option Bool := do
  return !(← bitmapContains b start cnt false)

def scanFrom (b : PackedBitmap) (cnt : Nat) (value : Bool) : Nat → Nat → Option (Option Nat)
  | 0, _ => some none
  | k + 1, i => do
    if !(← bitmapContains b i cnt !value) then return some i
    scanFrom b cnt value k (i + 1)

def bitmapScan (b : PackedBitmap) (start cnt : Nat) (value : Bool) : Option (Option Nat) :=
  if start ≤ b.bitCnt then
    if cnt ≤ b.bitCnt then scanFrom b cnt value (b.bitCnt - cnt + 1 - start) start
    else some none
  else none

def bitmapScanAndFlip (b : PackedBitmap) (start cnt : Nat) (value : Bool) :
    Option (PackedBitmap × Option Nat) := do
  match ← bitmapScan b start cnt value with
  | some idx => return (← bitmapSetMultiple b idx cnt !value, some idx)
  | none => return (b, none)

/-! ## The bits of one word -/

theorem toBitVec_bitMask (j : Nat) : (bitMask j).toBitVec = 1#32 <<< (j % 32) := by
  simp [bitMask, ELEM_BITS]

theorem getLsbD_bitMask (j k : Nat) : (bitMask j).toBitVec.getLsbD k = decide (k = j % 32) := by
  rw [toBitVec_bitMask, BitVec.getLsbD_shiftLeft, BitVec.getLsbD_one]
  by_cases h : k = j % 32
  · subst h
    simp
    omega
  · simp [h]
    omega

theorem and_bitMask_ne_zero (w : UInt32) (j : Nat) :
    (w &&& bitMask j != 0) = w.toBitVec.getLsbD (j % 32) := by
  cases hb : w.toBitVec.getLsbD (j % 32) with
  | true =>
    have h1 : (w &&& bitMask j).toBitVec.getLsbD (j % 32) = true := by
      rw [UInt32.toBitVec_and, BitVec.getLsbD_and, hb, getLsbD_bitMask]
      simp
    simp only [bne_iff_ne, ne_eq]
    intro h0
    rw [h0] at h1
    simp at h1
  | false =>
    have h0 : w &&& bitMask j = 0 := by
      apply UInt32.toBitVec_inj.mp
      apply BitVec.eq_of_getLsbD_eq
      intro i _
      rw [UInt32.toBitVec_and, BitVec.getLsbD_and, getLsbD_bitMask]
      by_cases h : i = j % 32
      · subst h
        simp [hb]
      · simp [h]
    simp [h0]

/-- How an operation of `bitmap_mark`, `bitmap_reset` or `bitmap_flip` acts on each bit of the
word: by `g`, told whether the bit is the masked one. -/
def BitLaw (op : UInt32 → UInt32 → UInt32) (g : Bool → Bool → Bool) : Prop :=
  (∀ w i k, k < 32 → (op w (bitMask i)).toBitVec.getLsbD k =
    g (w.toBitVec.getLsbD k) (decide (k = i % 32))) ∧ ∀ x, g x false = x

theorem bitLaw_or : BitLaw (fun w mask => w ||| mask) (· || ·) :=
  ⟨fun w i k _ => by rw [UInt32.toBitVec_or, BitVec.getLsbD_or, getLsbD_bitMask], Bool.or_false⟩

theorem bitLaw_and_not : BitLaw (fun w mask => w &&& ~~~mask) (fun x c => x && !c) := by
  refine ⟨fun w i k hk => ?_, fun x => by simp⟩
  rw [UInt32.toBitVec_and, UInt32.toBitVec_not, BitVec.getLsbD_and, BitVec.getLsbD_not,
    getLsbD_bitMask]
  simp [hk]

theorem bitLaw_xor : BitLaw (fun w mask => w ^^^ mask) (· ^^ ·) :=
  ⟨fun w i k _ => by rw [UInt32.toBitVec_xor, BitVec.getLsbD_xor, getLsbD_bitMask], Bool.xor_false⟩

/-! ## The bits of the bitmap -/

section Bits
variable {b : PackedBitmap}

theorem bit_eq_getLsbD (b : PackedBitmap) (j : Nat) :
    b.bit j = (b.bits.getD (elemIdx j) 0).toBitVec.getLsbD (j % 32) :=
  and_bitMask_ne_zero _ j

theorem elemIdx_lt {j : Nat} (hj : j < b.bitCnt) : elemIdx j < b.bits.length := by
  rw [b.length_bits, elemIdx, elemCnt, ELEM_BITS]
  omega

theorem eq_of_elemIdx_eq {i j : Nat} (hw : elemIdx j = elemIdx i) (hk : j % 32 = i % 32) : j = i := by
  simp only [elemIdx, ELEM_BITS] at hw
  omega

@[simp] theorem bitmapSize_toBitmap (b : PackedBitmap) : KBitmap.bitmapSize b.toBitmap = b.bitCnt := by
  simp [toBitmap, KBitmap.bitmapSize]

theorem bit_toBitmap (b : PackedBitmap) (j : Nat) :
    b.toBitmap.bit j = if j < b.bitCnt then b.bit j else false := by
  simp only [toBitmap, Bitmap.bit, List.getD_eq_getElem?_getD, List.getElem?_map]
  by_cases hj : j < b.bitCnt
  · simp [hj]
  · simp [hj]

theorem modifyWord_some (op : UInt32 → UInt32 → UInt32) {i : Nat} (hi : i < b.bitCnt) :
    ∃ b', modifyWord op b i = some b' ∧ b'.bitCnt = b.bitCnt ∧
      b'.bits = b.bits.modify (elemIdx i) (op · (bitMask i)) :=
  ⟨_, if_pos (elemIdx_lt hi), rfl, rfl⟩

theorem bit_modifyWord {op : UInt32 → UInt32 → UInt32} {g : Bool → Bool → Bool}
    (hop : BitLaw op g) {b b' : PackedBitmap} {i : Nat} (h : modifyWord op b i = some b')
    (j : Nat) : b'.bit j = g (b.bit j) (decide (j = i)) := by
  unfold modifyWord at h
  split at h
  · cases h
    rw [bit_eq_getLsbD, bit_eq_getLsbD]
    simp only [List.getD_eq_getElem?_getD, List.getElem?_modify]
    have hk : j % 32 < 32 := Nat.mod_lt _ (by decide)
    by_cases hw : elemIdx i = elemIdx j
    · have hlt : elemIdx j < b.bits.length := hw ▸ ‹_›
      simp only [List.getElem?_eq_getElem hlt, hw, if_true, Option.map_eq_map, Option.map_some,
        Option.getD_some]
      rw [hop.1 _ i (j % 32) hk]
      by_cases hji : j = i
      · simp [hji]
      · have : ¬j % 32 = i % 32 := fun hk' => hji (eq_of_elemIdx_eq hw.symm hk')
        simp [this, hji]
    · have hji : j ≠ i := fun hji => hw (hji ▸ rfl)
      cases b.bits[elemIdx j]? <;> simp [hw, hji, hop.2]
  · cases h

theorem toBitmap_modifyWord {op : UInt32 → UInt32 → UInt32} {g : Bool → Bool → Bool}
    (hop : BitLaw op g) {b b' : PackedBitmap} {i : Nat} (h : modifyWord op b i = some b')
    (hi : i < b.bitCnt) : b'.toBitmap = ⟨b.toBitmap.bits.set i (g (b.bit i) true)⟩ := by
  obtain ⟨b'', h', hcnt, -⟩ := modifyWord_some op hi
  rw [h] at h'
  cases h'
  apply Bitmap.ext_bit
  · simp [KBitmap.bitmapSize, toBitmap, hcnt]
  · intro j hj
    rw [bitmapSize_toBitmap, hcnt] at hj
    rw [bit_set j _ (by rwa [bitmapSize_toBitmap]), bit_toBitmap, bit_toBitmap, if_pos hj,
      bit_modifyWord hop h, hcnt]
    by_cases hji : j = i
    · subst hji
      simp [hj]
    · simp [hji, hop.2, hj]

end Bits

/-! ## Each function commutes with `toBitmap` -/

section Refine
variable (b : PackedBitmap)

theorem bitmapTest_toBitmap (idx : Nat) : KBitmap.bitmapTest b.toBitmap idx = bitmapTest b idx := by
  unfold KBitmap.bitmapTest bitmapTest
  rw [bitmapSize_toBitmap]
  split
  · rw [bit_toBitmap, if_pos ‹_›]
  · rfl

theorem map_bitmapSet (idx : Nat) (v : Bool) :
    (bitmapSet b idx v).map toBitmap = KBitmap.bitmapSet b.toBitmap idx v := by
  unfold bitmapSet KBitmap.bitmapSet
  rw [bitmapSize_toBitmap]
  by_cases hi : idx < b.bitCnt
  · rw [if_pos hi, if_pos hi]
    cases v with
    | true =>
      obtain ⟨b', h, -⟩ := modifyWord_some (b := b) (fun w mask => w ||| mask) hi
      rw [if_pos rfl, bitmapMark, h, Option.map_some, toBitmap_modifyWord bitLaw_or h hi,
        Bool.or_true]
    | false =>
      obtain ⟨b', h, -⟩ := modifyWord_some (b := b) (fun w mask => w &&& ~~~mask) hi
      rw [if_neg Bool.false_ne_true, bitmapReset, h, Option.map_some,
        toBitmap_modifyWord bitLaw_and_not h hi, Bool.not_true, Bool.and_false]
  · rw [if_neg hi, if_neg hi]
    rfl

theorem map_setMultipleFrom (start : Nat) (v : Bool) (k : Nat) :
    ∀ (b : PackedBitmap) (i : Nat),
      (setMultipleFrom start v k b i).map toBitmap =
        KBitmap.setMultipleFrom start v k b.toBitmap i := by
  induction k with
  | zero => intro b i; rfl
  | succ k ih =>
    intro b i
    show Option.map toBitmap ((bitmapSet b (start + i) v).bind fun b' => setMultipleFrom start v k b' (i + 1)) =
      (KBitmap.bitmapSet b.toBitmap (start + i) v).bind fun c => KBitmap.setMultipleFrom start v k c (i + 1)
    rw [Option.map_bind, ← map_bitmapSet, Option.bind_map]
    congr 1
    funext b'
    exact ih b' (i + 1)

theorem map_bitmapSetMultiple (start cnt : Nat) (v : Bool) :
    (bitmapSetMultiple b start cnt v).map toBitmap =
      KBitmap.bitmapSetMultiple b.toBitmap start cnt v := by
  unfold bitmapSetMultiple KBitmap.bitmapSetMultiple
  rw [bitmapSize_toBitmap]
  split
  · exact map_setMultipleFrom start v cnt b 0
  · rfl

theorem countFrom_toBitmap (start : Nat) (v : Bool) (k : Nat) :
    ∀ i n, countFrom b start v k i n = KBitmap.countFrom b.toBitmap start v k i n := by
  induction k with
  | zero => intro i n; rfl
  | succ k ih =>
    intro i n
    simp only [countFrom, KBitmap.countFrom, bitmapTest_toBitmap, ih]

theorem bitmapCount_toBitmap (start cnt : Nat) (v : Bool) :
    bitmapCount b start cnt v = KBitmap.bitmapCount b.toBitmap start cnt v := by
  unfold bitmapCount KBitmap.bitmapCount
  rw [bitmapSize_toBitmap, countFrom_toBitmap]

theorem containsFrom_toBitmap (start : Nat) (v : Bool) (k : Nat) :
    ∀ i, containsFrom b start v k i = KBitmap.containsFrom b.toBitmap start v k i := by
  induction k with
  | zero => intro i; rfl
  | succ k ih =>
    intro i
    simp only [containsFrom, KBitmap.containsFrom, bitmapTest_toBitmap, ih]

theorem bitmapContains_toBitmap (start cnt : Nat) (v : Bool) :
    bitmapContains b start cnt v = KBitmap.bitmapContains b.toBitmap start cnt v := by
  unfold bitmapContains KBitmap.bitmapContains
  rw [bitmapSize_toBitmap, containsFrom_toBitmap]

theorem bitmapAny_toBitmap (start cnt : Nat) :
    bitmapAny b start cnt = KBitmap.bitmapAny b.toBitmap start cnt :=
  bitmapContains_toBitmap b start cnt true

theorem bitmapNone_toBitmap (start cnt : Nat) :
    bitmapNone b start cnt = KBitmap.bitmapNone b.toBitmap start cnt := by
  unfold bitmapNone KBitmap.bitmapNone
  rw [bitmapContains_toBitmap]

theorem bitmapAll_toBitmap (start cnt : Nat) :
    bitmapAll b start cnt = KBitmap.bitmapAll b.toBitmap start cnt := by
  unfold bitmapAll KBitmap.bitmapAll
  rw [bitmapContains_toBitmap]

theorem scanFrom_toBitmap (cnt : Nat) (v : Bool) (k : Nat) :
    ∀ i, scanFrom b cnt v k i = KBitmap.scanFrom b.toBitmap cnt v k i := by
  induction k with
  | zero => intro i; rfl
  | succ k ih =>
    intro i
    simp only [scanFrom, KBitmap.scanFrom, bitmapContains_toBitmap, ih]

theorem bitmapScan_toBitmap (start cnt : Nat) (v : Bool) :
    bitmapScan b start cnt v = KBitmap.bitmapScan b.toBitmap start cnt v := by
  unfold bitmapScan KBitmap.bitmapScan
  rw [bitmapSize_toBitmap, scanFrom_toBitmap]

end Refine

/-! ## The words refine the array of bits -/

/-- `b'` has the bits of `b`, but those of `[start, start + cnt)` changed by `f`. -/
def Changes (b b' : PackedBitmap) (start cnt : Nat) (f : Bool → Bool) : Prop :=
  b'.bitCnt = b.bitCnt ∧ ∀ j, b'.toBitmap.bit j =
    if start ≤ j ∧ j < start + cnt then f (b.toBitmap.bit j) else b.toBitmap.bit j

section Contracts
variable {b : PackedBitmap}

theorem changes_of_toBitmap {b' : PackedBitmap} {c : Bitmap} {start cnt : Nat} {f : Bool → Bool}
    (h : b'.toBitmap = c) (hsize : KBitmap.bitmapSize c = KBitmap.bitmapSize b.toBitmap)
    (hbit : ∀ j, c.bit j =
      if start ≤ j ∧ j < start + cnt then f (b.toBitmap.bit j) else b.toBitmap.bit j) :
    Changes b b' start cnt f := by
  refine ⟨?_, fun j => h ▸ hbit j⟩
  rw [← bitmapSize_toBitmap, h, hsize, bitmapSize_toBitmap]

theorem modifyWord_changes {op : UInt32 → UInt32 → UInt32} {g : Bool → Bool → Bool}
    (hop : BitLaw op g) {f : Bool → Bool} (hf : ∀ x, g x true = f x) {i : Nat}
    (hi : i < b.bitCnt) : ∃ b', modifyWord op b i = some b' ∧ Changes b b' i 1 f := by
  obtain ⟨b', h, -⟩ := modifyWord_some (b := b) op hi
  refine ⟨b', h, changes_of_toBitmap (toBitmap_modifyWord hop h hi) (by simp [KBitmap.bitmapSize])
    fun j => ?_⟩
  rw [bit_set j _ (by rwa [bitmapSize_toBitmap])]
  by_cases hji : j = i
  · subst hji
    rw [if_pos rfl, if_pos ⟨le_rfl, by omega⟩, bit_toBitmap, if_pos hi, hf]
  · rw [if_neg hji, if_neg (by omega)]

theorem bitmapMark_changes {i : Nat} (hi : i < b.bitCnt) :
    ∃ b', bitmapMark b i = some b' ∧ Changes b b' i 1 fun _ => true :=
  modifyWord_changes bitLaw_or Bool.or_true hi

theorem bitmapReset_changes {i : Nat} (hi : i < b.bitCnt) :
    ∃ b', bitmapReset b i = some b' ∧ Changes b b' i 1 fun _ => false :=
  modifyWord_changes bitLaw_and_not (fun x => by simp) hi

theorem bitmapFlip_changes {i : Nat} (hi : i < b.bitCnt) :
    ∃ b', bitmapFlip b i = some b' ∧ Changes b b' i 1 not :=
  modifyWord_changes bitLaw_xor Bool.xor_true hi

theorem bitmapSet_changes {i : Nat} (v : Bool) (hi : i < b.bitCnt) :
    ∃ b', bitmapSet b i v = some b' ∧ Changes b b' i 1 fun _ => v := by
  unfold bitmapSet
  rw [if_pos hi]
  cases v
  · exact bitmapReset_changes hi
  · exact bitmapMark_changes hi

theorem bitmapSetMultiple_changes {start cnt : Nat} (v : Bool) (h : start + cnt ≤ b.bitCnt) :
    ∃ b', bitmapSetMultiple b start cnt v = some b' ∧ Changes b b' start cnt fun _ => v := by
  obtain ⟨c, hc, hsize, hbit⟩ : ∃ c, KBitmap.bitmapSetMultiple b.toBitmap start cnt v = some c ∧
      KBitmap.bitmapSize c = KBitmap.bitmapSize b.toBitmap ∧
      ∀ j, c.bit j = if start ≤ j ∧ j < start + cnt then v else b.toBitmap.bit j :=
    bitmapSetMultiple_spec v (by rwa [bitmapSize_toBitmap])
  obtain ⟨b', hb', hc'⟩ := Option.map_eq_some_iff.mp ((map_bitmapSetMultiple b start cnt v).trans hc)
  exact ⟨b', hb', changes_of_toBitmap hc' hsize hbit⟩

theorem bitmapScan_first (start cnt : Nat) (v : Bool) (h : start ≤ b.bitCnt) :
    ∃ r, bitmapScan b start cnt v = some r ∧
      IsFirst {x | start ≤ x ∧ x + cnt ≤ b.bitCnt ∧ b.toBitmap.Uniform x cnt v} r := by
  rw [bitmapScan_toBitmap, ← bitmapSize_toBitmap b]
  exact bitmapScan_spec b.toBitmap start cnt v (by rwa [bitmapSize_toBitmap])

theorem bitmapScanAndFlip_first (start cnt : Nat) (v : Bool) (h : start ≤ b.bitCnt) :
    ∃ r b', bitmapScanAndFlip b start cnt v = some (b', r) ∧
      IsFirst {x | start ≤ x ∧ x + cnt ≤ b.bitCnt ∧ b.toBitmap.Uniform x cnt v} r ∧
      match r with
      | some x => Changes b b' x cnt not
      | none => b' = b := by
  obtain ⟨r, hscan, hr⟩ := bitmapScan_first start cnt v h
  cases r with
  | none => exact ⟨none, b, by simp [bitmapScanAndFlip, hscan], hr, rfl⟩
  | some x =>
    obtain ⟨b', hset, hch⟩ := bitmapSetMultiple_changes (b := b) (!v) hr.mem.2.1
    refine ⟨some x, b', by simp [bitmapScanAndFlip, hscan, hset], hr, hch.1, fun j => ?_⟩
    -- the bits found are all `v`, so setting them to `!v` flips them
    rw [hch.2 j]
    split
    · rw [hr.mem.2.2 j (by omega) (by omega)]
    · rfl

end Contracts

/-- **The packed bitmap refines an array of `bit_cnt` bits.** `bitmap_test` reads the array; each
update with arguments in range changes exactly the bits it addresses, as it says; `bitmap_count`,
`bitmap_contains`, `bitmap_any`, `bitmap_none` and `bitmap_all` answer about the array; and
`bitmap_scan` returns the least fit at or after `start` (`none` for `BITMAP_ERROR`), whose bits
`bitmap_scan_and_flip` then flips. Every bitmap a sequence of calls reaches is a `PackedBitmap`,
so each statement holds after any such sequence. -/
theorem packed_bitmap_refines_bits :
    (∀ (b : PackedBitmap) i, i < b.bitCnt → b.bitmapTest i = some (b.toBitmap.bit i)) ∧
    (∀ (b : PackedBitmap) i v, i < b.bitCnt →
      ∃ b', b.bitmapSet i v = some b' ∧ Changes b b' i 1 fun _ => v) ∧
    (∀ (b : PackedBitmap) i, i < b.bitCnt →
      ∃ b', b.bitmapMark i = some b' ∧ Changes b b' i 1 fun _ => true) ∧
    (∀ (b : PackedBitmap) i, i < b.bitCnt →
      ∃ b', b.bitmapReset i = some b' ∧ Changes b b' i 1 fun _ => false) ∧
    (∀ (b : PackedBitmap) i, i < b.bitCnt → ∃ b', b.bitmapFlip i = some b' ∧ Changes b b' i 1 not) ∧
    (∀ (b : PackedBitmap) start cnt v, start + cnt ≤ b.bitCnt →
      ∃ b', b.bitmapSetMultiple start cnt v = some b' ∧ Changes b b' start cnt fun _ => v) ∧
    (∀ (b : PackedBitmap) start cnt v, start + cnt ≤ b.bitCnt →
      b.bitmapCount start cnt v =
        some ((List.range' start cnt).countP fun j => b.toBitmap.bit j = v)) ∧
    (∀ (b : PackedBitmap) start cnt v, start + cnt ≤ b.bitCnt →
      ∃ c, b.bitmapContains start cnt v = some c ∧
        (c = true ↔ ∃ j, start ≤ j ∧ j < start + cnt ∧ b.toBitmap.bit j = v)) ∧
    (∀ (b : PackedBitmap) start cnt, start + cnt ≤ b.bitCnt →
      ∃ c, b.bitmapAny start cnt = some c ∧
        (c = true ↔ ∃ j, start ≤ j ∧ j < start + cnt ∧ b.toBitmap.bit j)) ∧
    (∀ (b : PackedBitmap) start cnt, start + cnt ≤ b.bitCnt →
      ∃ c, b.bitmapNone start cnt = some c ∧ (c = true ↔ b.toBitmap.Uniform start cnt false)) ∧
    (∀ (b : PackedBitmap) start cnt, start + cnt ≤ b.bitCnt →
      ∃ c, b.bitmapAll start cnt = some c ∧ (c = true ↔ b.toBitmap.Uniform start cnt true)) ∧
    (∀ (b : PackedBitmap) start cnt v, start ≤ b.bitCnt →
      ∃ r, b.bitmapScan start cnt v = some r ∧
        IsFirst {x | start ≤ x ∧ x + cnt ≤ b.bitCnt ∧ b.toBitmap.Uniform x cnt v} r) ∧
    (∀ (b : PackedBitmap) start cnt v, start ≤ b.bitCnt →
      ∃ r b', b.bitmapScanAndFlip start cnt v = some (b', r) ∧
        IsFirst {x | start ≤ x ∧ x + cnt ≤ b.bitCnt ∧ b.toBitmap.Uniform x cnt v} r ∧
        match r with
        | some x => Changes b b' x cnt not
        | none => b' = b) := by
  have hq : ∀ (b : PackedBitmap) (n : Nat), n ≤ b.bitCnt → n ≤ KBitmap.bitmapSize b.toBitmap :=
    fun b n h => by rwa [bitmapSize_toBitmap]
  refine ⟨fun b i hi => ?_, fun b i v hi => bitmapSet_changes v hi,
    fun b i hi => bitmapMark_changes hi, fun b i hi => bitmapReset_changes hi,
    fun b i hi => bitmapFlip_changes hi, fun b start cnt v h => bitmapSetMultiple_changes v h,
    fun b start cnt v h => ?_, fun b start cnt v h => ?_, fun b start cnt h => ?_,
    fun b start cnt h => ?_, fun b start cnt h => ?_,
    fun b start cnt v h => bitmapScan_first start cnt v h,
    fun b start cnt v h => bitmapScanAndFlip_first start cnt v h⟩
  · rw [← bitmapTest_toBitmap]
    exact if_pos (hq b (i + 1) hi)
  · rw [bitmapCount_toBitmap]
    exact bitmapCount_spec v (hq b _ h)
  · rw [bitmapContains_toBitmap]
    exact bitmapContains_spec v (hq b _ h)
  · rw [bitmapAny_toBitmap]
    exact bitmapAny_spec (hq b _ h)
  · rw [bitmapNone_toBitmap]
    exact bitmapNone_spec (hq b _ h)
  · rw [bitmapAll_toBitmap]
    exact bitmapAll_spec (hq b _ h)

/-- Forty bits in two words, the low sixteen set: the first twenty clear bits run across the
word boundary, from bit 16 to bit 35. -/
theorem packed_bitmap_refines_bits_two_words :
    ∃ r b', (⟨40, [0x0000FFFF, 0], rfl⟩ : PackedBitmap).bitmapScanAndFlip 0 20 false = some (b', r) ∧
      IsFirst {x | 0 ≤ x ∧ x + 20 ≤ 40 ∧
        (⟨40, [0x0000FFFF, 0], rfl⟩ : PackedBitmap).toBitmap.Uniform x 20 false} r ∧
      match r with
      | some x => Changes ⟨40, [0x0000FFFF, 0], rfl⟩ b' x 20 not
      | none => b' = ⟨40, [0x0000FFFF, 0], rfl⟩ :=
  packed_bitmap_refines_bits.2.2.2.2.2.2.2.2.2.2.2.2 ⟨40, [0x0000FFFF, 0], rfl⟩ 0 20 false
    (by decide)

example : (⟨40, [0x0000FFFF, 0], rfl⟩ : PackedBitmap).bitmapScan 0 20 false = some (some 16) := by
  decide

end PackedBitmap

end Pintos.KBitmap
