import Pintos.Lib.Compare
import Pintos.Libc.Printf

/-! # `lib/stdlib.c`: searching and sorting

An array is its elements `elems k`, `k < cnt`, of `size` bytes each from the address `array`.
A comparator is a function of the two elements it is handed; `compare_thunk` passes the
two-argument comparator of `bsearch` and `qsort` through `aux` unchanged.

`binary_search` narrows the byte range `[first, last)`. The comparator is only called on the
element at `middle`; `elementAt` returns `none` for an address that is not one of the array's
elements, so a run that returns at all compared `key` with elements of the array only.

`sort` is a heap sort over 1-based indexes, computed in `size_t` as the source does (`2 * i`
wraps at `2 ^ 32`). `heapify` sifts an element down; its state is `SiftReady`, the heap order
everywhere below its start but at the current node. The first loop builds a heap from the middle
down (`buildHeap_spec`), the second moves the root behind the heap and sifts the new root down
(`sortHeap_spec`), keeping the elements after the heap sorted and no smaller than those in it.

* `binary_search_finds`: on an array sorted under a lawful comparator, `binary_search` and
  `bsearch` return a pointer to an element comparing equal to `key`, or `NULL` when there is
  none.
* `heap_sort_sorts`: `sort` and `qsort` return, for an array of fewer than `2 ^ 31` bytes (the
  largest object GCC supports on i386), a permutation of it in non-decreasing order, and leave
  everything outside it unchanged.

`atoi` skips white space and a sign and accumulates the digits negatively. It reads back every
`int` that `snprintf` formats with `%d` without grouping, into a buffer of at most `2 ^ 31`
bytes (`snprintf_atoi_round_trip`): the padding, a space sign and the zeros are all skipped.
-/

namespace Pintos.Libc
set_option autoImplicit false

open Compare

variable {α : Type}

/-- `compare_thunk (a, b, aux)`: the comparator stored in `aux`, called on `a` and `b`. -/
def compareThunk (compare : α → α → Int) : α → α → Int := fun a b => compare a b

/-- `compare_ints` of the `stdlib` test. -/
def compareInts (a b : Int) : Int := if a < b then -1 else if a > b then 1 else 0

theorem compareInts_lawful : Lawful compareInts where
  swap a b := by
    unfold compareInts
    split_ifs <;> omega
  trans a b c := by
    unfold compareInts
    split_ifs <;> omega

/-! ## The search -/

/-- The element at address `p`: one of the `cnt` elements of `size` bytes from `array`, or
`none` for any other address. -/
def elementAt (elems : Nat → α) (array cnt size p : Nat) : Option α :=
  if array ≤ p ∧ (p - array) % size = 0 ∧ (p - array) / size < cnt then
    some (elems ((p - array) / size))
  else none

/-- The loop of `binary_search` over `[first, last)`, for at most `fuel` rounds; `some 0` is
`NULL`. -/
def searchLoop (key : α) (elems : Nat → α) (array cnt size : Nat) (compare : α → α → Int) :
    Nat → Nat → Nat → Option Nat
  | 0, _, _ => none
  | fuel + 1, first, last =>
    if first < last then
      let range := (last - first) / size
      let middle := first + (range / 2) * size
      match elementAt elems array cnt size middle with
      | none => none
      | some m =>
        let cmp := compare key m
        if cmp < 0 then searchLoop key elems array cnt size compare fuel first middle
        else if cmp > 0 then searchLoop key elems array cnt size compare fuel (middle + size) last
        else some middle
    else some 0

/-- `binary_search (key, array, cnt, size, compare, aux)`. -/
def binarySearch (key : α) (elems : Nat → α) (array cnt size : Nat) (compare : α → α → Int) :
    Option Nat :=
  searchLoop key elems array cnt size compare (cnt + 1) array (array + size * cnt)

/-- `bsearch (key, array, cnt, size, compare)`. -/
def bsearch (key : α) (elems : Nat → α) (array cnt size : Nat) (compare : α → α → Int) :
    Option Nat :=
  binarySearch key elems array cnt size (compareThunk compare)

/-- What a search for `key` may return: `NULL` when no element compares equal to `key`, or the
address of one that does. -/
def SearchSpec (compare : α → α → Int) (key : α) (elems : Nat → α) (array cnt size p : Nat) :
    Prop :=
  (p = 0 ∧ ∀ k < cnt, compare key (elems k) ≠ 0) ∨
    ∃ k < cnt, p = array + k * size ∧ compare key (elems k) = 0

section Search
variable {compare : α → α → Int} {key : α} {elems : Nat → α} {array cnt size : Nat}

theorem elementAt_elem (hsize : 0 < size) {k : Nat} (hk : k < cnt) :
    elementAt elems array cnt size (array + k * size) = some (elems k) := by
  have hk' : (array + k * size - array) / size = k := by
    rw [Nat.add_sub_cancel_left, Nat.mul_div_cancel k hsize]
  rw [elementAt, if_pos ⟨Nat.le_add_right _ _, by simp [Nat.mul_mod_left], by omega⟩, hk']

theorem range_div (hsize : 0 < size) (lo hi : Nat) :
    (array + hi * size - (array + lo * size)) / size = hi - lo := by
  rw [Nat.add_sub_add_left, ← Nat.sub_mul, Nat.mul_div_cancel _ hsize]

theorem middle_eq (lo d : Nat) : array + lo * size + d * size = array + (lo + d) * size := by
  rw [Nat.add_mul, Nat.add_assoc]

variable (h : Lawful compare) (hsorted : ∀ i j, i < j → j < cnt → compare (elems i) (elems j) ≤ 0)
include h hsorted

theorem no_match_above {mid : Nat} (hcmp : compare key (elems mid) < 0)
    {k : Nat} (hk : k < cnt) (hmk : mid ≤ k) : compare key (elems k) ≠ 0 := by
  rcases Nat.eq_or_lt_of_le hmk with rfl | hlt
  · omega
  · have := h.neg_of_neg_of_nonpos hcmp (hsorted mid k hlt hk)
    omega

theorem no_match_below {mid : Nat} (hmid : mid < cnt) (hcmp : 0 < compare key (elems mid))
    {k : Nat} (hkm : k ≤ mid) : compare key (elems k) ≠ 0 := by
  rcases Nat.eq_or_lt_of_le hkm with rfl | hlt
  · omega
  · have := h.pos_of_nonpos_of_pos (hsorted k mid hlt hmid) hcmp
    omega

/-- The loop, run from element `lo` to element `hi` with no match outside that range, returns
what `SearchSpec` allows. The induction is on the fuel; each round halves `hi - lo`. -/
theorem searchLoop_spec (hsize : 0 < size) (fuel : Nat) {lo hi : Nat} (hlo : lo ≤ hi)
    (hhi : hi ≤ cnt) (hfuel : hi - lo < fuel) (hout : ∀ k < cnt, k < lo ∨ hi ≤ k → compare key (elems k) ≠ 0) :
    ∃ p, searchLoop key elems array cnt size compare fuel (array + lo * size)
        (array + hi * size) = some p ∧ SearchSpec compare key elems array cnt size p := by
  induction fuel generalizing lo hi with
  | zero => omega
  | succ fuel ih =>
    rw [searchLoop]
    by_cases hlt : lo < hi
    · -- the middle element is element `mid` of the array
      have hfirst : array + lo * size < array + hi * size :=
        Nat.add_lt_add_left (Nat.mul_lt_mul_of_pos_right hlt hsize) _
      set mid := lo + (hi - lo) / 2 with hmid_def
      have hmid : mid < cnt := by omega
      rw [if_pos hfirst, range_div hsize]
      dsimp only
      rw [middle_eq, ← hmid_def, elementAt_elem hsize hmid]
      dsimp only
      by_cases hneg : compare key (elems mid) < 0
      · rw [if_pos hneg]
        apply ih (by omega) (by omega) (by omega)
        intro k hk hkout
        rcases hkout with hk' | hk'
        · exact hout k hk (Or.inl hk')
        · by_cases hkhi : hi ≤ k
          · exact hout k hk (Or.inr hkhi)
          · exact no_match_above h hsorted hneg hk hk'
      · rw [if_neg hneg]
        by_cases hpos : compare key (elems mid) > 0
        · rw [if_pos hpos, show array + mid * size + size = array + (mid + 1) * size by
            rw [Nat.succ_mul, Nat.add_assoc]]
          apply ih (by omega) hhi (by omega)
          intro k hk hkout
          rcases hkout with hk' | hk'
          · by_cases hklo : k < lo
            · exact hout k hk (Or.inl hklo)
            · exact no_match_below h hsorted hmid hpos (by omega)
          · exact hout k hk (Or.inr hk')
        · rw [if_neg hpos]
          exact ⟨_, rfl, Or.inr ⟨mid, hmid, rfl, by omega⟩⟩
    · -- an empty range: no element matches anywhere
      have hfirst : ¬array + lo * size < array + hi * size := by
        rw [Nat.add_lt_add_iff_left]
        exact fun hmul => hlt (Nat.lt_of_mul_lt_mul_right hmul)
      rw [if_neg hfirst]
      exact ⟨0, rfl, Or.inl ⟨rfl, fun k hk => hout k hk (by omega)⟩⟩

theorem binarySearch_spec (hsize : 0 < size) :
    ∃ p, binarySearch key elems array cnt size compare = some p ∧
      SearchSpec compare key elems array cnt size p := by
  have hstart : ∃ p, searchLoop key elems array cnt size compare (cnt + 1) (array + 0 * size)
      (array + cnt * size) = some p ∧ SearchSpec compare key elems array cnt size p :=
    searchLoop_spec h hsorted hsize (cnt + 1) (Nat.zero_le cnt) (Nat.le_refl cnt) (by omega)
      (fun k hk hkout => by omega)
  rw [Nat.zero_mul, Nat.add_zero, Nat.mul_comm] at hstart
  exact hstart

end Search

theorem binary_search_finds {compare : α → α → Int} (h : Lawful compare) (key : α)
    (elems : Nat → α) {array cnt size : Nat} (hsize : 0 < size)
    (hsorted : Sorted compare ((List.range cnt).map elems)) :
    (∃ p, binarySearch key elems array cnt size compare = some p ∧
        SearchSpec compare key elems array cnt size p) ∧
      ∃ p, bsearch key elems array cnt size compare = some p ∧
        SearchSpec compare key elems array cnt size p := by
  have hsorted' := sorted_map_range_iff.mp hsorted
  exact ⟨binarySearch_spec h hsorted' hsize, binarySearch_spec h hsorted' hsize⟩

theorem binary_search_finds_three :
    (∃ p, binarySearch 3 (fun k => (k : Int)) 0x1000 5 4 compareInts = some p ∧
        SearchSpec compareInts 3 (fun k => (k : Int)) 0x1000 5 4 p) ∧
      ∃ p, bsearch 3 (fun k => (k : Int)) 0x1000 5 4 compareInts = some p ∧
        SearchSpec compareInts 3 (fun k => (k : Int)) 0x1000 5 4 p :=
  binary_search_finds compareInts_lawful 3 _ (by decide) (by decide)

example : binarySearch 3 (fun k => (k : Int)) 0x1000 5 4 compareInts = some 0x100c := by decide

/-! ## The heap sort -/

/-- `a_idx - 1` in `size_t`: the element, counted from `0`, that a 1-based index names. -/
def elemIdx (idx : Nat) : Nat := (idx + (2 ^ 32 - 1)) % 2 ^ 32

/-- `do_swap (array, a_idx, b_idx, size)`: exchanging the `size` bytes of two elements one by
one exchanges the elements. -/
def doSwap (elems : Nat → α) (aIdx bIdx : Nat) : Nat → α :=
  elems ∘ Equiv.swap (elemIdx aIdx) (elemIdx bIdx)

/-- `do_compare (array, a_idx, b_idx, size, compare, aux)`. -/
def doCompare (compare : α → α → Int) (elems : Nat → α) (aIdx bIdx : Nat) : Int :=
  compare (elems (elemIdx aIdx)) (elems (elemIdx bIdx))

/-- One test of `heapify`: `max` becomes `c` when `c` is in the heap and its element is
larger. -/
def pickMax (compare : α → α → Int) (elems : Nat → α) (cnt c max : Nat) : Nat :=
  if c ≤ cnt ∧ doCompare compare elems c max > 0 then c else max

/-- `max` in `heapify`: the index of the largest element among `i` and its children, if any. -/
def largest (compare : α → α → Int) (elems : Nat → α) (i cnt : Nat) : Nat :=
  let left := 2 * i % 2 ^ 32
  let right := (2 * i + 1) % 2 ^ 32
  let max := i
  let max := pickMax compare elems cnt left max
  pickMax compare elems cnt right max

/-- `heapify (array, i, cnt, size, compare, aux)`, for at most `fuel` rounds. -/
def heapify (compare : α → α → Int) (elems : Nat → α) (i cnt : Nat) : Nat → Option (Nat → α)
  | 0 => none
  | fuel + 1 =>
    let max := largest compare elems i cnt
    if max = i then some elems
    else heapify compare (doSwap elems i max) max cnt fuel

/-- The first loop of `sort`: `heapify` at `i`, `i - 1`, ..., `1`. -/
def buildHeap (compare : α → α → Int) (cnt : Nat) : Nat → (Nat → α) → Option (Nat → α)
  | 0, elems => some elems
  | i + 1, elems => do
    let elems ← heapify compare elems (i + 1) cnt (cnt + 1)
    buildHeap compare cnt i elems

/-- The second loop of `sort`, for `i`, `i - 1`, ..., `2`. -/
def sortHeap (compare : α → α → Int) : Nat → (Nat → α) → Option (Nat → α)
  | 0, elems => some elems
  | i + 1, elems =>
    if i + 1 > 1 then do
      let elems ← heapify compare (doSwap elems 1 (i + 1)) 1 i (i + 1)
      sortHeap compare i elems
    else some elems

/-- `sort (array, cnt, size, compare, aux)`; a failed `ASSERT` is `none`. -/
def sort (array : Nat) (elems : Nat → α) (cnt size : Nat) (compare : α → α → Int) :
    Option (Nat → α) :=
  if (array ≠ 0 ∨ cnt = 0) ∧ size > 0 then do
    let elems ← buildHeap compare cnt (cnt / 2) elems
    sortHeap compare cnt elems
  else none

/-- `qsort (array, cnt, size, compare)`. -/
def qsort (array : Nat) (elems : Nat → α) (cnt size : Nat) (compare : α → α → Int) :
    Option (Nat → α) :=
  sort array elems cnt size (compareThunk compare)

/-- `r` holds the first `cnt` elements of `elems` in non-decreasing order, and every other
cell of `elems` unchanged. -/
def SortedPerm (compare : α → α → Int) (elems : Nat → α) (cnt : Nat) (r : Nat → α) : Prop :=
  List.Perm ((List.range cnt).map r) ((List.range cnt).map elems) ∧
    Sorted compare ((List.range cnt).map r) ∧ ∀ x, cnt ≤ x → r x = elems x

/-- The heap order of a heap of `cnt` elements below every node from `lo` on: no child's element
is larger than its parent's. -/
def HeapFrom (compare : α → α → Int) (elems : Nat → α) (lo cnt : Nat) : Prop :=
  ∀ c, c ≤ cnt → lo ≤ c / 2 → doCompare compare elems c (c / 2) ≤ 0

/-- The state of `heapify`, started at `lo`, when it is at `k`: the heap order holds below every
node from `lo` on but `k`, and `k`'s parent is no smaller than `k`'s children. -/
structure SiftReady (compare : α → α → Int) (elems : Nat → α) (lo k cnt : Nat) : Prop where
  lo_pos : 0 < lo
  lo_le : lo ≤ k
  le_cnt : k ≤ cnt
  except : ∀ c, c ≤ cnt → lo ≤ c / 2 → c / 2 ≠ k → doCompare compare elems c (c / 2) ≤ 0
  grand : ∀ c, c ≤ cnt → c / 2 = k → lo ≤ k / 2 → doCompare compare elems c (k / 2) ≤ 0

/-- The elements after `i` are in order, and none before them is larger. -/
def SortedAbove (compare : α → α → Int) (elems : Nat → α) (i cnt : Nat) : Prop :=
  ∀ p q, 0 < p → p < q → q ≤ cnt → i < q → doCompare compare elems p q ≤ 0

/-! ### Indexes and swaps -/

section Heap
variable {compare : α → α → Int} {e : Nat → α}

/-- The element a 1-based index names, at `array + (idx - 1) * size`. -/
def element (elems : Nat → α) (idx : Nat) : α := elems (elemIdx idx)

theorem doCompare_eq (a b : Nat) : doCompare compare e a b = compare (element e a) (element e b) :=
  rfl

theorem elemIdx_of_pos {x : Nat} (h0 : 0 < x) (h1 : x ≤ 2 ^ 32) : elemIdx x = x - 1 := by
  unfold elemIdx
  omega

theorem element_doSwap {N a b x : Nat} (hN : N < 2 ^ 32) (ha : 0 < a ∧ a ≤ N)
    (hb : 0 < b ∧ b ≤ N) (hx : 0 < x ∧ x ≤ N) :
    element (doSwap e a b) x = element e (Equiv.swap a b x) := by
  unfold element doSwap
  rw [Function.comp_apply]
  by_cases hxa : x = a
  · rw [hxa, Equiv.swap_apply_left, Equiv.swap_apply_left]
  · by_cases hxb : x = b
    · rw [hxb, Equiv.swap_apply_right, Equiv.swap_apply_right]
    · have hne : ∀ y, 0 < y ∧ y ≤ N → x ≠ y → elemIdx x ≠ elemIdx y := by
        intro y hy hxy
        rw [elemIdx_of_pos hx.1 (by omega), elemIdx_of_pos hy.1 (by omega)]
        omega
      rw [Equiv.swap_apply_of_ne_of_ne (hne a ha hxa) (hne b hb hxb),
        Equiv.swap_apply_of_ne_of_ne hxa hxb]

theorem doCompare_doSwap {N a b x y : Nat} (hN : N < 2 ^ 32) (ha : 0 < a ∧ a ≤ N)
    (hb : 0 < b ∧ b ≤ N) (hx : 0 < x ∧ x ≤ N) (hy : 0 < y ∧ y ≤ N) :
    doCompare compare (doSwap e a b) x y =
      doCompare compare e (Equiv.swap a b x) (Equiv.swap a b y) := by
  rw [doCompare_eq, doCompare_eq, element_doSwap hN ha hb hx, element_doSwap hN ha hb hy]

theorem shuffle_doSwap {N a b : Nat} (hN : N < 2 ^ 32) (ha : 0 < a ∧ a ≤ N)
    (hb : 0 < b ∧ b ≤ N) : Shuffle (doSwap e a b) e N := by
  apply Shuffle.swap
  · rw [elemIdx_of_pos ha.1 (by omega)]
    omega
  · rw [elemIdx_of_pos hb.1 (by omega)]
    omega

/-! ### The largest of a node and its children -/

theorem pickMax_cases (cnt c m : Nat) :
    pickMax compare e cnt c m = m ∨ (pickMax compare e cnt c m = c ∧ c ≤ cnt) := by
  unfold pickMax
  split_ifs with hc
  · exact Or.inr ⟨rfl, hc.1⟩
  · exact Or.inl rfl

theorem largest_eq {i cnt : Nat} (hi : 2 * i + 1 < 2 ^ 32) :
    largest compare e i cnt =
      pickMax compare e cnt (2 * i + 1) (pickMax compare e cnt (2 * i) i) := by
  rw [largest, Nat.mod_eq_of_lt (by omega : 2 * i < 2 ^ 32), Nat.mod_eq_of_lt hi]

theorem largest_cases {i cnt : Nat} (hi : 2 * i + 1 < 2 ^ 32) :
    largest compare e i cnt = i ∨
      (largest compare e i cnt / 2 = i ∧ largest compare e i cnt ≤ cnt) := by
  rw [largest_eq hi]
  rcases pickMax_cases cnt (2 * i + 1) (pickMax compare e cnt (2 * i) i) with h₁ | ⟨h₁, hc⟩
  · rw [h₁]
    rcases pickMax_cases cnt (2 * i) i with h₂ | ⟨h₂, hc⟩
    · exact Or.inl h₂
    · rw [h₂]
      exact Or.inr ⟨by omega, hc⟩
  · rw [h₁]
    exact Or.inr ⟨by omega, hc⟩

variable (h : Lawful compare)
include h

theorem le_pickMax (cnt c m : Nat) : doCompare compare e m (pickMax compare e cnt c m) ≤ 0 := by
  unfold pickMax
  split_ifs with hc
  · exact h.nonpos_of_pos hc.2
  · exact Int.le_of_eq (h.self _)

theorem cand_le_pickMax (cnt c m : Nat) (hc : c ≤ cnt) :
    doCompare compare e c (pickMax compare e cnt c m) ≤ 0 := by
  unfold pickMax
  split_ifs with hc'
  · exact Int.le_of_eq (h.self _)
  · exact Int.not_lt.mp fun hpos => hc' ⟨hc, hpos⟩

theorem le_largest {i cnt : Nat} (hi : 2 * i + 1 < 2 ^ 32) :
    doCompare compare e i (largest compare e i cnt) ≤ 0 := by
  rw [largest_eq hi]
  exact h.trans _ _ _ (le_pickMax h cnt (2 * i) i) (le_pickMax h cnt (2 * i + 1) _)

theorem child_le_largest {i cnt c : Nat} (hi : 2 * i + 1 < 2 ^ 32) (hc : c ≤ cnt)
    (hci : c / 2 = i) : doCompare compare e c (largest compare e i cnt) ≤ 0 := by
  rw [largest_eq hi]
  rcases (by omega : c = 2 * i ∨ c = 2 * i + 1) with rfl | rfl
  · exact h.trans _ _ _ (cand_le_pickMax h cnt _ i hc) (le_pickMax h cnt _ _)
  · exact cand_le_pickMax h cnt _ _ hc

/-! ### `heapify` -/

omit h in
theorem SiftReady.start {lo cnt : Nat} (hpos : 0 < lo) (hlo : lo ≤ cnt)
    (hheap : HeapFrom compare e (lo + 1) cnt) : SiftReady compare e lo lo cnt where
  lo_pos := hpos
  lo_le := Nat.le_refl lo
  le_cnt := hlo
  except c hc hloc hne := hheap c hc (by omega)
  grand _ _ _ hlo' := absurd hlo' (by omega)

variable {lo k cnt : Nat}

theorem SiftReady.heapFrom (hr : SiftReady compare e lo k cnt) (hcnt : cnt < 2 ^ 31)
    (hmax : largest compare e k cnt = k) : HeapFrom compare e lo cnt := by
  intro c hc hloc
  by_cases hck : c / 2 = k
  · have hle := child_le_largest (e := e) h (by have := hr.le_cnt; omega) hc hck
    rw [hmax] at hle
    rw [hck]
    exact hle
  · exact hr.except c hc hloc hck

theorem SiftReady.swap (hr : SiftReady compare e lo k cnt) (hcnt : cnt < 2 ^ 31)
    (hmax : largest compare e k cnt ≠ k) :
    SiftReady compare (doSwap e k (largest compare e k cnt)) lo (largest compare e k cnt) cnt := by
  have hk1 : 2 * k + 1 < 2 ^ 32 := by have := hr.le_cnt; omega
  obtain ⟨hmk, hmc⟩ := (largest_cases hk1).resolve_left hmax
  set m := largest compare e k cnt with hm
  have hlo := hr.lo_pos
  have hlk := hr.lo_le
  have hN : cnt < 2 ^ 32 := by omega
  refine ⟨hlo, by omega, hmc, ?_, ?_⟩
  · intro c hc hloc hcm
    rw [doCompare_doSwap hN (by omega) (by omega) (by omega) (by omega)]
    by_cases hcm' : c = m
    · -- the old element of `k` now sits at `m`, below the larger one now at `k`
      rw [hcm', Equiv.swap_apply_right, hmk, Equiv.swap_apply_left]
      exact le_largest h hk1
    · by_cases hck : c = k
      · -- `k`'s new element came from below it, where the old `k`'s parent dominated it
        rw [hck, Equiv.swap_apply_left, Equiv.swap_apply_of_ne_of_ne (by omega) (by omega)]
        exact hr.grand m hmc hmk (by rw [← hck]; exact hloc)
      · rw [Equiv.swap_apply_of_ne_of_ne hck hcm']
        by_cases hc2 : c / 2 = k
        · rw [hc2, Equiv.swap_apply_left]
          exact child_le_largest h hk1 hc hc2
        · rw [Equiv.swap_apply_of_ne_of_ne hc2 hcm]
          exact hr.except c hc hloc hc2
  · intro c hc hcm hlom
    rw [doCompare_doSwap hN (by omega) (by omega) (by omega) (by omega), hmk,
      Equiv.swap_apply_left, Equiv.swap_apply_of_ne_of_ne (by omega) (by omega)]
    have hle := hr.except c hc (by omega) (by omega)
    rw [hcm] at hle
    exact hle

/-- `heapify` from a node whose subtrees are heaps returns a heap, having only moved the first
`cnt` elements. The induction is on the fuel; each round moves `k` down to a child. -/
theorem heapify_spec (hcnt : cnt < 2 ^ 31) (fuel : Nat) {e : Nat → α} {k : Nat}
    (hr : SiftReady compare e lo k cnt) (hfuel : cnt - k < fuel) :
    ∃ e', heapify compare e k cnt fuel = some e' ∧ HeapFrom compare e' lo cnt ∧
      Shuffle e' e cnt := by
  induction fuel generalizing e k with
  | zero => omega
  | succ fuel ih =>
    rw [heapify]
    by_cases hmax : largest compare e k cnt = k
    · rw [if_pos hmax]
      exact ⟨e, rfl, hr.heapFrom h hcnt hmax, Shuffle.refl e cnt⟩
    · rw [if_neg hmax]
      have hk1 : 2 * k + 1 < 2 ^ 32 := by have := hr.le_cnt; omega
      obtain ⟨hmk, hmc⟩ := (largest_cases hk1).resolve_left hmax
      have hk := hr.lo_pos
      have hlk := hr.lo_le
      obtain ⟨e', he', hheap, hshuf⟩ := ih (hr.swap h hcnt hmax) (by omega)
      exact ⟨e', he', hheap, hshuf.trans (shuffle_doSwap (by omega) (by omega) (by omega))⟩

/-! ### The two loops of `sort` -/

omit h in
theorem heapFrom_half (cnt : Nat) : HeapFrom compare e (cnt / 2 + 1) cnt := by
  intro c hc hlo
  omega

theorem buildHeap_spec (hcnt : cnt < 2 ^ 31) (i : Nat) {e : Nat → α} (hi : i ≤ cnt / 2)
    (hheap : HeapFrom compare e (i + 1) cnt) :
    ∃ e', buildHeap compare cnt i e = some e' ∧ HeapFrom compare e' 1 cnt ∧ Shuffle e' e cnt := by
  induction i generalizing e with
  | zero => exact ⟨e, rfl, hheap, Shuffle.refl e cnt⟩
  | succ i ih =>
    obtain ⟨e₁, he₁, hheap₁, hshuf₁⟩ := heapify_spec h hcnt (cnt + 1)
      (SiftReady.start (by omega) (by omega) hheap) (by omega)
    obtain ⟨e₂, he₂, hheap₂, hshuf₂⟩ := ih (by omega) hheap₁
    refine ⟨e₂, ?_, hheap₂, hshuf₂.trans hshuf₁⟩
    rw [buildHeap, he₁]
    exact he₂

/-- The root of a heap holds its largest element. The induction is on the node, up its path to
the root. -/
theorem HeapFrom.le_root {n : Nat} (hheap : HeapFrom compare e 1 n) :
    ∀ p, 0 < p → p ≤ n → doCompare compare e p 1 ≤ 0 := by
  intro p
  induction p using Nat.strongRecOn with
  | ind p ih =>
    intro hp hpn
    by_cases hp1 : p = 1
    · rw [hp1]
      exact Int.le_of_eq (h.self _)
    · have hparent := hheap p hpn (by omega)
      have hup := ih (p / 2) (by omega) (by omega) (by omega)
      exact h.trans _ _ _ hparent hup

omit h in
/-- Swapping the root with the last element of a heap of `i + 1` leaves the heap order below
every node but the root of the first `i`. -/
theorem heapFrom_swap_root {i : Nat} (hi : i + 1 < 2 ^ 32) (hheap : HeapFrom compare e 1 (i + 1)) :
    HeapFrom compare (doSwap e 1 (i + 1)) 2 i := by
  intro c hc hlo
  rw [doCompare_doSwap hi (by omega) (by omega) (by omega) (by omega),
    Equiv.swap_apply_of_ne_of_ne (by omega) (by omega),
    Equiv.swap_apply_of_ne_of_ne (by omega) (by omega)]
  exact hheap c (by omega) (by omega)

theorem sortedAbove_swap_root {i : Nat} (hcnt : cnt < 2 ^ 31) (hi : i + 1 ≤ cnt)
    (hheap : HeapFrom compare e 1 (i + 1)) (hs : SortedAbove compare e (i + 1) cnt) :
    SortedAbove compare (doSwap e 1 (i + 1)) i cnt := by
  intro p q hp hpq hq hiq
  rw [doCompare_doSwap (by omega : cnt < 2 ^ 32) (by omega) (by omega) (by omega) (by omega)]
  by_cases hqi : q = i + 1
  · rw [hqi, Equiv.swap_apply_right]
    rw [Equiv.swap_apply_def]
    split_ifs with hp1 hpi
    · exact hheap.le_root h (i + 1) (by omega) (Nat.le_refl _)
    · omega
    · exact hheap.le_root h p hp (by omega)
  · rw [Equiv.swap_apply_of_ne_of_ne (by omega) hqi]
    rw [Equiv.swap_apply_def]
    split_ifs with hp1 hpi
    · exact hs (i + 1) q (by omega) (by omega) hq (by omega)
    · exact hs 1 q (by omega) (by omega) hq (by omega)
    · exact hs p q hp hpq hq (by omega)

omit h in
theorem SortedAbove.shuffle {e₁ e₂ : Nat → α} {i : Nat} (hs : SortedAbove compare e₁ i cnt)
    (hshuf : Shuffle e₂ e₁ i) (hcnt : cnt < 2 ^ 31) : SortedAbove compare e₂ i cnt := by
  intro p q hp hpq hq hiq
  have hq' : e₂ (elemIdx q) = e₁ (elemIdx q) :=
    hshuf.eq_of_le (by rw [elemIdx_of_pos (by omega) (by omega)]; omega)
  by_cases hpi : i < p
  · have hp' : e₂ (elemIdx p) = e₁ (elemIdx p) :=
      hshuf.eq_of_le (by rw [elemIdx_of_pos hp (by omega)]; omega)
    rw [doCompare, hp', hq']
    exact hs p q hp hpq hq hiq
  · obtain ⟨y, hy, hpy⟩ := hshuf.exists_eq
      (show elemIdx p < i by rw [elemIdx_of_pos hp (by omega)]; omega)
    have hle := hs (y + 1) q (by omega) (by omega) hq hiq
    rw [doCompare, elemIdx_of_pos (by omega) (by omega), Nat.add_sub_cancel] at hle
    rw [doCompare, hpy, hq']
    exact hle

/-- The second loop of `sort`, from a heap of the first `i` elements with the others sorted
after them. The induction is on `i`. -/
theorem sortHeap_spec (hcnt : cnt < 2 ^ 31) (i : Nat) {e : Nat → α} (hi : i ≤ cnt)
    (hheap : HeapFrom compare e 1 i) (hs : SortedAbove compare e i cnt) :
    ∃ e', sortHeap compare i e = some e' ∧ SortedAbove compare e' 1 cnt ∧ Shuffle e' e cnt := by
  induction i generalizing e with
  | zero => exact ⟨e, rfl, fun p q hp hpq hq _ => hs p q hp hpq hq (by omega), Shuffle.refl e cnt⟩
  | succ i ih =>
    rw [sortHeap]
    by_cases hi1 : i + 1 > 1
    · rw [if_pos hi1]
      have hs₁ := sortedAbove_swap_root h hcnt hi hheap hs
      have hheap₁ := heapFrom_swap_root (by omega) hheap
      obtain ⟨e₂, he₂, hheap₂, hshuf₂⟩ := heapify_spec h (by omega : i < 2 ^ 31) (i + 1)
        (SiftReady.start (by omega) (by omega) hheap₁) (by omega)
      obtain ⟨e₃, he₃, hs₃, hshuf₃⟩ := ih (by omega) hheap₂ (hs₁.shuffle hshuf₂ hcnt)
      refine ⟨e₃, ?_, hs₃, hshuf₃.trans ((hshuf₂.mono (by omega)).trans
        (shuffle_doSwap (by omega) (by omega) (by omega)))⟩
      rw [he₂]
      exact he₃
    · rw [if_neg hi1]
      exact ⟨e, rfl, fun p q hp hpq hq _ => hs p q hp hpq hq (by omega), Shuffle.refl e cnt⟩

theorem sort_spec {array cnt size : Nat} (elems : Nat → α) (harray : array ≠ 0 ∨ cnt = 0)
    (hsize : 0 < size) (hobj : cnt * size < 2 ^ 31) :
    ∃ r, sort array elems cnt size compare = some r ∧ SortedPerm compare elems cnt r := by
  have hcnt : cnt < 2 ^ 31 := Nat.lt_of_le_of_lt (Nat.le_mul_of_pos_right cnt hsize) hobj
  obtain ⟨e₁, he₁, hheap₁, hshuf₁⟩ := buildHeap_spec h hcnt (cnt / 2) (Nat.le_refl _)
    (heapFrom_half cnt)
  obtain ⟨e₂, he₂, hs₂, hshuf₂⟩ := sortHeap_spec h hcnt cnt (Nat.le_refl cnt) hheap₁
    (fun p q _ _ hq hcq => absurd hq (by omega))
  have hshuf := hshuf₂.trans hshuf₁
  refine ⟨e₂, ?_, hshuf.perm, ?_, fun x hx => hshuf.eq_of_le hx⟩
  · rw [sort, if_pos ⟨harray, hsize⟩, he₁]
    exact he₂
  · -- the order of 1-based indexes is the order of the elements
    apply sorted_map_range_iff.mpr
    intro a b hab hb
    have hle := hs₂ (a + 1) (b + 1) (by omega) (by omega) (by omega) (by omega)
    rwa [doCompare, elemIdx_of_pos (by omega) (by omega), elemIdx_of_pos (by omega) (by omega),
      Nat.add_sub_cancel, Nat.add_sub_cancel] at hle

end Heap

theorem heap_sort_sorts {compare : α → α → Int} (h : Lawful compare) (elems : Nat → α)
    {array cnt size : Nat} (harray : array ≠ 0 ∨ cnt = 0) (hsize : 0 < size)
    (hobj : cnt * size < 2 ^ 31) :
    (∃ r, sort array elems cnt size compare = some r ∧ SortedPerm compare elems cnt r) ∧
      ∃ r, qsort array elems cnt size compare = some r ∧ SortedPerm compare elems cnt r :=
  ⟨sort_spec h elems harray hsize hobj, sort_spec h elems harray hsize hobj⟩

theorem heap_sort_sorts_three :
    (∃ r, sort 0x1000 (fun k => [3, 1, 2].getD k (0 : Int)) 3 4 compareInts = some r ∧
        SortedPerm compareInts (fun k => [3, 1, 2].getD k (0 : Int)) 3 r) ∧
      ∃ r, qsort 0x1000 (fun k => [3, 1, 2].getD k (0 : Int)) 3 4 compareInts = some r ∧
        SortedPerm compareInts (fun k => [3, 1, 2].getD k (0 : Int)) 3 r :=
  heap_sort_sorts compareInts_lawful _ (by decide) (by decide) (by decide)

example : (sort 0x1000 (fun k => [3, 1, 2].getD k (0 : Int)) 3 4 compareInts).map
    (fun r => (List.range 3).map r) = some [1, 2, 3] := by decide

/-! ## `atoi` -/

/-- The white-space loop of `atoi`; `none` past the end of the bytes. -/
def skipSpace : List UInt8 → Option (List UInt8)
  | [] => none
  | c :: cs => if isspace c then skipSpace cs else some (c :: cs)

/-- The digit loop of `atoi`: `value = value * 10 - (*s - '0')` while `isdigit (*s)`; `none` on
`int` overflow or past the end of the bytes. -/
def atoiDigits (value : Int) : List UInt8 → Option Int
  | [] => none
  | c :: cs =>
    if isdigit c then
      let value' := value * 10 - ((c.toNat : Int) - (chr '0').toNat)
      if -2 ^ 31 ≤ value' then atoiDigits value' cs else none
    else some value

/-- `atoi (s)`, on the bytes from `s` on. The value is accumulated negatively, so that
`INT_MIN` is reached without overflow; negating it back overflows. -/
def atoi (s : List UInt8) : Option Int := do
  let s ← skipSpace s
  let (negative, s) := match s with
    | c :: cs =>
      if c = chr '+' then (false, cs) else if c = chr '-' then (true, cs) else (false, c :: cs)
    | [] => (false, [])
  let value ← atoiDigits 0 s
  if !negative then (if value = -2 ^ 31 then none else some (-value)) else some value

theorem skipSpace_spaces (k : Nat) (s : List UInt8) :
    skipSpace (outputDup (chr ' ') k ++ s) = skipSpace s := by
  induction k with
  | zero => rfl
  | succ k ih =>
    rw [outputDup, List.replicate_succ, List.cons_append, skipSpace, if_pos (by decide)]
    exact ih

theorem digitChar_spec {d : Nat} (hd : d < 10) :
    isdigit (digitChar d) = true ∧ isspace (digitChar d) = false ∧
      digitChar d ≠ chr '+' ∧ digitChar d ≠ chr '-' ∧
      ((digitChar d).toNat : Int) - (chr '0').toNat = d := by
  revert d
  decide

/-- The digit loop over decimal digits followed by a non-digit accumulates minus their value.
The induction is on the digits; every partial value lies between the start and the end. -/
theorem atoiDigits_digits {rest : List UInt8} (hrest : ∃ r rs, rest = r :: rs ∧ isdigit r = false) :
    ∀ (ds : List Nat) (acc : Int), (∀ d ∈ ds, d < 10) → acc ≤ 0 →
      -2 ^ 31 ≤ acc * 10 ^ ds.length - ((Nat.ofDigits 10 ds.reverse : Nat) : Int) →
      atoiDigits acc (ds.map digitChar ++ rest) =
        some (acc * 10 ^ ds.length - ((Nat.ofDigits 10 ds.reverse : Nat) : Int))
  | [], acc, _, _, _ => by
    obtain ⟨r, rs, rfl, hr⟩ := hrest
    rw [List.map_nil, List.nil_append, atoiDigits, if_neg (by rw [hr]; decide)]
    simp
  | d :: ds, acc, hds, hacc, hbound => by
    obtain ⟨hdigit, -, -, -, hval⟩ := digitChar_spec (hds d List.mem_cons_self)
    have heq : acc * 10 ^ (d :: ds).length - ((Nat.ofDigits 10 (d :: ds).reverse : Nat) : Int) =
        (acc * 10 - d) * 10 ^ ds.length - ((Nat.ofDigits 10 ds.reverse : Nat) : Int) := by
      rw [Nat.ofDigits_reverse_cons, List.length_cons]
      push_cast
      ring
    rw [heq] at hbound
    have hnew : -2 ^ 31 ≤ acc * 10 - d := by
      have hpow : (1 : Int) ≤ 10 ^ ds.length := one_le_pow₀ (by norm_num)
      have hneg : acc * 10 - d ≤ 0 := by omega
      nlinarith [Nat.zero_le (Nat.ofDigits 10 ds.reverse)]
    rw [List.map_cons, List.cons_append, atoiDigits, if_pos hdigit]
    dsimp only
    rw [hval, if_pos hnew, heq]
    exact atoiDigits_digits hrest ds (acc * 10 - d) (fun x hx => hds x (List.mem_cons_of_mem d hx))
      (by omega) hbound

/-- The bytes after the sign of a decimal conversion: zeros, the digits of `m`, padding and the
null terminator. Whether or not they start with a digit, `atoi` reads `-m` from them. -/
theorem atoi_tail (m : Nat) (hm : m ≤ 2 ^ 31) (z e : Nat) :
    atoiDigits 0 ((List.replicate z 0 ++ (Nat.digits 10 m).reverse).map digitChar ++
        outputDup (chr ' ') e ++ [0]) = some (-(m : Int)) ∧
      ∃ U, skipSpace ((List.replicate z 0 ++ (Nat.digits 10 m).reverse).map digitChar ++
          outputDup (chr ' ') e ++ [0]) = some U ∧
        U.head? ≠ some (chr '+') ∧ U.head? ≠ some (chr '-') ∧ atoiDigits 0 U = some (-(m : Int)) := by
  generalize hds : List.replicate z 0 ++ (Nat.digits 10 m).reverse = ds
  have hdig : ∀ d ∈ ds, d < 10 := by
    intro d hd
    rw [← hds] at hd
    rcases List.mem_append.mp hd with h | h
    · rw [List.eq_of_mem_replicate h]
      decide
    · exact Nat.digits_lt_base (by decide) (List.mem_reverse.mp h)
  have hvalue : Nat.ofDigits 10 ds.reverse = m := by
    rw [← hds, List.reverse_append, List.reverse_reverse, List.reverse_replicate,
      Nat.ofDigits_append_replicate_zero, Nat.ofDigits_digits]
  have hrest : ∃ r rs, outputDup (chr ' ') e ++ [0] = r :: rs ∧ isdigit r = false := by
    cases e with
    | zero => exact ⟨0, [], rfl, by decide⟩
    | succ e => exact ⟨chr ' ', outputDup (chr ' ') e ++ [0], rfl, by decide⟩
  have hdigits : atoiDigits 0 (ds.map digitChar ++ (outputDup (chr ' ') e ++ [0])) =
      some (-(m : Int)) := by
    rw [atoiDigits_digits hrest ds 0 hdig (Int.le_refl 0) (by rw [hvalue]; omega), hvalue]
    simp
  rw [List.append_assoc]
  refine ⟨hdigits, ?_⟩
  by_cases hnil : ds = []
  · -- no digit at all: `m` is zero and only padding is left
    have hm0 : m = 0 := by rw [hnil] at hvalue; exact hvalue.symm
    refine ⟨[0], ?_, by decide, by decide, by rw [hm0]; rfl⟩
    rw [hnil, List.map_nil, List.nil_append, skipSpace_spaces]
    rfl
  · obtain ⟨d, ds', hcons⟩ := List.exists_cons_of_ne_nil hnil
    obtain ⟨-, hspace, hplus, hminus, -⟩ :=
      digitChar_spec (hdig d (by rw [hcons]; exact List.mem_cons_self))
    refine ⟨ds.map digitChar ++ (outputDup (chr ' ') e ++ [0]), ?_, ?_, ?_, hdigits⟩
    · rw [hcons, List.map_cons, List.cons_append, skipSpace, if_neg (by rw [hspace]; decide)]
    · rw [hcons, List.map_cons, List.cons_append, List.head?_cons]
      simpa using hplus
    · rw [hcons, List.map_cons, List.cons_append, List.head?_cons]
      simpa using hminus

/-- `atoi` reads back a decimal conversion without grouping: the padding, the sign (a space
sign is white space too) and the zeros are skipped. -/
theorem atoi_decimal {negative : Bool} {flags : Flags} {m : Nat}
    (hm : if negative then m ≤ 2 ^ 31 else m < 2 ^ 31) (a z e : Nat) :
    atoi (outputDup (chr ' ') a ++
        (if signChar true negative flags ≠ 0 then [signChar true negative flags] else []) ++
        (List.replicate z 0 ++ (Nat.digits 10 m).reverse).map digitChar ++
        outputDup (chr ' ') e ++ [0]) = some (if negative then -(m : Int) else m) := by
  have hm' : m ≤ 2 ^ 31 := by split at hm <;> omega
  obtain ⟨hT, U, hU, hU₁, hU₂, hUd⟩ := atoi_tail m hm' z e
  have hunsigned : ∀ U : List UInt8, U.head? ≠ some (chr '+') → U.head? ≠ some (chr '-') →
      (match U with
        | c :: cs => if c = chr '+' then (false, cs) else if c = chr '-' then (true, cs)
          else (false, c :: cs)
        | [] => (false, [])) = (false, U) := by
    intro U h₁ h₂
    cases U with
    | nil => rfl
    | cons c cs =>
      rw [List.head?_cons, ne_eq, Option.some.injEq] at h₁ h₂
      simp only [h₁, h₂, if_false]
  simp only [List.append_assoc] at hT hU ⊢
  cases negative with
  | true =>
    rw [show signChar true true flags = chr '-' by simp [signChar],
      if_pos (by decide), atoi, skipSpace_spaces, List.singleton_append, skipSpace,
      if_neg (by decide)]
    simp only [Option.bind_eq_bind, Option.bind_some, if_neg (show chr '-' ≠ chr '+' by decide),
      if_pos, hT, Bool.not_true]
    rfl
  | false =>
    simp only [Bool.false_eq_true, if_false] at hm ⊢
    have hne : ¬(-(m : Int) = -2 ^ 31) := by omega
    by_cases hplus : flags.plus = true
    · rw [show signChar true false flags = chr '+' by unfold signChar; rw [if_pos hplus]; rfl,
        if_pos (by decide), atoi, skipSpace_spaces, List.singleton_append, skipSpace,
        if_neg (by decide)]
      simp only [Option.bind_eq_bind, Option.bind_some, if_true, hT, Bool.not_false, if_neg hne,
        Int.neg_neg]
    · by_cases hspace : flags.space = true
      · rw [show signChar true false flags = chr ' ' by
            unfold signChar; rw [if_neg hplus, if_pos hspace]; rfl,
          if_pos (by decide), atoi, skipSpace_spaces, List.singleton_append, skipSpace,
          if_pos (by decide), hU]
        simp only [Option.bind_eq_bind, Option.bind_some, hunsigned U hU₁ hU₂, hUd,
          Bool.not_false, if_neg hne, Int.neg_neg, if_true]
      · rw [show signChar true false flags = 0 by
            unfold signChar; rw [if_neg hplus, if_neg hspace]; rfl,
          if_neg (by decide), List.nil_append, atoi, skipSpace_spaces, hU]
        simp only [Option.bind_eq_bind, Option.bind_some, hunsigned U hU₁ hU₂, hUd,
          Bool.not_false, if_neg hne, Int.neg_neg, if_true]

/-! ## Decimal round trip -/

theorem signedArg_int {v : Int} (hv : -2 ^ 31 ≤ v ∧ v < 2 ^ 31) (args : List Arg) :
    signedArg .int (.int v :: args) = some (v, args) := by
  have hsigned : toSigned 32 v = v := by
    unfold toSigned
    omega
  simp only [signedArg, vaInt, hsigned, Option.bind_eq_bind, Option.bind_some]

theorem toUnsigned_abs (v : Int) (hv : -2 ^ 31 ≤ v ∧ v < 2 ^ 31) :
    toUnsigned 64 (if v < 0 then -v else v) = v.natAbs := by
  unfold toUnsigned
  split_ifs <;> omega

theorem snprintf_atoi_round_trip {v : Int} (hv : -2 ^ 31 ≤ v ∧ v < 2 ^ 31) {spec : List UInt8}
    {args : List Arg} {c : Conversion}
    (hparse : parseConversion spec (args ++ [.int v]) = some (c, [chr 'd'], [.int v]))
    (hgroup : c.flags.group = false) (htype : c.type = .int) {n : Nat} (hn : n ≤ 2 ^ 31)
    {buf : List UInt8} {L : Int}
    (hs : snprintf n (chr '%' :: spec) (args ++ [.int v]) = some (buf, L)) (hL : L < n) :
    atoi buf = some v := by
  have harg : signedArg c.type [.int v] = some (v, []) := by
    rw [htype]
    exact signedArg_int hv []
  obtain ⟨hbuf, hlen⟩ := vsnprintf_some hn (vprintf_signed hparse (Or.inl rfl) harg) hs
  rw [if_pos (show n > 0 by omega), List.take_of_length_le (by omega), toUnsigned_abs v hv] at hbuf
  obtain ⟨a, z, e, hshape⟩ := formatInteger_decimal v.natAbs true (decide (v < 0)) hgroup
  by_cases hv0 : v < 0
  · have hm : if decide (v < 0) = true then v.natAbs ≤ 2 ^ 31 else v.natAbs < 2 ^ 31 := by
      rw [if_pos (decide_eq_true hv0)]
      omega
    rw [hbuf, hshape, @atoi_decimal (decide (v < 0)) c.flags v.natAbs hm a z e,
      if_pos (decide_eq_true hv0)]
    congr 1
    omega
  · have hm : if decide (v < 0) = true then v.natAbs ≤ 2 ^ 31 else v.natAbs < 2 ^ 31 := by
      rw [if_neg (by simpa using hv0)]
      omega
    rw [hbuf, hshape, @atoi_decimal (decide (v < 0)) c.flags v.natAbs hm a z e,
      if_neg (by simpa using hv0)]
    congr 1
    omega

theorem snprintf_atoi_round_trip_int_min : atoi (bytes "-2147483648  " ++ [0]) = some (-2 ^ 31) :=
  snprintf_atoi_round_trip (v := -2 ^ 31) (by decide)
    (show parseConversion (bytes "-*d") ([.int 13] ++ [.int (-2 ^ 31)]) =
      some (⟨⟨true, false, false, false, false, false⟩, 13, -1, .int⟩, [chr 'd'],
        [.int (-2 ^ 31)]) by decide)
    rfl rfl (n := 16) (by decide)
    (show snprintf 16 (chr '%' :: bytes "-*d") ([.int 13] ++ [.int (-2 ^ 31)]) =
      some (bytes "-2147483648  " ++ [0], 13) by decide) (by decide)

/-- A buffer size above `2 ^ 31` makes `max_length` negative: only the terminator is stored. -/
theorem snprintf_atoi_large_buffer :
    snprintf (2 ^ 31 + 1) (bytes "%d") [.int 5] = some ([0], 1) ∧ atoi [0] = some 0 := by
  decide

end Pintos.Libc
