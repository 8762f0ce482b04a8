import Pintos.Kernel.Bitmap
import Pintos.Userprog.Syscall
import Mathlib.Order.Defs.LinearOrder
import Mathlib.Data.List.Pairwise
import Mathlib.Logic.Relation

/-! # `threads/palloc.c`: the page allocator

Two pools, each a bitmap of its pages and the address of its first page. Addresses are kernel
virtual addresses as numbers, `0` is `NULL`, and a function returns `none` where the C code
panics or fails an `ASSERT`. The pool locks and the bytes that `PAL_ZERO` and the debug
`memset` write are left out.

The system: a state of the two pools and the allocations the kernel holds, a request with any
flags and count, and the free of a held allocation.
-/

namespace Pintos.Palloc
open Pintos.KBitmap Search
open Pintos.Userprog (PGSIZE PHYS_BASE)
set_option autoImplicit false

def PAL_ASSERT : Nat := 1
def PAL_ZERO : Nat := 2
def PAL_USER : Nat := 4

structure Pool where
  usedMap : Bitmap
  base : Nat

structure PallocState where
  kernelPool : Pool
  userPool : Pool

/-- `flags & PAL_USER ? &user_pool : &kernel_pool` -/
def userOf (flags : Nat) : Bool := flags &&& PAL_USER != 0

def PallocState.pool (s : PallocState) (user : Bool) : Pool :=
  if user then s.userPool else s.kernelPool

def PallocState.setPool (s : PallocState) (user : Bool) (p : Pool) : PallocState :=
  if user then { s with userPool := p } else { s with kernelPool := p }

def pgOfs (va : Nat) : Nat := va % PGSIZE

def pgNo (va : Nat) : Nat := va / PGSIZE

def ptov (paddr : Nat) : Option Nat :=
  if paddr < PHYS_BASE.toNat then some (paddr + PHYS_BASE.toNat) else none

def pallocGetMultiple (s : PallocState) (flags pageCnt : Nat) : Option (PallocState × Nat) := do
  let user := userOf flags
  let pool := s.pool user
  if pageCnt = 0 then return (s, 0)
  let (usedMap, pageIdx) ← bitmapScanAndFlip pool.usedMap 0 pageCnt false
  let s := s.setPool user { pool with usedMap }
  match pageIdx with
  | some idx => return (s, pool.base + PGSIZE * idx)
  | none => if flags &&& PAL_ASSERT != 0 then none else return (s, 0)

def pageFromPool (pool : Pool) (page : Nat) : Bool :=
  let pageNo := pgNo page
  let startPage := pgNo pool.base
  let endPage := startPage + bitmapSize pool.usedMap
  pageNo ≥ startPage && pageNo < endPage

def pallocFreeMultiple (s : PallocState) (pages pageCnt : Nat) : Option PallocState := do
  if pgOfs pages ≠ 0 then none
  if pages = 0 ∨ pageCnt = 0 then return s
  let user ← if pageFromPool s.kernelPool pages then some false
    else if pageFromPool s.userPool pages then some true
    else none
  let pool := s.pool user
  let pageIdx := pgNo pages - pgNo pool.base
  if !(← bitmapAll pool.usedMap pageIdx pageCnt) then none
  let usedMap ← bitmapSetMultiple pool.usedMap pageIdx pageCnt false
  return s.setPool user { pool with usedMap }

def initPool (base pageCnt : Nat) : Option Pool := do
  let bmPages := (bitmapBufSize pageCnt + PGSIZE - 1) / PGSIZE
  if bmPages > pageCnt then none
  let pageCnt := pageCnt - bmPages
  let usedMap ← bitmapCreateInBuf pageCnt (bmPages * PGSIZE)
  return ⟨usedMap, base + bmPages * PGSIZE⟩

def pallocInit (initRamPages userPageLimit : Nat) : Option PallocState := do
  let freeStart ← ptov (1024 * 1024)
  let freeEnd ← ptov (initRamPages * PGSIZE)
  let freePages := (freeEnd - freeStart) / PGSIZE
  let userPages := if freePages / 2 > userPageLimit then userPageLimit else freePages / 2
  let kernelPages := freePages - userPages
  let kernelPool ← initPool freeStart kernelPages
  let userPool ← initPool (freeStart + kernelPages * PGSIZE) userPages
  return ⟨kernelPool, userPool⟩

/-! ## The pools -/

section Pools
variable {s : PallocState}

@[simp] theorem pool_setPool_self (u : Bool) (p : Pool) : (s.setPool u p).pool u = p := by
  cases u <;> rfl

@[simp] theorem pool_setPool_of_ne {u u' : Bool} (p : Pool) (h : u' ≠ u) :
    (s.setPool u p).pool u' = s.pool u' := by
  cases u <;> cases u' <;> first | rfl | exact absurd rfl h

theorem pool_false : s.pool false = s.kernelPool := rfl

theorem pool_true : s.pool true = s.userPool := rfl

theorem setPool_pool_self (u : Bool) :
    s.setPool u { usedMap := (s.pool u).usedMap, base := (s.pool u).base } = s := by
  cases u <;> rfl

theorem pgNo_page {base idx : Nat} (hb : base % PGSIZE = 0) :
    pgNo (base + PGSIZE * idx) = pgNo base + idx := by
  simp only [pgNo, PGSIZE] at hb ⊢
  omega

theorem pgOfs_page {base idx : Nat} (hb : base % PGSIZE = 0) : pgOfs (base + PGSIZE * idx) = 0 := by
  simp only [pgOfs, PGSIZE] at hb ⊢
  omega

end Pools

/-! ## The allocations the kernel holds -/

/-- An allocation: its pool, the index of its first page there, and its page count. -/
structure Allocation where
  user : Bool
  idx : Nat
  cnt : Nat
deriving DecidableEq, Repr

/-- The address `palloc_get_multiple` returned for it. -/
def Allocation.pages (s : PallocState) (a : Allocation) : Nat := (s.pool a.user).base + PGSIZE * a.idx

def Allocation.Mem (a : Allocation) (u : Bool) (j : Nat) : Prop :=
  a.user = u ∧ a.idx ≤ j ∧ j < a.idx + a.cnt

def Allocation.Apart (a b : Allocation) : Prop := ∀ u j, ¬(a.Mem u j ∧ b.Mem u j)

/-- The pages of pool `u` that are held. -/
def usedPages (live : List Allocation) (u : Bool) : Set Nat := {j | ∃ a ∈ live, a.Mem u j}

/-- The pools lie apart, kernel pool first, each from an aligned, non-null address. -/
structure Layout (s : PallocState) : Prop where
  aligned : ∀ u, (s.pool u).base % PGSIZE = 0
  pos : ∀ u, 0 < (s.pool u).base
  apart : (s.pool false).base + PGSIZE * bitmapSize (s.pool false).usedMap ≤ (s.pool true).base

/-- What holds of the pools and the allocations in every reachable state. -/
structure Inv (s : PallocState) (live : List Allocation) : Prop where
  layout : Layout s
  used : ∀ u j, (s.pool u).usedMap.bit j = true ↔ j ∈ usedPages live u
  inside : ∀ a ∈ live, 0 < a.cnt ∧ a.idx + a.cnt ≤ bitmapSize (s.pool a.user).usedMap
  apart : live.Pairwise Allocation.Apart

/-- A run of `n` pages of pool `u` from index `x` that no allocation holds. -/
def FreeRun (s : PallocState) (live : List Allocation) (u : Bool) (n x : Nat) : Prop :=
  x + n ≤ bitmapSize (s.pool u).usedMap ∧ ∀ j, x ≤ j → j < x + n → j ∉ usedPages live u

/-- What a request does: the first free run of the pool the flags select, or `NULL` with nothing
changed, or a panic under `PAL_ASSERT`. -/
def GetSpec (s : PallocState) (live : List Allocation) (flags n : Nat) : Prop :=
  ∃ r, IsFirst {x | FreeRun s live (userOf flags) n x} r ∧
    match r with
    | some x => ∃ s', pallocGetMultiple s flags n =
        some (s', (s.pool (userOf flags)).base + PGSIZE * x)
    | none => pallocGetMultiple s flags n =
        if flags &&& PAL_ASSERT != 0 then none else some (s, 0)

/-- A request with any flags and count, and the free of a held allocation. -/
inductive Step : PallocState × List Allocation → PallocState × List Allocation → Prop
  | get {s s' : PallocState} {live : List Allocation} {flags n p : Nat} :
      pallocGetMultiple s flags n = some (s', p) →
      Step (s, live) (s', if p = 0 then live
        else ⟨userOf flags, pgNo p - pgNo (s.pool (userOf flags)).base, n⟩ :: live)
  | free {s s' : PallocState} {live : List Allocation} {a : Allocation} :
      a ∈ live → pallocFreeMultiple s (a.pages s) a.cnt = some s' → Step (s, live) (s', live.erase a)

/-- A request of the kernel: `palloc_get_multiple (flags, page_cnt)`, or `palloc_free_multiple`
of the `i`th allocation it holds. -/
inductive Request
  | get (flags pageCnt : Nat)
  | free (i : Nat)

/-- The state after a list of requests, `none` at a panic or at a free of nothing held. -/
def runRequests :
    PallocState × List Allocation → List Request → Option (PallocState × List Allocation)
  | st, [] => some st
  | (s, live), .get flags n :: rs => do
    let (s', p) ← pallocGetMultiple s flags n
    runRequests (s', if p = 0 then live
      else ⟨userOf flags, pgNo p - pgNo (s.pool (userOf flags)).base, n⟩ :: live) rs
  | (s, live), .free i :: rs => do
    let a ← live[i]?
    let s' ← pallocFreeMultiple s (a.pages s) a.cnt
    runRequests (s', live.erase a) rs

theorem runRequests_steps : ∀ {rs : List Request} {st st' : PallocState × List Allocation},
    runRequests st rs = some st' → Relation.ReflTransGen Step st st'
  | [], st, st', h => by
    rw [runRequests, Option.some.injEq] at h
    exact h ▸ .refl
  | .get flags n :: rs, (s, live), st', h => by
    simp only [runRequests, Option.bind_eq_bind, Option.bind_eq_some_iff] at h
    obtain ⟨⟨s', p⟩, hget, hrun⟩ := h
    exact .head (Step.get hget) (runRequests_steps hrun)
  | .free i :: rs, (s, live), st', h => by
    simp only [runRequests, Option.bind_eq_bind, Option.bind_eq_some_iff] at h
    obtain ⟨a, ha, s', hfree, hrun⟩ := h
    exact .head (Step.free (List.mem_of_getElem? ha) hfree) (runRequests_steps hrun)

/-! ## Requests -/

theorem pallocGetMultiple_zero (s : PallocState) (flags : Nat) :
    pallocGetMultiple s flags 0 = some (s, 0) := by
  simp [pallocGetMultiple]

section Get
variable {s : PallocState} {live : List Allocation}

theorem base_setPool (u u' : Bool) (b : Bitmap) :
    ((s.setPool u { s.pool u with usedMap := b }).pool u').base = (s.pool u').base := by
  by_cases h : u' = u <;> simp [h]

theorem size_setPool {u : Bool} {b : Bitmap} (hb : bitmapSize b = bitmapSize (s.pool u).usedMap)
    (u' : Bool) : bitmapSize ((s.setPool u { s.pool u with usedMap := b }).pool u').usedMap =
      bitmapSize (s.pool u').usedMap := by
  by_cases h : u' = u <;> simp [h, hb]

theorem Layout.setPool (hl : Layout s) (u : Bool) (b : Bitmap)
    (hb : bitmapSize b = bitmapSize (s.pool u).usedMap) :
    Layout (s.setPool u { s.pool u with usedMap := b }) := by
  have hbase := base_setPool (s := s) u
  have hsize := size_setPool hb
  refine ⟨fun u' => ?_, fun u' => ?_, ?_⟩
  · rw [hbase]
    exact hl.aligned u'
  · rw [hbase]
    exact hl.pos u'
  · rw [hbase, hbase, hsize]
    exact hl.apart

@[simp] theorem usedPages_cons {a : Allocation} {u : Bool} {j : Nat} :
    j ∈ usedPages (a :: live) u ↔ a.Mem u j ∨ j ∈ usedPages live u := by
  simp [usedPages]

theorem Inv.uniform_iff (hinv : Inv s live) (u : Bool) (n x : Nat) :
    (s.pool u).usedMap.Uniform x n false ↔ ∀ j, x ≤ j → j < x + n → j ∉ usedPages live u := by
  refine forall_congr' fun j => forall_congr' fun _ => forall_congr' fun _ => ?_
  rw [← hinv.used u j]
  simp

/-- A request for `n ≥ 1` pages: `bitmap_scan_and_flip` on the selected pool finds the first free
run, and the request returns its address with its bits set, or fails with nothing changed. -/
theorem Inv.get_outcome (hinv : Inv s live) (flags : Nat) {n : Nat} (hn : n ≠ 0) :
    ∃ r, IsFirst {x | FreeRun s live (userOf flags) n x} r ∧
      match r with
      | some x => ∃ b, bitmapSize b = bitmapSize (s.pool (userOf flags)).usedMap ∧
          (∀ j, b.bit j = if x ≤ j ∧ j < x + n then true else (s.pool (userOf flags)).usedMap.bit j) ∧
          pallocGetMultiple s flags n = some (s.setPool (userOf flags)
            { s.pool (userOf flags) with usedMap := b }, (s.pool (userOf flags)).base + PGSIZE * x)
      | none => pallocGetMultiple s flags n =
          if flags &&& PAL_ASSERT != 0 then none else some (s, 0) := by
  obtain ⟨r, b, hscan, hr, hb⟩ :=
    bitmapScanAndFlip_spec (s.pool (userOf flags)).usedMap 0 n false (Nat.zero_le _)
  have hset : {x | 0 ≤ x ∧ x + n ≤ bitmapSize (s.pool (userOf flags)).usedMap ∧
      (s.pool (userOf flags)).usedMap.Uniform x n false} = {x | FreeRun s live (userOf flags) n x} := by
    ext x
    simp only [Set.mem_ofPred_eq, FreeRun, hinv.uniform_iff, Nat.zero_le, true_and]
  refine ⟨r, hr.congr hset, ?_⟩
  cases r with
  | none =>
    subst hb
    simp only [pallocGetMultiple, hn, hscan, if_false, Option.bind_eq_bind, Option.bind_some]
    rw [setPool_pool_self]
    rfl
  | some x =>
    obtain ⟨hsize, hbit⟩ := hb
    exact ⟨b, hsize, hbit, by simp [pallocGetMultiple, hn, hscan]⟩

theorem Inv.getSpec (hinv : Inv s live) (flags : Nat) {n : Nat} (hn : n ≠ 0) :
    GetSpec s live flags n := by
  obtain ⟨r, hr, hout⟩ := hinv.get_outcome flags hn
  refine ⟨r, hr, ?_⟩
  cases r with
  | none => exact hout
  | some x =>
    obtain ⟨b, -, -, hrun⟩ := hout
    exact ⟨_, hrun⟩

theorem Inv.get {s' : PallocState} {flags n p : Nat} (hinv : Inv s live)
    (h : pallocGetMultiple s flags n = some (s', p)) :
    Inv s' (if p = 0 then live
      else ⟨userOf flags, pgNo p - pgNo (s.pool (userOf flags)).base, n⟩ :: live) := by
  by_cases hn : n = 0
  · subst hn
    rw [pallocGetMultiple_zero, Option.some.injEq, Prod.mk.injEq] at h
    obtain ⟨rfl, rfl⟩ := h
    exact hinv
  obtain ⟨r, hr, hout⟩ := hinv.get_outcome flags hn
  cases r with
  | none =>
    rw [hout] at h
    split at h
    · exact absurd h (by simp)
    · rw [Option.some.injEq, Prod.mk.injEq] at h
      obtain ⟨rfl, rfl⟩ := h
      exact hinv
  | some x =>
    obtain ⟨b, hsize, hbit, hrun⟩ := hout
    rw [hrun, Option.some.injEq, Prod.mk.injEq] at h
    obtain ⟨rfl, rfl⟩ := h
    have hfree := hr.mem
    generalize userOf flags = u at hfree hsize hbit ⊢
    have hp : (s.pool u).base + PGSIZE * x ≠ 0 := Nat.ne_of_gt
      (Nat.lt_of_lt_of_le (hinv.layout.pos u) (Nat.le_add_right _ _))
    rw [if_neg hp, pgNo_page (hinv.layout.aligned u), Nat.add_sub_cancel_left]
    refine ⟨hinv.layout.setPool u b hsize, fun u' j => ?_, fun a ha => ?_, ?_⟩
    · rw [usedPages_cons]
      by_cases hu : u' = u
      · subst hu
        rw [pool_setPool_self, hbit j, ← hinv.used]
        by_cases hj : x ≤ j ∧ j < x + n
        · simp [hj, Allocation.Mem]
        · simp [hj, Allocation.Mem]
      · rw [pool_setPool_of_ne _ hu, hinv.used]
        simp [Allocation.Mem, Ne.symm hu]
    · rw [size_setPool hsize]
      rcases List.mem_cons.mp ha with rfl | ha
      · exact ⟨Nat.pos_of_ne_zero hn, hfree.1⟩
      · exact hinv.inside a ha
    · refine List.pairwise_cons.mpr ⟨fun a ha u' j ⟨hnew, ha'⟩ => ?_, hinv.apart⟩
      obtain ⟨rfl, hj1, hj2⟩ := hnew
      exact hfree.2 j hj1 hj2 ⟨a, ha, ha'⟩

end Get

/-! ## Frees -/

section Free
variable {s : PallocState} {live : List Allocation}

theorem Allocation.Apart.symm {a b : Allocation} (h : a.Apart b) : b.Apart a :=
  fun u j hj => h u j ⟨hj.2, hj.1⟩

theorem Inv.nodup (hinv : Inv s live) : live.Nodup :=
  hinv.apart.imp_of_mem fun {a _} ha _ hab hEq => by
    subst hEq
    have hcnt := (hinv.inside a ha).1
    exact hab a.user a.idx ⟨⟨rfl, le_rfl, by omega⟩, ⟨rfl, le_rfl, by omega⟩⟩

instance : Std.Symm Allocation.Apart := ⟨fun _ _ h => h.symm⟩

theorem Inv.apart_of_ne (hinv : Inv s live) {a b : Allocation} (ha : a ∈ live) (hb : b ∈ live)
    (hab : a ≠ b) : a.Apart b :=
  hinv.apart.forall ha hb hab

theorem Inv.usedPages_erase (hinv : Inv s live) {a : Allocation} (ha : a ∈ live) (u : Bool)
    (j : Nat) : j ∈ usedPages (live.erase a) u ↔ ¬a.Mem u j ∧ j ∈ usedPages live u := by
  simp only [usedPages, Set.mem_ofPred_eq, hinv.nodup.mem_erase_iff]
  constructor
  · rintro ⟨c, ⟨hca, hc⟩, hcj⟩
    exact ⟨fun haj => hinv.apart_of_ne hc ha hca u j ⟨hcj, haj⟩, c, hc, hcj⟩
  · rintro ⟨haj, c, hc, hcj⟩
    exact ⟨c, ⟨fun h => haj (h ▸ hcj), hc⟩, hcj⟩

theorem pageFromPool_iff {pool : Pool} {page : Nat} :
    pageFromPool pool page = true ↔
      pgNo pool.base ≤ pgNo page ∧ pgNo page < pgNo pool.base + bitmapSize pool.usedMap := by
  simp [pageFromPool]

/-- `page_from_pool` finds the pool an allocation came from: the kernel pool is tried first, and
the user pool lies above it. -/
theorem Inv.pageFromPool_kernel (hinv : Inv s live) {a : Allocation} (ha : a ∈ live) :
    pageFromPool s.kernelPool (a.pages s) = !a.user := by
  obtain ⟨hcnt, hin⟩ := hinv.inside a ha
  have hlay := hinv.layout
  have hend : pgNo (s.pool false).base + bitmapSize (s.pool false).usedMap ≤
      pgNo (s.pool true).base := by
    rw [← pgNo_page (hlay.aligned false)]
    exact Nat.div_le_div_right hlay.apart
  have hpg : pgNo (a.pages s) = pgNo (s.pool a.user).base + a.idx := pgNo_page (hlay.aligned a.user)
  rw [← pool_false]
  cases hu : a.user
  · rw [hu] at hin hpg
    exact pageFromPool_iff.mpr ⟨by omega, by omega⟩
  · rw [hu] at hin hpg
    rw [Bool.not_true, Bool.eq_false_iff]
    intro h
    have := pageFromPool_iff.mp h
    omega

theorem Inv.pageFromPool_user (hinv : Inv s live) {a : Allocation} (ha : a ∈ live)
    (hu : a.user = true) : pageFromPool s.userPool (a.pages s) = true := by
  obtain ⟨hcnt, hin⟩ := hinv.inside a ha
  have hpg : pgNo (a.pages s) = pgNo (s.pool a.user).base + a.idx :=
    pgNo_page (hinv.layout.aligned a.user)
  rw [hu] at hin hpg
  rw [← pool_true]
  exact pageFromPool_iff.mpr ⟨by omega, by omega⟩

theorem Inv.free (hinv : Inv s live) {a : Allocation} (ha : a ∈ live) :
    ∃ s', pallocFreeMultiple s (a.pages s) a.cnt = some s' ∧ Inv s' (live.erase a) := by
  obtain ⟨hcnt, hin⟩ := hinv.inside a ha
  have hofs : pgOfs (a.pages s) = 0 := pgOfs_page (hinv.layout.aligned a.user)
  have hp0 : a.pages s ≠ 0 := by
    have := hinv.layout.pos a.user
    simp only [Allocation.pages]
    omega
  have hc0 : a.cnt ≠ 0 := Nat.ne_of_gt hcnt
  have hidx : pgNo (a.pages s) - pgNo (s.pool a.user).base = a.idx := by
    rw [Allocation.pages, pgNo_page (hinv.layout.aligned a.user)]
    omega
  obtain ⟨c, hall, hc⟩ := bitmapAll_spec (b := (s.pool a.user).usedMap) hin
  have hct : c = true := hc.mpr fun j h1 h2 => (hinv.used a.user j).mpr ⟨a, ha, rfl, h1, h2⟩
  obtain ⟨b, hset, hsize, hbit⟩ := bitmapSetMultiple_spec (b := (s.pool a.user).usedMap) false hin
  refine ⟨s.setPool a.user { s.pool a.user with usedMap := b }, ?_, ?_⟩
  · -- the pool is found by its address, kernel pool first
    have hk := hinv.pageFromPool_kernel ha
    cases hu : a.user
    · rw [hu] at hk hidx hall hset
      simp [pallocFreeMultiple, hofs, hp0, hc0, hk, hidx, hall, hct, hset]
    · have hus := hinv.pageFromPool_user ha hu
      rw [hu] at hk hidx hall hset
      simp [pallocFreeMultiple, hofs, hp0, hc0, hk, hus, hidx, hall, hct, hset]
  · refine ⟨hinv.layout.setPool _ b hsize, fun u j => ?_, fun c hc => ?_,
      hinv.apart.sublist List.erase_sublist⟩
    · rw [hinv.usedPages_erase ha, ← hinv.used]
      by_cases hu : u = a.user
      · subst hu
        rw [pool_setPool_self, hbit]
        by_cases hj : a.idx ≤ j ∧ j < a.idx + a.cnt
        · simp [hj, Allocation.Mem]
        · simp [hj, Allocation.Mem]
      · rw [pool_setPool_of_ne _ hu]
        simp [Allocation.Mem, Ne.symm hu]
    · rw [size_setPool hsize]
      exact hinv.inside c (List.mem_of_mem_erase hc)

end Free

/-! ## Every reachable state -/

section Reach
variable {s : PallocState} {live : List Allocation}

theorem initPool_spec {base n : Nat} {p : Pool} (h : initPool base n = some p) :
    ∃ bm, bm ≤ n ∧ p.base = base + bm * PGSIZE ∧ p.usedMap = ⟨List.replicate (n - bm) false⟩ := by
  unfold initPool at h
  simp only [bitmapCreateInBuf] at h
  split_ifs at h with h1 <;> simp only [Option.bind_eq_bind, Option.bind_none,
    Option.bind_some, Option.pure_def, Option.some.injEq, reduceCtorEq] at h
  subst h
  exact ⟨_, Nat.le_of_not_lt h1, rfl, rfl⟩

theorem Inv.init {ram lim : Nat} {s0 : PallocState} (h : pallocInit ram lim = some s0) :
    Inv s0 [] := by
  simp only [pallocInit, Option.bind_eq_bind, Option.bind_eq_some_iff, Option.pure_def,
    Option.some.injEq] at h
  obtain ⟨fs, hfs, fe, -, kpool, hk, upool, hu, rfl⟩ := h
  have hfs' : fs = 1024 * 1024 + 3221225472 := by
    simp only [ptov, show PHYS_BASE.toNat = 3221225472 from rfl] at hfs
    simpa using hfs.symm
  generalize (fe - fs) / PGSIZE -
    (if (fe - fs) / PGSIZE / 2 > lim then lim else (fe - fs) / PGSIZE / 2) = kp at hk hu
  obtain ⟨bm1, hbm1, hkb, hkm⟩ := initPool_spec hk
  obtain ⟨bm2, -, hub, hum⟩ := initPool_spec hu
  have hused : ∀ u j, ((PallocState.mk kpool upool).pool u).usedMap.bit j = false := by
    intro u j
    cases u
    · rw [pool_false, hkm, bit_replicate_false]
    · rw [pool_true, hum, bit_replicate_false]
  refine ⟨⟨fun u => ?_, fun u => ?_, ?_⟩, fun u j => ?_, by simp, List.Pairwise.nil⟩
  · cases u
    · rw [pool_false, hkb, hfs']
      simp only [PGSIZE]
      omega
    · rw [pool_true, hub, hfs']
      simp only [PGSIZE]
      omega
  · cases u
    · rw [pool_false, hkb]
      omega
    · rw [pool_true, hub]
      omega
  · rw [pool_false, pool_true, hkb, hub, hkm]
    simp only [bitmapSize, List.length_replicate]
    rw [Nat.mul_sub, Nat.mul_comm PGSIZE kp, Nat.mul_comm PGSIZE bm1]
    have : bm1 * PGSIZE ≤ kp * PGSIZE := Nat.mul_le_mul_right _ hbm1
    omega
  · rw [hused u j]
    simp [usedPages]

theorem Inv.step {st st' : PallocState × List Allocation} (h : Step st st') (hinv : Inv st.1 st.2) :
    Inv st'.1 st'.2 := by
  cases h with
  | get h => exact hinv.get h
  | free ha h =>
    obtain ⟨s', h', hinv'⟩ := hinv.free ha
    rw [h, Option.some.injEq] at h'
    subst h'
    exact hinv'

theorem Inv.reachable {ram lim : Nat} {s0 : PallocState} (hinit : pallocInit ram lim = some s0)
    {st : PallocState × List Allocation} (h : Relation.ReflTransGen Step (s0, []) st) :
    Inv st.1 st.2 := by
  induction h with
  | refl => exact Inv.init hinit
  | tail _ hstep ih => exact Inv.step hstep ih

/-- After any run from `palloc_init`: the bits of each pool are the pages held from it, held
allocations are disjoint runs inside their pool, each can be freed, and a request for `n ≥ 1`
pages gets the first free run of its pool, or `NULL` with nothing changed, or a panic under
`PAL_ASSERT`. -/
theorem palloc_allocations_safe {ram lim : Nat} {s0 s : PallocState} {live : List Allocation}
    (hinit : pallocInit ram lim = some s0) (hrun : Relation.ReflTransGen Step (s0, []) (s, live)) :
    Inv s live ∧ (∀ a ∈ live, ∃ s', pallocFreeMultiple s (a.pages s) a.cnt = some s') ∧
      ∀ flags n, n ≠ 0 → GetSpec s live flags n := by
  have hinv : Inv s live := Inv.reachable hinit hrun
  exact ⟨hinv, fun a ha => (hinv.free ha).imp fun _ h => h.1, fun flags _ hn => hinv.getSpec flags hn⟩

set_option maxRecDepth 100000 in
/-- With 300 pages of memory: two kernel pages, three user pages, and the kernel pages freed. -/
theorem palloc_allocations_safe_get_free :
    ∃ s0 s, pallocInit 300 1000 = some s0 ∧
      Relation.ReflTransGen Step (s0, []) (s, [⟨true, 0, 3⟩]) ∧ Inv s [⟨true, 0, 3⟩] ∧
      (∀ a ∈ [(⟨true, 0, 3⟩ : Allocation)],
        ∃ s', pallocFreeMultiple s (a.pages s) a.cnt = some s') ∧
      ∀ flags n, n ≠ 0 → GetSpec s [⟨true, 0, 3⟩] flags n := by
  obtain ⟨s, hs⟩ : ∃ s, (pallocInit 300 1000).bind (fun s0 =>
      runRequests (s0, []) [.get 0 2, .get PAL_USER 3, .free 1]) = some (s, [⟨true, 0, 3⟩]) :=
    ⟨_, rfl⟩
  obtain ⟨s0, h0, hrun⟩ := Option.bind_eq_some_iff.mp hs
  have hsteps := runRequests_steps hrun
  exact ⟨s0, s, h0, hsteps, palloc_allocations_safe h0 hsteps⟩

set_option maxRecDepth 100000 in
/-- A request for no pages returns `NULL`, and a request under `PAL_ASSERT` that does not fit
panics: with 300 pages of memory the kernel pool has 21 pages. -/
theorem palloc_null_or_panic : ∃ s0, pallocInit 300 1000 = some s0 ∧
    pallocGetMultiple s0 0 0 = some (s0, 0) ∧
    ∃ s1 p, pallocGetMultiple s0 0 21 = some (s1, p) ∧ p ≠ 0 ∧
      pallocGetMultiple s1 PAL_ASSERT 1 = none :=
  ⟨_, rfl, pallocGetMultiple_zero _ _, _, _, rfl, by decide, rfl⟩

end Reach

end Pintos.Palloc
