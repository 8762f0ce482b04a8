import Pintos.Lib.Word

/-! # `userprog/pagedir.c`: page directories

Kernel memory holds the page directory and the page tables as 32-bit words at their byte
addresses. The page that `palloc_get_page` returns is an argument of the call (`none` when the
pool is empty); `invalidate_pagedir` only reloads the TLB, so it has no effect here.

* `Sys.pte s va`: the entry for the page of `va`, `0` where there is no page table.
* `pagedirGetPage_eq`: `pagedir_get_page` reads the frame off that entry.
* `pagedir_refines_map`: from `pagedir_create` on, every allowed call returns,
  `pagedir_set_page` fails exactly when it needs a page table and gets no page for it, a failed
  call changes nothing, no call changes the entry of another page, and `pagedir_get_page` is the
  finite map that the successful `pagedir_set_page` and `pagedir_clear_page` calls build.
-/

namespace Pintos.Pagedir
set_option autoImplicit false

/-! ## `threads/vaddr.h` and `threads/pte.h` -/

def BITMASK (shift cnt : UInt32) : UInt32 := ((1 <<< cnt) - 1) <<< shift

def PGBITS : UInt32 := 12
def PGSIZE : UInt32 := 1 <<< PGBITS
def PGMASK : UInt32 := BITMASK 0 PGBITS

def pgOfs (va : UInt32) : UInt32 := va &&& PGMASK

def pgRoundDown (va : UInt32) : UInt32 := va &&& ~~~PGMASK

def PHYS_BASE : UInt32 := 0xc0000000

def isUserVaddr (vaddr : UInt32) : Bool := vaddr < PHYS_BASE

def isKernelVaddr (vaddr : UInt32) : Bool := vaddr ≥ PHYS_BASE

def ptov (paddr : UInt32) : Option UInt32 := do
  guard (paddr < PHYS_BASE)
  return paddr + PHYS_BASE

def vtop (vaddr : UInt32) : Option UInt32 := do
  guard (isKernelVaddr vaddr)
  return vaddr - PHYS_BASE

def PTSHIFT : UInt32 := PGBITS
def PTBITS : UInt32 := 10
def PTMASK : UInt32 := BITMASK PTSHIFT PTBITS
def PDSHIFT : UInt32 := PTSHIFT + PTBITS

def ptNo (va : UInt32) : UInt32 := (va &&& PTMASK) >>> PTSHIFT

def pdNo (va : UInt32) : UInt32 := va >>> PDSHIFT

def PTE_ADDR : UInt32 := 0xfffff000
def PTE_P : UInt32 := 0x1
def PTE_W : UInt32 := 0x2
def PTE_U : UInt32 := 0x4
def PTE_A : UInt32 := 0x20
def PTE_D : UInt32 := 0x40

def pdeCreate (pt : UInt32) : Option UInt32 := do
  guard (pgOfs pt = 0)
  return (← vtop pt) ||| PTE_U ||| PTE_P ||| PTE_W

def pdeGetPt (pde : UInt32) : Option UInt32 := do
  guard (pde &&& PTE_P ≠ 0)
  ptov (pde &&& PTE_ADDR)

def pteCreateKernel (page : UInt32) (writable : Bool) : Option UInt32 := do
  guard (pgOfs page = 0)
  return (← vtop page) ||| PTE_P ||| (if writable then PTE_W else 0)

def pteCreateUser (page : UInt32) (writable : Bool) : Option UInt32 := do
  return (← pteCreateKernel page writable) ||| PTE_U

def pteGetPage (pte : UInt32) : Option UInt32 := ptov (pte &&& PTE_ADDR)

/-! ## Memory -/

/-- Words of kernel memory at their byte addresses. -/
abbrev Mem := UInt32 → UInt32

/-- `memset (page, 0, PGSIZE)`, as `palloc_get_page (PAL_ZERO)` does. -/
def zeroPage (m : Mem) (page : UInt32) : Mem := fun a => if a - page < PGSIZE then 0 else m a

/-- `memcpy (dst, src, PGSIZE)`. -/
def copyPage (m : Mem) (dst src : UInt32) : Mem :=
  fun a => if a - dst < PGSIZE then m (src + (a - dst)) else m a

/-! ## `pagedir.c` -/

/-- The end of `lookup_page`: the address of the entry for `vaddr` in the page table that the
entry at `pde` points to. -/
def pteOfPde (m : Mem) (pde vaddr : UInt32) : Option (Mem × Option UInt32) := do
  let pt ← pdeGetPt (m pde)
  return (m, some (pt + 4 * ptNo vaddr))

/-- `lookup_page (pd, vaddr, create)`, with `alloc` the page `palloc_get_page (PAL_ZERO)`
returns. The result is the memory and the address of the entry, `none` for a null pointer. -/
def lookupPage (m : Mem) (pd vaddr : UInt32) (create : Bool) (alloc : Option UInt32) :
    Option (Mem × Option UInt32) := do
  guard (pd ≠ 0)
  guard (!create || isUserVaddr vaddr)
  let pde := pd + 4 * pdNo vaddr
  if m pde = 0 then
    if create then
      match alloc with
      | none => return (m, none)
      | some pt => pteOfPde (Function.update (zeroPage m pt) pde (← pdeCreate pt)) pde vaddr
    else return (m, none)
  else pteOfPde m pde vaddr

/-- `pagedir_create`, with `alloc` the page `palloc_get_page (0)` returns. -/
def pagedirCreate (m : Mem) (initPageDir : UInt32) (alloc : Option UInt32) :
    Mem × Option UInt32 :=
  match alloc with
  | some pd => (copyPage m pd initPageDir, some pd)
  | none => (m, none)

def pagedirSetPage (initPageDir initRamPages : UInt32) (m : Mem) (pd upage kpage : UInt32)
    (writable : Bool) (alloc : Option UInt32) : Option (Mem × Bool) := do
  guard (pgOfs upage = 0)
  guard (pgOfs kpage = 0)
  guard (isUserVaddr upage)
  guard ((← vtop kpage) >>> PTSHIFT < initRamPages)
  guard (pd ≠ initPageDir)
  let (m, pte) ← lookupPage m pd upage true alloc
  match pte with
  | some pte =>
    guard (m pte &&& PTE_P = 0)
    return (Function.update m pte (← pteCreateUser kpage writable), true)
  | none => return (m, false)

def pagedirGetPage (m : Mem) (pd uaddr : UInt32) : Option (Option UInt32) := do
  guard (isUserVaddr uaddr)
  let (_, pte) ← lookupPage m pd uaddr false none
  match pte with
  | some pte =>
    if m pte &&& PTE_P ≠ 0 then return some ((← pteGetPage (m pte)) + pgOfs uaddr)
    else return none
  | none => return none

def pagedirClearPage (m : Mem) (pd upage : UInt32) : Option Mem := do
  guard (pgOfs upage = 0)
  guard (isUserVaddr upage)
  let (_, pte) ← lookupPage m pd upage false none
  match pte with
  | some pte =>
    if m pte &&& PTE_P ≠ 0 then return Function.update m pte (m pte &&& ~~~PTE_P)
    else return m
  | none => return m

/-- `pagedir_is_dirty` and `pagedir_is_accessed`, for the flag `bit`. -/
def flagIsSet (bit : UInt32) (m : Mem) (pd vpage : UInt32) : Option Bool := do
  let (_, pte) ← lookupPage m pd vpage false none
  match pte with
  | some pte => return m pte &&& bit ≠ 0
  | none => return false

/-- `pagedir_set_dirty` and `pagedir_set_accessed`, for the flag `bit`. -/
def setFlag (bit : UInt32) (m : Mem) (pd vpage : UInt32) (value : Bool) : Option Mem := do
  let (_, pte) ← lookupPage m pd vpage false none
  match pte with
  | some pte => return Function.update m pte (if value then m pte ||| bit else m pte &&& ~~~bit)
  | none => return m

def pagedirIsDirty : Mem → UInt32 → UInt32 → Option Bool := flagIsSet PTE_D
def pagedirSetDirty : Mem → UInt32 → UInt32 → Bool → Option Mem := setFlag PTE_D
def pagedirIsAccessed : Mem → UInt32 → UInt32 → Option Bool := flagIsSet PTE_A
def pagedirSetAccessed : Mem → UInt32 → UInt32 → Bool → Option Mem := setFlag PTE_A

/-! ## Bit slices as arithmetic -/

theorem toNat_pgOfs (va : UInt32) : (pgOfs va).toNat = va.toNat % 4096 :=
  Word.toNat_and_low va 12 (by decide)

theorem toNat_pgRoundDown (va : UInt32) : (pgRoundDown va).toNat = va.toNat / 4096 * 4096 :=
  Word.toNat_and_high va 12 (by decide) (by decide)

theorem toNat_pdNo (va : UInt32) : (pdNo va).toNat = va.toNat / 4194304 :=
  Word.toNat_shiftRight va 22 (by decide) (by decide)

theorem toNat_ptNo (va : UInt32) : (ptNo va).toNat = va.toNat / 4096 % 1024 :=
  Word.toNat_mid va 12 10 (by decide) (by decide) (by decide)

theorem toNat_and_addr (e : UInt32) : (e &&& PTE_ADDR).toNat = e.toNat / 4096 * 4096 :=
  Word.toNat_and_high e 12 (by decide) (by decide)

theorem toNat_and_present (e : UInt32) : (e &&& PTE_P).toNat = e.toNat % 2 :=
  Word.toNat_and_low e 1 (by decide)

theorem pdNo_lt (va : UInt32) : pdNo va < 1024 := by
  rw [UInt32.lt_iff_toNat_lt, toNat_pdNo]
  have := va.toNat_lt
  simp only [UInt32.reduceToNat]
  omega

theorem pdNo_lt_of_user {va : UInt32} (h : isUserVaddr va) : pdNo va < pdNo PHYS_BASE := by
  simp only [isUserVaddr, decide_eq_true_eq, UInt32.lt_iff_toNat_lt] at h
  rw [UInt32.lt_iff_toNat_lt, toNat_pdNo, toNat_pdNo]
  simp only [PHYS_BASE, UInt32.reduceToNat] at *
  omega

theorem ptNo_lt (va : UInt32) : ptNo va < 1024 := by
  rw [UInt32.lt_iff_toNat_lt, toNat_ptNo]
  simp only [UInt32.reduceToNat]
  omega

theorem pgRoundDown_eq_iff (v w : UInt32) :
    pgRoundDown v = pgRoundDown w ↔ pdNo v = pdNo w ∧ ptNo v = ptNo w := by
  rw [← UInt32.toNat_inj, ← UInt32.toNat_inj, ← UInt32.toNat_inj, toNat_pgRoundDown,
    toNat_pgRoundDown, toNat_pdNo, toNat_pdNo, toNat_ptNo, toNat_ptNo]
  have := v.toNat_lt
  have := w.toNat_lt
  omega

theorem pgRoundDown_of_pgOfs {va : UInt32} (h : pgOfs va = 0) : pgRoundDown va = va := by
  have h' := toNat_pgOfs va
  rw [h, UInt32.toNat_zero] at h'
  rw [← UInt32.toNat_inj, toNat_pgRoundDown]
  omega

theorem toNat_slot {P i : UInt32} (hP : pgOfs P = 0) (hi : i < 1024) :
    (P + 4 * i).toNat = P.toNat + 4 * i.toNat := by
  have h' := toNat_pgOfs P
  rw [hP, UInt32.toNat_zero] at h'
  rw [UInt32.lt_iff_toNat_lt] at hi
  have := P.toNat_lt
  simp only [UInt32.reduceToNat] at hi
  rw [UInt32.toNat_add, UInt32.toNat_mul]
  simp only [UInt32.reduceToNat]
  omega

theorem slot_inj {P Q i j : UInt32} (hP : pgOfs P = 0) (hQ : pgOfs Q = 0) (hi : i < 1024)
    (hj : j < 1024) : P + 4 * i = Q + 4 * j ↔ P = Q ∧ i = j := by
  have hP' := toNat_pgOfs P
  have hQ' := toNat_pgOfs Q
  rw [hP, UInt32.toNat_zero] at hP'
  rw [hQ, UInt32.toNat_zero] at hQ'
  have hi' := UInt32.lt_iff_toNat_lt.mp hi
  have hj' := UInt32.lt_iff_toNat_lt.mp hj
  simp only [UInt32.reduceToNat] at hi' hj'
  rw [← UInt32.toNat_inj, ← UInt32.toNat_inj, ← UInt32.toNat_inj, toNat_slot hP hi,
    toNat_slot hQ hj]
  omega

theorem sub_lt_PGSIZE_iff (a : UInt32) {p : UInt32} (hp : pgOfs p = 0) :
    a - p < PGSIZE ↔ pgRoundDown a = p := by
  have hp' := toNat_pgOfs p
  rw [hp, UInt32.toNat_zero] at hp'
  rw [UInt32.lt_iff_toNat_lt, ← UInt32.toNat_inj, toNat_pgRoundDown, UInt32.toNat_sub]
  have := a.toNat_lt
  have := p.toNat_lt
  rw [show PGSIZE.toNat = 4096 by decide]
  omega

theorem pgRoundDown_slot {P i : UInt32} (hP : pgOfs P = 0) (hi : i < 1024) :
    pgRoundDown (P + 4 * i) = P := by
  have hP' := toNat_pgOfs P
  rw [hP, UInt32.toNat_zero] at hP'
  have hi' := UInt32.lt_iff_toNat_lt.mp hi
  simp only [UInt32.reduceToNat] at hi'
  rw [← UInt32.toNat_inj, toNat_pgRoundDown, toNat_slot hP hi]
  omega

/-! ## The page directory of a process -/

structure Sys where
  mem : Mem
  pd : UInt32

namespace Sys

/-- The entry `pd[i]`. -/
def pde (s : Sys) (i : UInt32) : UInt32 := s.mem (s.pd + 4 * i)

/-- The page table `pd[i]` points to. -/
def pt (s : Sys) (i : UInt32) : UInt32 := (s.pde i &&& PTE_ADDR) + PHYS_BASE

def pteAddr (s : Sys) (va : UInt32) : UInt32 := s.pt (pdNo va) + 4 * ptNo va

/-- The entry for the page of `va`, `0` where its page table is missing. -/
def pte (s : Sys) (va : UInt32) : UInt32 :=
  if s.pde (pdNo va) = 0 then 0 else s.mem (s.pteAddr va)

end Sys

/-- The frame an entry maps its page to. -/
def frameOf (e : UInt32) : Option UInt32 :=
  if e &&& PTE_P = 0 then none else some ((e &&& PTE_ADDR) + PHYS_BASE)

/-- Every entry of the directory is absent or points to a page table of its own. -/
structure Tables (s : Sys) : Prop where
  pde_ok : ∀ i < 1024, s.pde i ≠ 0 → s.pde i &&& PTE_P ≠ 0 ∧ PHYS_BASE ≤ s.pt i
  pt_inj : ∀ i < 1024, ∀ j < 1024, s.pde i ≠ 0 → s.pde j ≠ 0 → s.pt i = s.pt j → i = j

structure Inv (initPageDir : UInt32) (s : Sys) : Prop extends Tables s where
  pd_page : pgOfs s.pd = 0
  pd_kernel : PHYS_BASE ≤ s.pd
  pd_ne : s.pd ≠ initPageDir
  pt_ne : ∀ i < 1024, s.pde i ≠ 0 → s.pt i ≠ s.pd
  frame_kernel : ∀ va, isUserVaddr va → ∀ k, frameOf (s.pte va) = some k → PHYS_BASE ≤ k

section Lookup
variable {ipd : UInt32} {s : Sys}

/-- A page that `ptov` returns from the address bits of an entry is a kernel page exactly when
the addition does not wrap, and then `ptov`'s assertion holds. -/
theorem addr_of_kernel {e : UInt32} (h : PHYS_BASE ≤ (e &&& PTE_ADDR) + PHYS_BASE) :
    (e &&& PTE_ADDR).toNat + 3221225472 < 2 ^ 32 := by
  rw [UInt32.le_iff_toNat_le, UInt32.toNat_add, toNat_and_addr] at h
  rw [toNat_and_addr]
  have := e.toNat_lt
  simp only [PHYS_BASE, UInt32.reduceToNat] at h
  omega

theorem addr_lt_of_kernel {e : UInt32} (h : PHYS_BASE ≤ (e &&& PTE_ADDR) + PHYS_BASE) :
    e &&& PTE_ADDR < PHYS_BASE := by
  have := addr_of_kernel h
  rw [UInt32.lt_iff_toNat_lt]
  simp only [PHYS_BASE, UInt32.reduceToNat]
  omega

theorem pgOfs_addr_add {e : UInt32} (h : PHYS_BASE ≤ (e &&& PTE_ADDR) + PHYS_BASE) :
    pgOfs ((e &&& PTE_ADDR) + PHYS_BASE) = 0 := by
  have := addr_of_kernel h
  rw [← UInt32.toNat_inj, toNat_pgOfs, UInt32.toNat_add, UInt32.toNat_zero]
  rw [toNat_and_addr] at *
  simp only [PHYS_BASE, UInt32.reduceToNat]
  omega

theorem Inv.pd_ne_zero (h : Inv ipd s) : s.pd ≠ 0 := by
  intro h0
  have := h.pd_kernel
  rw [h0] at this
  exact absurd this (by decide)

theorem pteOfPde_of_present {m : Mem} {pde va : UInt32} (hp : m pde &&& PTE_P ≠ 0)
    (ha : PHYS_BASE ≤ (m pde &&& PTE_ADDR) + PHYS_BASE) :
    pteOfPde m pde va = some (m, some ((m pde &&& PTE_ADDR) + PHYS_BASE + 4 * ptNo va)) := by
  simp [pteOfPde, pdeGetPt, ptov, hp, addr_lt_of_kernel ha]

theorem lookupPage_of_inv (h : Inv ipd s) (va : UInt32) (alloc : Option UInt32) :
    lookupPage s.mem s.pd va false alloc =
      some (s.mem, if s.pde (pdNo va) = 0 then none else some (s.pteAddr va)) := by
  have hpd := h.pd_ne_zero
  by_cases h0 : s.pde (pdNo va) = 0
  · simp only [Sys.pde] at h0
    simp [lookupPage, hpd, h0, Sys.pde]
  · obtain ⟨hp, ha⟩ := h.pde_ok _ (pdNo_lt va) h0
    simp only [Sys.pde] at h0 hp ha
    simp [lookupPage, hpd, h0, Sys.pde, pteOfPde_of_present hp ha, Sys.pteAddr, Sys.pt]

theorem pagedirGetPage_eq (h : Inv ipd s) {u : UInt32} (hu : isUserVaddr u) :
    pagedirGetPage s.mem s.pd u = some ((frameOf (s.pte u)).map (· + pgOfs u)) := by
  by_cases h0 : s.pde (pdNo u) = 0
  · simp [pagedirGetPage, hu, lookupPage_of_inv h, h0, Sys.pte, frameOf]
  · by_cases hp : s.mem (s.pteAddr u) &&& PTE_P = 0
    · simp [pagedirGetPage, hu, lookupPage_of_inv h, h0, Sys.pte, frameOf, hp]
    · have hk := h.frame_kernel u hu ((s.mem (s.pteAddr u) &&& PTE_ADDR) + PHYS_BASE)
        (by simp [Sys.pte, h0, frameOf, hp])
      simp [pagedirGetPage, hu, lookupPage_of_inv h, h0, Sys.pte, frameOf, hp, pteGetPage, ptov,
        addr_lt_of_kernel hk]

end Lookup

/-! ## Writing one entry -/

/-- The memory with the entry for the page of `va` set to `e`. -/
def Sys.setPte (s : Sys) (va e : UInt32) : Sys := ⟨Function.update s.mem (s.pteAddr va) e, s.pd⟩

section Writes
variable {ipd : UInt32} {s : Sys}

theorem Inv.pt_page (h : Inv ipd s) {i : UInt32} (hi : i < 1024) (hne : s.pde i ≠ 0) :
    pgOfs (s.pt i) = 0 :=
  pgOfs_addr_add (h.pde_ok i hi hne).2

theorem Inv.pteAddr_ne_pde (h : Inv ipd s) {va i : UInt32} (hva : s.pde (pdNo va) ≠ 0)
    (hi : i < 1024) : s.pteAddr va ≠ s.pd + 4 * i := by
  intro heq
  rw [Sys.pteAddr, slot_inj (h.pt_page (pdNo_lt va) hva) h.pd_page (ptNo_lt va) hi] at heq
  exact h.pt_ne _ (pdNo_lt va) hva heq.1

theorem Inv.pteAddr_eq_iff (h : Inv ipd s) {v w : UInt32} (hv : s.pde (pdNo v) ≠ 0)
    (hw : s.pde (pdNo w) ≠ 0) : s.pteAddr w = s.pteAddr v ↔ pgRoundDown w = pgRoundDown v := by
  rw [Sys.pteAddr, Sys.pteAddr, slot_inj (h.pt_page (pdNo_lt w) hw) (h.pt_page (pdNo_lt v) hv)
    (ptNo_lt w) (ptNo_lt v), pgRoundDown_eq_iff]
  constructor
  · rintro ⟨hpt, hno⟩
    exact ⟨h.pt_inj _ (pdNo_lt w) _ (pdNo_lt v) hw hv hpt, hno⟩
  · rintro ⟨hd, hno⟩
    exact ⟨by rw [hd], hno⟩

theorem setPte_pde (h : Inv ipd s) {va : UInt32} (e : UInt32) (hva : s.pde (pdNo va) ≠ 0)
    {i : UInt32} (hi : i < 1024) : (s.setPte va e).pde i = s.pde i := by
  simp only [Sys.setPte, Sys.pde]
  exact Function.update_of_ne (h.pteAddr_ne_pde hva hi).symm _ _

theorem setPte_pte (h : Inv ipd s) {va : UInt32} (e : UInt32) (hva : s.pde (pdNo va) ≠ 0)
    (w : UInt32) : (s.setPte va e).pte w = if pgRoundDown w = pgRoundDown va then e else s.pte w := by
  have hpde : (s.setPte va e).pde (pdNo w) = s.pde (pdNo w) := setPte_pde h e hva (pdNo_lt w)
  have haddr : (s.setPte va e).pteAddr w = s.pteAddr w := by
    simp only [Sys.pteAddr, Sys.pt, hpde]
  by_cases hw : s.pde (pdNo w) = 0
  · -- no page table for `w`, so `w` is on another page than `va`
    have hne : pgRoundDown w ≠ pgRoundDown va := by
      rw [Ne, pgRoundDown_eq_iff]
      rintro ⟨hd, -⟩
      exact hva (hd ▸ hw)
    simp [Sys.pte, hpde, hw, hne]
  · simp only [Sys.pte, hpde, hw, if_false, haddr]
    simp only [Sys.setPte]
    by_cases hpg : pgRoundDown w = pgRoundDown va
    · rw [if_pos hpg, (h.pteAddr_eq_iff hva hw).mpr hpg, Function.update_self]
    · rw [if_neg hpg, Function.update_of_ne (mt (h.pteAddr_eq_iff hva hw).mp hpg)]

theorem Inv.of_pde_eq (h : Inv ipd s) {s' : Sys} (hpd : s'.pd = s.pd)
    (hpde : ∀ i < 1024, s'.pde i = s.pde i)
    (hk : ∀ va, isUserVaddr va → ∀ k, frameOf (s'.pte va) = some k → PHYS_BASE ≤ k) :
    Inv ipd s' := by
  have hpt : ∀ i < 1024, s'.pt i = s.pt i := fun i hi => by simp only [Sys.pt, hpde i hi]
  refine ⟨⟨fun i hi hne => ?_, fun i hi j hj hne hne' hij => ?_⟩, hpd ▸ h.pd_page,
    hpd ▸ h.pd_kernel, hpd ▸ h.pd_ne, fun i hi hne => ?_, hk⟩
  · rw [hpde i hi] at hne ⊢
    rw [hpt i hi]
    exact h.pde_ok i hi hne
  · rw [hpde i hi] at hne
    rw [hpde j hj] at hne'
    rw [hpt i hi, hpt j hj] at hij
    exact h.pt_inj i hi j hj hne hne' hij
  · rw [hpde i hi] at hne
    rw [hpt i hi, hpd]
    exact h.pt_ne i hi hne

theorem isUserVaddr_of_pgRoundDown_eq {v w : UInt32} (hw : isUserVaddr w)
    (h : pgRoundDown w = pgRoundDown v) : isUserVaddr v := by
  simp only [isUserVaddr, decide_eq_true_eq, UInt32.lt_iff_toNat_lt] at hw ⊢
  rw [← UInt32.toNat_inj, toNat_pgRoundDown, toNat_pgRoundDown] at h
  simp only [PHYS_BASE, UInt32.reduceToNat] at hw ⊢
  omega

theorem Inv.setPte (h : Inv ipd s) {va e : UInt32} (hva : s.pde (pdNo va) ≠ 0)
    (hk : isUserVaddr va → ∀ k, frameOf e = some k → PHYS_BASE ≤ k) : Inv ipd (s.setPte va e) := by
  refine h.of_pde_eq rfl (fun i hi => setPte_pde h e hva hi) fun w hw k hfk => ?_
  rw [setPte_pte h e hva] at hfk
  split at hfk
  · exact hk (isUserVaddr_of_pgRoundDown_eq hw ‹_›) k hfk
  · exact h.frame_kernel w hw k hfk

end Writes

/-! ## Entries and new page tables -/

theorem pgOfs_vtop {p : UInt32} (hp : pgOfs p = 0) : pgOfs (p - PHYS_BASE) = 0 := by
  have hp' := toNat_pgOfs p
  rw [hp, UInt32.toNat_zero] at hp'
  rw [← UInt32.toNat_inj, toNat_pgOfs, UInt32.toNat_sub, UInt32.toNat_zero]
  simp only [PHYS_BASE, UInt32.reduceToNat]
  have := p.toNat_lt
  omega

theorem or_flags {v f : UInt32} (hv : pgOfs v = 0) (hf : f < 4096) (hf1 : f &&& PTE_P ≠ 0) :
    (v ||| f) &&& PTE_P ≠ 0 ∧ (v ||| f) &&& PTE_ADDR = v := by
  have hv' := toNat_pgOfs v
  rw [hv, UInt32.toNat_zero] at hv'
  have hf' := UInt32.lt_iff_toNat_lt.mp hf
  simp only [UInt32.reduceToNat] at hf'
  have hor : (v ||| f).toNat = v.toNat + f.toNat := Word.toNat_or_of_lt v f 12 hv'.symm hf'
  rw [Ne, ← UInt32.toNat_inj, toNat_and_present, UInt32.toNat_zero] at hf1 ⊢
  rw [← UInt32.toNat_inj, toNat_and_addr, hor]
  omega

theorem pdeCreate_eq {p : UInt32} (hp : pgOfs p = 0) (hk : PHYS_BASE ≤ p) :
    pdeCreate p = some ((p - PHYS_BASE) ||| PTE_U ||| PTE_P ||| PTE_W) := by
  simp [pdeCreate, vtop, isKernelVaddr, hp, hk]

theorem pde_value {p : UInt32} (hp : pgOfs p = 0) :
    ((p - PHYS_BASE) ||| PTE_U ||| PTE_P ||| PTE_W) &&& PTE_P ≠ 0 ∧
      (((p - PHYS_BASE) ||| PTE_U ||| PTE_P ||| PTE_W) &&& PTE_ADDR) + PHYS_BASE = p := by
  rw [UInt32.or_assoc, UInt32.or_assoc]
  obtain ⟨h1, h2⟩ := or_flags (pgOfs_vtop hp) (f := PTE_U ||| (PTE_P ||| PTE_W)) (by decide)
    (by decide)
  exact ⟨h1, by rw [h2, UInt32.sub_add_cancel]⟩

theorem pteCreateUser_eq {k : UInt32} (hp : pgOfs k = 0) (hk : PHYS_BASE ≤ k) (writable : Bool) :
    pteCreateUser k writable =
      some ((k - PHYS_BASE) ||| PTE_P ||| (if writable then PTE_W else 0) ||| PTE_U) := by
  simp [pteCreateUser, pteCreateKernel, vtop, isKernelVaddr, hp, hk]

theorem frameOf_pte_value {k : UInt32} (hp : pgOfs k = 0) (writable : Bool) :
    frameOf ((k - PHYS_BASE) ||| PTE_P ||| (if writable then PTE_W else 0) ||| PTE_U) = some k := by
  rw [UInt32.or_assoc, UInt32.or_assoc]
  obtain ⟨h1, h2⟩ := or_flags (pgOfs_vtop hp)
    (f := PTE_P ||| ((if writable then PTE_W else 0) ||| PTE_U))
    (by cases writable <;> decide) (by cases writable <;> decide)
  simp only [frameOf, h1, if_false, h2, UInt32.sub_add_cancel]

/-- The page `palloc_get_page` may return for a new page table: a kernel page that is neither
the directory nor one of its page tables. -/
structure Fresh (s : Sys) (p : UInt32) : Prop where
  page : pgOfs p = 0
  kernel : PHYS_BASE ≤ p
  ne_pd : p ≠ s.pd
  ne_pt : ∀ i < 1024, s.pde i ≠ 0 → s.pt i ≠ p

/-- `lookup_page` with a new page table `p` at `pd[i]`. -/
def Sys.addTable (s : Sys) (i p e : UInt32) : Sys :=
  ⟨Function.update (zeroPage s.mem p) (s.pd + 4 * i) e, s.pd⟩

section AddTable
variable {ipd : UInt32} {s : Sys} {i p e : UInt32}

theorem zeroPage_of_ne {m : Mem} {a : UInt32} (hp : pgOfs p = 0) (ha : pgRoundDown a ≠ p) :
    zeroPage m p a = m a := by
  simp only [zeroPage]
  rw [if_neg (by rwa [sub_lt_PGSIZE_iff a hp])]

theorem zeroPage_slot {m : Mem} {j : UInt32} (hp : pgOfs p = 0) (hj : j < 1024) :
    zeroPage m p (p + 4 * j) = 0 := by
  simp only [zeroPage]
  rw [if_pos ((sub_lt_PGSIZE_iff _ hp).mpr (pgRoundDown_slot hp hj))]

theorem addTable_pde (h : Inv ipd s) (hp : Fresh s p) (hi : i < 1024) {j : UInt32} (hj : j < 1024) :
    (s.addTable i p e).pde j = if j = i then e else s.pde j := by
  simp only [Sys.addTable, Sys.pde]
  by_cases hji : j = i
  · rw [if_pos hji, hji, Function.update_self]
  · rw [if_neg hji, Function.update_of_ne (fun heq => hji ((slot_inj h.pd_page h.pd_page hj hi).mp
      heq).2), zeroPage_of_ne hp.page (by rw [pgRoundDown_slot h.pd_page hj]; exact hp.ne_pd.symm)]

theorem addTable_pt (h : Inv ipd s) (hp : Fresh s p) (hi : i < 1024)
    (he : (e &&& PTE_ADDR) + PHYS_BASE = p) : (s.addTable i p e).pt i = p := by
  rw [Sys.pt, addTable_pde h hp hi hi, if_pos rfl, he]

theorem ne_zero_of_present {e : UInt32} (h : e &&& PTE_P ≠ 0) : e ≠ 0 := by
  rintro rfl
  exact h (by decide)

theorem addTable_pte (h : Inv ipd s) (hp : Fresh s p) (hi : i < 1024) (h0 : s.pde i = 0)
    (hpres : e &&& PTE_P ≠ 0) (he : (e &&& PTE_ADDR) + PHYS_BASE = p) (w : UInt32) :
    (s.addTable i p e).pte w = s.pte w := by
  have hw := pdNo_lt w
  by_cases hwi : pdNo w = i
  · have hold : s.pte w = 0 := by simp [Sys.pte, hwi, h0]
    have hslot : s.pd + 4 * i ≠ p + 4 * ptNo w := fun heq =>
      hp.ne_pd ((slot_inj h.pd_page hp.page hi (ptNo_lt w)).mp heq).1.symm
    rw [hold]
    simp only [Sys.pte, Sys.pteAddr, hwi, addTable_pt h hp hi he, addTable_pde h hp hi hi, if_pos,
      ne_zero_of_present hpres, if_false]
    simp only [Sys.addTable]
    rw [Function.update_of_ne hslot.symm, zeroPage_slot hp.page (ptNo_lt w)]
  · have hpde : (s.addTable i p e).pde (pdNo w) = s.pde (pdNo w) := by
      rw [addTable_pde h hp hi hw, if_neg hwi]
    by_cases hw0 : s.pde (pdNo w) = 0
    · simp [Sys.pte, hpde, hw0]
    · have haddr : (s.addTable i p e).pteAddr w = s.pteAddr w := by
        simp only [Sys.pteAddr, Sys.pt, hpde]
      simp only [Sys.pte, hpde, hw0, if_false, haddr]
      simp only [Sys.addTable]
      rw [Function.update_of_ne (h.pteAddr_ne_pde hw0 hi), zeroPage_of_ne hp.page
        (by rw [Sys.pteAddr, pgRoundDown_slot (h.pt_page hw hw0) (ptNo_lt w)]
            exact hp.ne_pt _ hw hw0)]

theorem Inv.addTable (h : Inv ipd s) (hp : Fresh s p) (hi : i < 1024) (h0 : s.pde i = 0)
    (hpres : e &&& PTE_P ≠ 0) (he : (e &&& PTE_ADDR) + PHYS_BASE = p) :
    Inv ipd (s.addTable i p e) := by
  have hpt : ∀ j < 1024, j ≠ i → (s.addTable i p e).pt j = s.pt j := fun j hj hji => by
    rw [Sys.pt, Sys.pt, addTable_pde h hp hi hj, if_neg hji]
  refine ⟨⟨fun j hj hne => ?_, fun j hj k hk hne hne' hjk => ?_⟩, h.pd_page, h.pd_kernel, h.pd_ne,
    fun j hj hne => ?_, fun w hw k hk => ?_⟩
  · by_cases hji : j = i
    · subst hji
      rw [addTable_pde h hp hi hj, if_pos rfl, addTable_pt h hp hj he]
      exact ⟨hpres, hp.kernel⟩
    · rw [addTable_pde h hp hi hj, if_neg hji] at hne ⊢
      rw [hpt j hj hji]
      exact h.pde_ok j hj hne
  · rw [addTable_pde h hp hi hj] at hne
    rw [addTable_pde h hp hi hk] at hne'
    by_cases hji : j = i <;> by_cases hki : k = i
    · rw [hji, hki]
    · subst hji
      rw [if_neg hki] at hne'
      rw [addTable_pt h hp hj he, hpt k hk hki] at hjk
      exact absurd hjk.symm (hp.ne_pt k hk hne')
    · subst hki
      rw [if_neg hji] at hne
      rw [addTable_pt h hp hk he, hpt j hj hji] at hjk
      exact absurd hjk (hp.ne_pt j hj hne)
    · rw [if_neg hji] at hne
      rw [if_neg hki] at hne'
      rw [hpt j hj hji, hpt k hk hki] at hjk
      exact h.pt_inj j hj k hk hne hne' hjk
  · by_cases hji : j = i
    · subst hji
      rw [addTable_pt h hp hj he]
      exact hp.ne_pd
    · rw [addTable_pde h hp hi hj, if_neg hji] at hne
      rw [hpt j hj hji]
      exact h.pt_ne j hj hne
  · rw [addTable_pte h hp hi h0 hpres he] at hk
    exact h.frame_kernel w hw k hk

end AddTable

/-! ## `lookup_page` with `create` -/

section Create
variable {ipd : UInt32} {s : Sys} {va : UInt32}

theorem lookupPage_create_of_present (h : Inv ipd s) (hu : isUserVaddr va)
    (h0 : s.pde (pdNo va) ≠ 0) (alloc : Option UInt32) :
    lookupPage s.mem s.pd va true alloc = some (s.mem, some (s.pteAddr va)) := by
  obtain ⟨hp, ha⟩ := h.pde_ok _ (pdNo_lt va) h0
  simp only [Sys.pde] at h0 hp
  simp only [Sys.pt, Sys.pde] at ha
  simp [lookupPage, h.pd_ne_zero, hu, h0, pteOfPde_of_present hp ha, Sys.pteAddr, Sys.pt, Sys.pde]

theorem lookupPage_create_none (h : Inv ipd s) (hu : isUserVaddr va) (h0 : s.pde (pdNo va) = 0) :
    lookupPage s.mem s.pd va true none = some (s.mem, none) := by
  simp only [Sys.pde] at h0
  simp [lookupPage, h.pd_ne_zero, hu, h0]

theorem lookupPage_create_some (h : Inv ipd s) (hu : isUserVaddr va) (h0 : s.pde (pdNo va) = 0)
    {p : UInt32} (hp : Fresh s p) :
    ∃ e, lookupPage s.mem s.pd va true (some p) =
        some ((s.addTable (pdNo va) p e).mem, some ((s.addTable (pdNo va) p e).pteAddr va)) ∧
      e &&& PTE_P ≠ 0 ∧ (e &&& PTE_ADDR) + PHYS_BASE = p := by
  obtain ⟨hpres, he⟩ := pde_value hp.page
  refine ⟨_, ?_, hpres, he⟩
  have hpde : (s.addTable (pdNo va) p ((p - PHYS_BASE) ||| PTE_U ||| PTE_P ||| PTE_W)).mem
      (s.pd + 4 * pdNo va) = (p - PHYS_BASE) ||| PTE_U ||| PTE_P ||| PTE_W :=
    Function.update_self _ _ _
  simp only [Sys.pde] at h0
  simp only [lookupPage, ne_eq, h.pd_ne_zero, not_false_eq_true, guard_true, hu, Bool.not_true,
    Bool.false_or, h0, if_true, pdeCreate_eq hp.page hp.kernel, pure_bind, Option.bind_eq_bind,
    Option.bind_some]
  show pteOfPde (s.addTable (pdNo va) p _).mem (s.pd + 4 * pdNo va) va = _
  rw [pteOfPde_of_present (by rw [hpde]; exact hpres) (by rw [hpde, he]; exact hp.kernel)]
  rfl

end Create

/-! ## Calls on one page directory -/

inductive Event
  | setPage (upage kpage : UInt32) (writable : Bool) (alloc : Option UInt32)
  | clearPage (upage : UInt32)
  | setDirty (vpage : UInt32) (dirty : Bool)
  | setAccessed (vpage : UInt32) (accessed : Bool)

/-- The page a call is about. -/
def Event.page : Event → UInt32
  | .setPage upage .. | .clearPage upage => pgRoundDown upage
  | .setDirty vpage _ | .setAccessed vpage _ => pgRoundDown vpage

/-- A call and the value it returns, `true` for the functions that return nothing. -/
def step (initPageDir initRamPages : UInt32) (s : Sys) : Event → Option (Sys × Bool)
  | .setPage upage kpage writable alloc => do
    let (m, ok) ← pagedirSetPage initPageDir initRamPages s.mem s.pd upage kpage writable alloc
    return (⟨m, s.pd⟩, ok)
  | .clearPage upage => return (⟨← pagedirClearPage s.mem s.pd upage, s.pd⟩, true)
  | .setDirty vpage dirty => return (⟨← pagedirSetDirty s.mem s.pd vpage dirty, s.pd⟩, true)
  | .setAccessed vpage accessed =>
    return (⟨← pagedirSetAccessed s.mem s.pd vpage accessed, s.pd⟩, true)

/-- The callers' side of each call: `pagedir_set_page` maps an unmapped user page to a frame
of the user pool, and `palloc_get_page` hands out a page that is not in use. -/
def Event.Allowed (initRamPages : UInt32) (s : Sys) : Event → Prop
  | .setPage upage kpage _ alloc =>
    isUserVaddr upage ∧ pgOfs upage = 0 ∧ pagedirGetPage s.mem s.pd upage = some none ∧
      pgOfs kpage = 0 ∧ PHYS_BASE ≤ kpage ∧ (kpage - PHYS_BASE) >>> PTSHIFT < initRamPages ∧
      ∀ p, alloc = some p → Fresh s p
  | .clearPage upage => isUserVaddr upage ∧ pgOfs upage = 0
  | .setDirty _ _ | .setAccessed _ _ => True

/-- What a call does to the frame of its page, given the value it returned. -/
def Event.frame : Event → Bool → Option UInt32 → Option UInt32
  | .setPage _ kpage _ _, ok, f => if ok then some kpage else f
  | .clearPage _, _, _ => none
  | .setDirty _ _, _, f | .setAccessed _ _, _, f => f

/-- `pagedir_set_page` needs a new page table and `palloc_get_page` has no page for it. -/
def Event.NoTable (s : Sys) : Event → Prop
  | .setPage upage _ _ alloc => s.pde (pdNo upage) = 0 ∧ alloc = none
  | _ => False

/-- Everything a call does: it fails exactly when it finds no page table and gets none, a
failure changes nothing, the entries of the other pages stay, and the frame of its own page
changes as `Event.frame` says. -/
structure Effect (e : Event) (s s' : Sys) (ok : Bool) : Prop where
  fails : ok = false ↔ e.NoTable s
  unchanged : ok = false → s' = s
  pte_other : ∀ w, pgRoundDown w ≠ e.page → s'.pte w = s.pte w
  frame_page : ∀ w, isUserVaddr w → pgRoundDown w = e.page →
    frameOf (s'.pte w) = e.frame ok (frameOf (s.pte w))

section Calls
variable {ipd ram : UInt32} {s : Sys}

theorem Sys.pte_congr (s : Sys) {v w : UInt32} (h : pgRoundDown w = pgRoundDown v) :
    s.pte w = s.pte v := by
  obtain ⟨hd, ht⟩ := (pgRoundDown_eq_iff w v).mp h
  simp only [Sys.pte, Sys.pteAddr, hd, ht]

theorem frameOf_congr {e e' : UInt32} (hP : e &&& PTE_P = e' &&& PTE_P)
    (hA : e &&& PTE_ADDR = e' &&& PTE_ADDR) : frameOf e = frameOf e' := by
  simp only [frameOf, hP, hA]

theorem frameOf_of_absent {e : UInt32} (h : e &&& PTE_P = 0) : frameOf e = none := by
  simp [frameOf, h]

theorem frameOf_clear (e : UInt32) : frameOf (e &&& ~~~PTE_P) = none := by
  apply frameOf_of_absent
  rw [UInt32.and_assoc, show ~~~PTE_P &&& PTE_P = 0 by decide, UInt32.and_zero]

theorem or_and_of_and_eq_zero {f m : UInt32} (h : f &&& m = 0) (e : UInt32) :
    (e ||| f) &&& m = e &&& m := by
  rw [Word.or_and, h, UInt32.or_zero]

theorem and_not_and_of {f m : UInt32} (h : ~~~f &&& m = m) (e : UInt32) :
    (e &&& ~~~f) &&& m = e &&& m := by
  rw [UInt32.and_assoc, h]

theorem Inv.setPage_write {s₁ : Sys} (h₁ : Inv ipd s₁) {upage kpage : UInt32}
    (alloc : Option UInt32) (writable : Bool) (h₁0 : s₁.pde (pdNo upage) ≠ 0)
    (hsame : ∀ w, s₁.pte w = s.pte w) (hkofs : pgOfs kpage = 0) (hk : PHYS_BASE ≤ kpage)
    (hok : ¬(s.pde (pdNo upage) = 0 ∧ alloc = none)) :
    let val := (kpage - PHYS_BASE) ||| PTE_P ||| (if writable then PTE_W else 0) ||| PTE_U
    Inv ipd (s₁.setPte upage val) ∧
      Effect (.setPage upage kpage writable alloc) s (s₁.setPte upage val) true := by
  intro val
  have hval : frameOf val = some kpage := frameOf_pte_value hkofs writable
  refine ⟨h₁.setPte h₁0 fun _ k hfk => ?_,
    ⟨⟨fun hf => absurd hf (by decide), fun hn => absurd hn hok⟩, fun hf => absurd hf (by decide),
      fun w hw => ?_, fun w _ hw => ?_⟩⟩
  · rw [hval] at hfk
    cases hfk
    exact hk
  · change pgRoundDown w ≠ pgRoundDown upage at hw
    rw [setPte_pte h₁ val h₁0, if_neg hw, hsame]
  · change pgRoundDown w = pgRoundDown upage at hw
    rw [setPte_pte h₁ val h₁0, if_pos hw, hval]
    rfl

theorem Inv.step_setPage (h : Inv ipd s) {upage kpage : UInt32} {writable : Bool}
    {alloc : Option UInt32} (ha : (Event.setPage upage kpage writable alloc).Allowed ram s) :
    ∃ s' ok, step ipd ram s (.setPage upage kpage writable alloc) = some (s', ok) ∧ Inv ipd s' ∧
      Effect (.setPage upage kpage writable alloc) s s' ok := by
  obtain ⟨hu, hofs, hmap, hkofs, hk, hram, hfresh⟩ := ha
  have habsent : s.pte upage &&& PTE_P = 0 := by
    rw [pagedirGetPage_eq h hu, Option.some_inj, Option.map_eq_none_iff] at hmap
    by_contra hp
    simp [frameOf, hp] at hmap
  by_cases h0 : s.pde (pdNo upage) = 0
  · cases alloc with
    | none =>
      refine ⟨s, false, ?_, h, ⟨⟨fun _ => ⟨h0, rfl⟩, fun _ => rfl⟩, fun _ => rfl, fun _ _ => rfl,
        fun w _ hw => ?_⟩⟩
      · simp only [step, pagedirSetPage, hofs, hkofs, hu, vtop, isKernelVaddr, ge_iff_le, hk,
          decide_true, guard_true, ne_eq, h.pd_ne, not_false_eq_true, hram, Option.bind_eq_bind,
          Option.bind_some, Option.pure_def]
        rw [lookupPage_create_none h hu h0, Option.bind_some]
        rfl
      · rfl
    | some p =>
      have hp := hfresh p rfl
      obtain ⟨e, hl, hpres, he⟩ := lookupPage_create_some h hu h0 hp
      have h₁ := h.addTable hp (pdNo_lt _) h0 hpres he
      have h₁0 : (s.addTable (pdNo upage) p e).pde (pdNo upage) ≠ 0 := by
        rw [addTable_pde h hp (pdNo_lt _) (pdNo_lt _), if_pos rfl]
        exact ne_zero_of_present hpres
      have hsame := addTable_pte h hp (pdNo_lt _) h0 hpres he
      have hm : (s.addTable (pdNo upage) p e).mem ((s.addTable (pdNo upage) p e).pteAddr upage) &&&
          PTE_P = 0 := by
        have := hsame upage
        simp only [Sys.pte, h₁0, if_false] at this
        rw [this]
        exact habsent
      obtain ⟨hinv, heff⟩ := h₁.setPage_write (some p) writable h₁0 hsame hkofs hk
        fun hn => by cases hn.2
      refine ⟨_, true, ?_, hinv, heff⟩
      simp only [step, pagedirSetPage, hofs, hkofs, hu, vtop, isKernelVaddr, ge_iff_le, hk,
        decide_true, guard_true, ne_eq, h.pd_ne, not_false_eq_true, hram, Option.bind_eq_bind,
        Option.bind_some, Option.pure_def]
      rw [hl, Option.bind_some]
      simp only [hm, guard_true, Option.bind_some, pteCreateUser_eq hkofs hk]
      rfl
  · have hm : s.mem (s.pteAddr upage) &&& PTE_P = 0 := by
      simpa [Sys.pte, h0] using habsent
    obtain ⟨hinv, heff⟩ := h.setPage_write alloc writable h0 (fun _ => rfl) hkofs hk
      fun hn => h0 hn.1
    refine ⟨_, true, ?_, hinv, heff⟩
    simp only [step, pagedirSetPage, hofs, hkofs, hu, vtop, isKernelVaddr, ge_iff_le, hk,
      decide_true, guard_true, ne_eq, h.pd_ne, not_false_eq_true, hram, Option.bind_eq_bind,
      Option.bind_some, Option.pure_def]
    rw [lookupPage_create_of_present h hu h0, Option.bind_some]
    simp only [hm, guard_true, Option.bind_some, pteCreateUser_eq hkofs hk]
    rfl

theorem Inv.step_clearPage (h : Inv ipd s) {upage : UInt32}
    (ha : (Event.clearPage upage).Allowed ram s) :
    ∃ s' ok, step ipd ram s (.clearPage upage) = some (s', ok) ∧ Inv ipd s' ∧
      Effect (.clearPage upage) s s' ok := by
  obtain ⟨hu, hofs⟩ := ha
  have hunfold : step ipd ram s (.clearPage upage) = (do
      let m ← pagedirClearPage s.mem s.pd upage
      return (⟨m, s.pd⟩, true)) := rfl
  have hnone : ∀ w, pgRoundDown w = pgRoundDown upage → s.pte upage &&& PTE_P = 0 →
      frameOf (s.pte w) = none := fun w hw hp => by
    rw [s.pte_congr hw]
    exact frameOf_of_absent hp
  by_cases h0 : s.pde (pdNo upage) = 0
  · refine ⟨s, true, ?_, h, ⟨⟨fun hf => absurd hf (by decide), False.elim⟩, fun _ => rfl,
      fun _ _ => rfl, fun w _ hw => ?_⟩⟩
    · simp only [hunfold, pagedirClearPage, hofs, hu, guard_true, Option.bind_eq_bind,
        Option.bind_some, lookupPage_of_inv h, h0, if_true, Option.pure_def]
    · exact hnone w hw (by simp [Sys.pte, h0])
  · by_cases hp : s.mem (s.pteAddr upage) &&& PTE_P = 0
    · refine ⟨s, true, ?_, h, ⟨⟨fun hf => absurd hf (by decide), False.elim⟩, fun _ => rfl,
        fun _ _ => rfl, fun w _ hw => ?_⟩⟩
      · simp only [hunfold, pagedirClearPage, hofs, hu, guard_true,
          Option.bind_eq_bind, Option.bind_some, lookupPage_of_inv h, h0, if_false, hp, ne_eq,
          not_true_eq_false, Option.pure_def]
      · exact hnone w hw (by simp [Sys.pte, h0, hp])
    · refine ⟨s.setPte upage (s.mem (s.pteAddr upage) &&& ~~~PTE_P), true, ?_,
        h.setPte h0 (fun _ k hk => by rw [frameOf_clear] at hk; cases hk),
        ⟨⟨fun hf => absurd hf (by decide), False.elim⟩, fun hf => absurd hf (by decide),
          fun w hw => ?_, fun w _ hw => ?_⟩⟩
      · simp only [hunfold, pagedirClearPage, hofs, hu, guard_true,
          Option.bind_eq_bind, Option.bind_some, lookupPage_of_inv h, h0, if_false, hp, ne_eq,
          not_false_eq_true, if_true, Option.pure_def]
        rfl
      · rw [setPte_pte h _ h0, if_neg (by simpa only [Event.page] using hw)]
      · rw [setPte_pte h _ h0, if_pos (by simpa only [Event.page] using hw), frameOf_clear]
        rfl

/-- `pagedir_set_dirty` and `pagedir_set_accessed` change a flag that is neither the present bit
nor an address bit, so no frame changes. -/
theorem Inv.of_setFlag (h : Inv ipd s) {bit : UInt32} (hP : bit &&& PTE_P = 0)
    (hA : bit &&& PTE_ADDR = 0) (hP' : ~~~bit &&& PTE_P = PTE_P)
    (hA' : ~~~bit &&& PTE_ADDR = PTE_ADDR) (vpage : UInt32) (value : Bool) :
    ∃ m, setFlag bit s.mem s.pd vpage value = some m ∧ Inv ipd ⟨m, s.pd⟩ ∧
      (∀ w, pgRoundDown w ≠ pgRoundDown vpage → (⟨m, s.pd⟩ : Sys).pte w = s.pte w) ∧
      ∀ w, frameOf ((⟨m, s.pd⟩ : Sys).pte w) = frameOf (s.pte w) := by
  by_cases h0 : s.pde (pdNo vpage) = 0
  · refine ⟨s.mem, ?_, h, fun _ _ => rfl, fun _ => rfl⟩
    simp only [Pagedir.setFlag, lookupPage_of_inv h, h0, if_true, Option.bind_eq_bind,
      Option.bind_some, Option.pure_def]
  · let e := s.mem (s.pteAddr vpage)
    let e' := if value then e ||| bit else e &&& ~~~bit
    have hframe : frameOf e' = frameOf e := by
      cases value
      · exact frameOf_congr (and_not_and_of hP' e) (and_not_and_of hA' e)
      · exact frameOf_congr (or_and_of_and_eq_zero hP e) (or_and_of_and_eq_zero hA e)
    have hte : s.pte vpage = e := by simp [Sys.pte, h0, e]
    refine ⟨(s.setPte vpage e').mem, ?_, h.setPte h0 fun hu k hk => ?_, fun w hw => ?_, fun w => ?_⟩
    · simp only [Pagedir.setFlag, lookupPage_of_inv h, h0, if_false, Option.bind_eq_bind,
        Option.bind_some, Option.pure_def]
      rfl
    · rw [hframe, ← hte] at hk
      exact h.frame_kernel vpage hu k hk
    · exact (setPte_pte h e' h0 w).trans (if_neg hw)
    · show frameOf ((s.setPte vpage e').pte w) = _
      rw [setPte_pte h e' h0]
      by_cases hw : pgRoundDown w = pgRoundDown vpage
      · rw [if_pos hw, hframe, ← hte, s.pte_congr hw]
      · rw [if_neg hw]

theorem Inv.step_setFlag (h : Inv ipd s) {bit : UInt32} (hP : bit &&& PTE_P = 0)
    (hA : bit &&& PTE_ADDR = 0) (hP' : ~~~bit &&& PTE_P = PTE_P)
    (hA' : ~~~bit &&& PTE_ADDR = PTE_ADDR) {e : Event} {vpage : UInt32} {value : Bool}
    (hpage : e.page = pgRoundDown vpage) (hframe : ∀ ok f, e.frame ok f = f)
    (hfail : ¬e.NoTable s) (hstep : step ipd ram s e = (do return (⟨← setFlag bit s.mem s.pd vpage value, s.pd⟩, true))) :
    ∃ s' ok, step ipd ram s e = some (s', ok) ∧ Inv ipd s' ∧ Effect e s s' ok := by
  obtain ⟨m, hm, hinv, hother, hsame⟩ := h.of_setFlag hP hA hP' hA' vpage value
  refine ⟨⟨m, s.pd⟩, true, ?_, hinv,
    ⟨⟨fun hf => absurd hf (by decide), fun hn => absurd hn hfail⟩, fun hf => absurd hf (by decide),
      fun w hw => ?_, fun w _ _ => ?_⟩⟩
  · rw [hstep, hm]
    rfl
  · exact hother w (hpage ▸ hw)
  · rw [hsame, hframe]

theorem Inv.step (h : Inv ipd s) {e : Event} (ha : e.Allowed ram s) :
    ∃ s' ok, step ipd ram s e = some (s', ok) ∧ Inv ipd s' ∧ Effect e s s' ok := by
  cases e with
  | setPage upage kpage writable alloc => exact h.step_setPage ha
  | clearPage upage => exact h.step_clearPage ha
  | setDirty vpage dirty =>
    exact h.step_setFlag (by decide) (by decide) (by decide) (by decide) rfl (fun _ _ => rfl) id
      rfl
  | setAccessed vpage accessed =>
    exact h.step_setFlag (by decide) (by decide) (by decide) (by decide) rfl (fun _ _ => rfl) id
      rfl

end Calls

/-! ## From `pagedir_create` on -/

/-- `init_page_dir`: no user entries, and page tables of their own for the kernel entries. -/
structure Boot (m₀ : Mem) (initPageDir : UInt32) : Prop where
  tables : Tables ⟨m₀, initPageDir⟩
  user_absent : ∀ i < pdNo PHYS_BASE, (⟨m₀, initPageDir⟩ : Sys).pde i = 0

/-- The finite map that the calls build: each one sets the frame of its page. -/
def absMap (tr : List (Event × Bool)) : UInt32 → Option UInt32 :=
  tr.foldl (fun f r => Function.update f r.1.page (r.1.frame r.2 (f r.1.page))) fun _ => none

/-- Runs from `pagedir_create`, recording each call with its result. -/
inductive Run (initPageDir initRamPages : UInt32) (m₀ : Mem) : Sys → List (Event × Bool) → Prop
  | create (pd : UInt32) : Boot m₀ initPageDir → Fresh ⟨m₀, initPageDir⟩ pd →
      Run initPageDir initRamPages m₀ ⟨(pagedirCreate m₀ initPageDir (some pd)).1, pd⟩ []
  | step {s s' : Sys} {tr : List (Event × Bool)} {e : Event} {ok : Bool} :
      Run initPageDir initRamPages m₀ s tr → e.Allowed initRamPages s →
      step initPageDir initRamPages s e = some (s', ok) →
      Run initPageDir initRamPages m₀ s' (tr ++ [(e, ok)])

/-- The frames of the user pages are those of `f`. -/
def Abs (s : Sys) (f : UInt32 → Option UInt32) : Prop :=
  ∀ u, isUserVaddr u → frameOf (s.pte u) = f (pgRoundDown u)

section Runs
variable {ipd ram : UInt32} {m₀ : Mem}

theorem absMap_append (tr : List (Event × Bool)) (e : Event) (ok : Bool) :
    absMap (tr ++ [(e, ok)]) =
      Function.update (absMap tr) e.page (e.frame ok (absMap tr e.page)) := by
  simp [absMap, List.foldl_append]

theorem Abs.step {s s' : Sys} {f : UInt32 → Option UInt32} {e : Event} {ok : Bool} (h : Abs s f)
    (he : Effect e s s' ok) : Abs s' (Function.update f e.page (e.frame ok (f e.page))) := by
  intro u hu
  by_cases hpage : pgRoundDown u = e.page
  · rw [he.frame_page u hu hpage, h u hu, hpage, Function.update_self]
  · rw [he.pte_other u hpage, Function.update_of_ne hpage, h u hu]

theorem copyPage_slot {m : Mem} {pd src i : UInt32} (hi : i < 1024) :
    copyPage m pd src (pd + 4 * i) = m (src + 4 * i) := by
  have h4 : (4 * i).toNat < 4096 := by
    have := UInt32.lt_iff_toNat_lt.mp hi
    simp only [UInt32.reduceToNat] at this
    rw [UInt32.toNat_mul]
    simp only [UInt32.reduceToNat]
    omega
  simp only [copyPage, UInt32.add_comm pd, UInt32.add_sub_cancel]
  rw [if_pos (UInt32.lt_iff_toNat_lt.mpr (by rw [show PGSIZE.toNat = 4096 by decide]; exact h4))]

/-- The directory `pagedir_create` returns copies `init_page_dir`: its user pages are all
unmapped. -/
theorem Inv.create {pd : UInt32} (hb : Boot m₀ ipd) (hp : Fresh ⟨m₀, ipd⟩ pd) :
    Inv ipd ⟨(pagedirCreate m₀ ipd (some pd)).1, pd⟩ ∧
      Abs ⟨(pagedirCreate m₀ ipd (some pd)).1, pd⟩ fun _ => none := by
  have hpde : ∀ i < 1024, (⟨(pagedirCreate m₀ ipd (some pd)).1, pd⟩ : Sys).pde i =
      (⟨m₀, ipd⟩ : Sys).pde i := fun i hi => copyPage_slot hi
  have hpt : ∀ i < 1024, (⟨(pagedirCreate m₀ ipd (some pd)).1, pd⟩ : Sys).pt i =
      (⟨m₀, ipd⟩ : Sys).pt i := fun i hi => by simp only [Sys.pt, hpde i hi]
  have huser : ∀ u, isUserVaddr u → (⟨(pagedirCreate m₀ ipd (some pd)).1, pd⟩ : Sys).pte u = 0 :=
    fun u hu => by
      have hlt := pdNo_lt_of_user hu
      simp [Sys.pte, hpde _ (pdNo_lt u), hb.user_absent _ hlt]
  refine ⟨⟨⟨fun i hi hne => ?_, fun i hi j hj hne hne' hij => ?_⟩, hp.page, hp.kernel, hp.ne_pd,
    fun i hi hne => ?_, fun u hu k hk => ?_⟩, fun u hu => ?_⟩
  · rw [hpde i hi] at hne ⊢
    rw [hpt i hi]
    exact hb.tables.pde_ok i hi hne
  · rw [hpde i hi] at hne
    rw [hpde j hj] at hne'
    rw [hpt i hi, hpt j hj] at hij
    exact hb.tables.pt_inj i hi j hj hne hne' hij
  · rw [hpde i hi] at hne
    rw [hpt i hi]
    exact hp.ne_pt i hi hne
  · rw [huser u hu] at hk
    cases hk
  · rw [huser u hu]
    rfl

theorem Run.inv {s : Sys} {tr : List (Event × Bool)} (h : Run ipd ram m₀ s tr) :
    Inv ipd s ∧ Abs s (absMap tr) := by
  induction h with
  | create pd hb hp => exact Inv.create hb hp
  | step _ ha hst ih =>
    obtain ⟨s', ok, hst', hinv, heff⟩ := ih.1.step ha
    rw [hst] at hst'
    cases hst'
    exact ⟨hinv, absMap_append .. ▸ ih.2.step heff⟩

theorem pagedir_refines_map {s : Sys} {tr : List (Event × Bool)} (h : Run ipd ram m₀ s tr) :
    (∀ u, isUserVaddr u →
      pagedirGetPage s.mem s.pd u = some ((absMap tr (pgRoundDown u)).map (· + pgOfs u))) ∧
    ∀ e, e.Allowed ram s → ∃ s' ok, step ipd ram s e = some (s', ok) ∧
      (ok = false ↔ e.NoTable s) ∧ (ok = false → s' = s) ∧
        ∀ w, pgRoundDown w ≠ e.page → s'.pte w = s.pte w := by
  obtain ⟨hinv, habs⟩ := h.inv
  refine ⟨fun u hu => ?_, fun e ha => ?_⟩
  · rw [pagedirGetPage_eq hinv hu, habs u hu]
  · obtain ⟨s', ok, hst, -, heff⟩ := hinv.step ha
    exact ⟨s', ok, hst, heff.fails, heff.unchanged, heff.pte_other⟩

/-- A first page for a fresh directory. -/
def firstPageCall : Event := .setPage 0x08048000 0xc0010000 true (some 0xc0003000)

theorem pagedir_refines_map_first_page :
    ∃ s, Run 0xc0001000 256 (fun _ => 0) s [(firstPageCall, true)] ∧
      pagedirGetPage s.mem s.pd 0x08048123 = some (some 0xc0010123) := by
  have hzero : ∀ i, (⟨fun _ => 0, 0xc0001000⟩ : Sys).pde i = 0 := fun _ => rfl
  have hb : Boot (fun _ => 0) 0xc0001000 :=
    ⟨⟨fun i _ hne => absurd (hzero i) hne, fun i _ _ _ hne => absurd (hzero i) hne⟩,
      fun i _ => hzero i⟩
  have hp : Fresh ⟨fun _ => 0, 0xc0001000⟩ 0xc0002000 :=
    ⟨by decide, by decide, by decide, fun i _ hne => absurd (hzero i) hne⟩
  have h₀ : Run 0xc0001000 256 (fun _ => 0) _ [] := Run.create 0xc0002000 hb hp
  have hzero₀ : ∀ i, (⟨(pagedirCreate (fun _ => 0) 0xc0001000 (some 0xc0002000)).1,
      0xc0002000⟩ : Sys).pde i = 0 := fun i => by
    simp only [Sys.pde, pagedirCreate, copyPage]
    split <;> rfl
  have ha : firstPageCall.Allowed 256
      ⟨(pagedirCreate (fun _ => 0) 0xc0001000 (some 0xc0002000)).1, 0xc0002000⟩ :=
    ⟨by decide, by decide, by decide, by decide, by decide, by decide, fun p hp' => by
      cases hp'
      exact ⟨by decide, by decide, by decide, fun i _ hne => absurd (hzero₀ i) hne⟩⟩
  obtain ⟨⟨s₁, ok⟩, hr⟩ : ∃ r, step 0xc0001000 256
      ⟨(pagedirCreate (fun _ => 0) 0xc0001000 (some 0xc0002000)).1, 0xc0002000⟩ firstPageCall =
        some r := ⟨_, rfl⟩
  have hok : ok = true := by
    have : (step 0xc0001000 256
        ⟨(pagedirCreate (fun _ => 0) 0xc0001000 (some 0xc0002000)).1, 0xc0002000⟩
        firstPageCall).map Prod.snd = some true := by decide
    rw [hr] at this
    exact Option.some_inj.mp this
  subst hok
  have h₁ := Run.step h₀ ha hr
  refine ⟨s₁, h₁, ?_⟩
  rw [(pagedir_refines_map h₁).1 0x08048123 (by decide)]
  decide

end Runs

end Pintos.Pagedir
