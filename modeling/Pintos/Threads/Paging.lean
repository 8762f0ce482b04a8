import Pintos.Userprog.Pagedir

/-! # `paging_init` of `threads/init.c`: the kernel's page directory

`paging_init` maps each of the `init_ram_pages` pages of physical memory at `PHYS_BASE` on, for
the kernel only, and writable unless it holds kernel text. The page directory and the page
tables are pages of `palloc_get_page (PAL_ASSERT | PAL_ZERO)`, given in the order it returns
them; the page table written to is the last one allocated, which is the one of the current
directory entry because the pages are mapped in order. The load of CR3 is left out.

* `PagingInv`: the directory after the first `k` pages, with `PagingInv.step` for one page.
* `paging_init_maps_ram`: from at most 1 GB of RAM and enough distinct kernel pages, the loop
  ends, every entry is the kernel entry of its page inside RAM and `0` elsewhere, and the
  directory is the `init_page_dir` that `pagedir_create` assumes (`Boot`).
-/

namespace Pintos.Pagedir
set_option autoImplicit false

/-- `&_start <= vaddr && vaddr < &_end_kernel_text`. -/
def inKernelText (textStart textEnd vaddr : UInt32) : Bool := textStart ≤ vaddr && vaddr < textEnd

/-- `if (pd[pde_idx] == 0)` a new page table `pt` from `palloc_get_page (PAL_ASSERT | PAL_ZERO)`
and `pd[pde_idx] = pde_create (pt)`; `none` for the panic when no page is left. -/
def newTable (pd pdeIdx : UInt32) (m : Mem) (pt : UInt32) :
    List UInt32 → Option (Mem × UInt32 × List UInt32)
  | allocs =>
    if m (pd + 4 * pdeIdx) = 0 then
      match allocs with
      | newPt :: rest => do
        return (Function.update (zeroPage m newPt) (pd + 4 * pdeIdx) (← pdeCreate newPt), newPt, rest)
      | [] => none
    else some (m, pt, allocs)

/-- One round of the loop, for the physical page `page`. -/
def pagingStep (textStart textEnd pd : UInt32) (m : Mem) (pt : UInt32) (allocs : List UInt32)
    (page : UInt32) : Option (Mem × UInt32 × List UInt32) := do
  let paddr := page * PGSIZE
  let vaddr ← ptov paddr
  let pdeIdx := pdNo vaddr
  let pteIdx := ptNo vaddr
  let (m, pt, allocs) ← newTable pd pdeIdx m pt allocs
  let pte ← pteCreateKernel vaddr (!inKernelText textStart textEnd vaddr)
  return (Function.update m (pt + 4 * pteIdx) pte, pt, allocs)

/-- The loop `for (page = 0; page < init_ram_pages; page++)`, `n` rounds from `page` on. -/
def pagingLoop (textStart textEnd pd : UInt32) :
    Nat → Mem → UInt32 → List UInt32 → UInt32 → Option Mem
  | 0, m, _, _, _ => some m
  | n + 1, m, pt, allocs, page => do
    let (m, pt, allocs) ← pagingStep textStart textEnd pd m pt allocs page
    pagingLoop textStart textEnd pd n m pt allocs (page + 1)

/-- `paging_init ()`: the memory and `init_page_dir`, the first page `allocs` gives; `pt` starts
as `NULL`. -/
def pagingInit (textStart textEnd initRamPages : UInt32) (m : Mem) :
    List UInt32 → Option Sys
  | [] => none
  | pd :: allocs =>
    (pagingLoop textStart textEnd pd initRamPages.toNat (zeroPage m pd) 0 allocs 0).map (⟨·, pd⟩)

/-! ## What it maps -/

/-- The entry of the kernel page `page`: its frame, present, writable unless it holds kernel
text, and not for user mode. -/
def kernelPte (textStart textEnd page : UInt32) : UInt32 :=
  (page - PHYS_BASE) ||| PTE_P ||| (if !inKernelText textStart textEnd page then PTE_W else 0)

/-- `va` lies on one of the first `k` pages after `PHYS_BASE`. -/
def InRam (k : Nat) (va : UInt32) : Prop :=
  PHYS_BASE ≤ va ∧ (va - PHYS_BASE).toNat < k * PGSIZE.toNat

instance (k : Nat) (va : UInt32) : Decidable (InRam k va) :=
  inferInstanceAs (Decidable (_ ∧ _))

/-- The kernel address of the `k`th page of RAM. -/
def vaddrOf (k : Nat) : UInt32 := k.toUInt32 * PGSIZE + PHYS_BASE

/-- The directory entry of the `k`th page of RAM. -/
def pageDir (k : Nat) : UInt32 := (768 + k / 1024).toUInt32

section Arith
variable {k : Nat}

theorem toNat_vaddrOf (hk : k < 2 ^ 18) : (vaddrOf k).toNat = 4096 * k + 3221225472 := by
  rw [vaddrOf, UInt32.toNat_add, UInt32.toNat_mul, Nat.toUInt32_eq, UInt32.toNat_ofNat']
  rw [show PGSIZE.toNat = 4096 by decide, show PHYS_BASE.toNat = 3221225472 by decide]
  omega

theorem toNat_pageDir (hk : k < 2 ^ 18) : (pageDir k).toNat = 768 + k / 1024 := by
  rw [pageDir, Nat.toUInt32_eq, UInt32.toNat_ofNat']
  omega

theorem pageDir_lt (hk : k < 2 ^ 18) : pageDir k < 1024 := by
  rw [UInt32.lt_iff_toNat_lt, toNat_pageDir hk]
  simp only [UInt32.reduceToNat]
  omega

theorem pdNo_vaddrOf (hk : k < 2 ^ 18) : pdNo (vaddrOf k) = pageDir k := by
  rw [← UInt32.toNat_inj, toNat_pdNo, toNat_vaddrOf hk, toNat_pageDir hk]
  omega

theorem ptov_page (hk : k < 2 ^ 18) : ptov (k.toUInt32 * PGSIZE) = some (vaddrOf k) := by
  have hlt : k.toUInt32 * PGSIZE < PHYS_BASE := by
    rw [UInt32.lt_iff_toNat_lt, UInt32.toNat_mul, Nat.toUInt32_eq, UInt32.toNat_ofNat']
    rw [show PGSIZE.toNat = 4096 by decide, show PHYS_BASE.toNat = 3221225472 by decide]
    omega
  simp [ptov, hlt, vaddrOf]

theorem pgOfs_vaddrOf (hk : k < 2 ^ 18) : pgOfs (vaddrOf k) = 0 := by
  rw [← UInt32.toNat_inj, toNat_pgOfs, toNat_vaddrOf hk, UInt32.toNat_zero]
  omega

theorem kernel_vaddrOf (hk : k < 2 ^ 18) : PHYS_BASE ≤ vaddrOf k := by
  rw [UInt32.le_iff_toNat_le, toNat_vaddrOf hk, show PHYS_BASE.toNat = 3221225472 by decide]
  omega

theorem not_user_vaddrOf (hk : k < 2 ^ 18) : ¬isUserVaddr (vaddrOf k) := by
  simp only [isUserVaddr, decide_eq_true_eq]
  exact UInt32.not_lt.mpr (kernel_vaddrOf hk)

theorem inRam_iff (va : UInt32) :
    InRam k va ↔ 3221225472 ≤ va.toNat ∧ va.toNat < 3221225472 + 4096 * k := by
  have hsub : PHYS_BASE ≤ va → (va - PHYS_BASE).toNat = va.toNat - 3221225472 := fun hle => by
    rw [UInt32.toNat_sub_of_le _ _ hle, show PHYS_BASE.toNat = 3221225472 by decide]
  rw [InRam, show PGSIZE.toNat = 4096 by decide]
  constructor
  · rintro ⟨hle, hlt⟩
    rw [hsub hle] at hlt
    rw [UInt32.le_iff_toNat_le, show PHYS_BASE.toNat = 3221225472 by decide] at hle
    omega
  · rintro ⟨hle, hlt⟩
    have hle' : PHYS_BASE ≤ va := by
      rw [UInt32.le_iff_toNat_le, show PHYS_BASE.toNat = 3221225472 by decide]
      exact hle
    refine ⟨hle', ?_⟩
    rw [hsub hle']
    omega

theorem inRam_succ (hk : k < 2 ^ 18) (va : UInt32) :
    InRam (k + 1) va ↔ InRam k va ∨ pgRoundDown va = vaddrOf k := by
  rw [inRam_iff, inRam_iff, ← UInt32.toNat_inj, toNat_pgRoundDown, toNat_vaddrOf hk]
  omega

theorem pageDir_succ (hk : (k + 1) % 1024 ≠ 0) : pageDir (k + 1) = pageDir k := by
  rw [pageDir, pageDir]
  congr 1
  omega

theorem toUInt32_succ : (k + 1).toUInt32 = k.toUInt32 + 1 := by
  rw [← UInt32.toNat_inj, UInt32.toNat_add, Nat.toUInt32_eq, Nat.toUInt32_eq, UInt32.toNat_ofNat',
    UInt32.toNat_ofNat', UInt32.toNat_one]
  omega

end Arith

/-! ## One round of the loop -/

/-- The number of page tables the first `k` pages need. -/
def tablesFor (k : Nat) : Nat := (k + 1023) / 1024

/-- The directory after the first `k` pages, with `t` directory entries from `PHYS_BASE` on and
the pages `allocs` that `palloc_get_page` has still to give. -/
structure Mapped (textStart textEnd : UInt32) (k t : Nat) (s : Sys) (allocs : List UInt32) : Prop
    extends Inv 0 s where
  pte_ram : ∀ va, s.pte va = if InRam k va then kernelPte textStart textEnd (pgRoundDown va) else 0
  pde_ram : ∀ i < 1024, s.pde i ≠ 0 ↔ 768 ≤ i.toNat ∧ i.toNat < 768 + t
  fresh : ∀ p ∈ allocs, Fresh s p
  nodup : allocs.Nodup

/-- The state at the top of the loop for `page = k`: the tables of the first `k` pages, and `pt`
the table of the `k`th page when that one is already there. -/
structure PagingInv (textStart textEnd : UInt32) (k : Nat) (s : Sys) (pt : UInt32)
    (allocs : List UInt32) : Prop extends Mapped textStart textEnd k (tablesFor k) s allocs where
  last : k % 1024 ≠ 0 → s.pt (pageDir k) = pt

section Step
variable {textStart textEnd pd pt : UInt32} {m : Mem} {allocs : List UInt32} {k : Nat}

theorem pteCreateKernel_eq {v : UInt32} (hp : pgOfs v = 0) (hk : PHYS_BASE ≤ v) (writable : Bool) :
    pteCreateKernel v writable =
      some ((v - PHYS_BASE) ||| PTE_P ||| (if writable then PTE_W else 0)) := by
  simp [pteCreateKernel, vtop, isKernelVaddr, hp, hk]

theorem pagingStep_eq (hk : k < 2 ^ 18) :
    pagingStep textStart textEnd pd m pt allocs k.toUInt32 =
      (newTable pd (pageDir k) m pt allocs).bind fun r =>
        some (Function.update r.1 (r.2.1 + 4 * ptNo (vaddrOf k))
          (kernelPte textStart textEnd (vaddrOf k)), r.2.1, r.2.2) := by
  simp [pagingStep, ptov_page hk, pdNo_vaddrOf hk,
    pteCreateKernel_eq (pgOfs_vaddrOf hk) (kernel_vaddrOf hk), kernelPte]

theorem newTable_present {i : UInt32} (h : (⟨m, pd⟩ : Sys).pde i ≠ 0) :
    newTable pd i m pt allocs = some (m, pt, allocs) := by
  simp only [Sys.pde] at h
  simp [newTable, h]

theorem newTable_absent {i p : UInt32} {rest : List UInt32} (h : (⟨m, pd⟩ : Sys).pde i = 0)
    (hp : pgOfs p = 0) (hk : PHYS_BASE ≤ p) :
    newTable pd i m pt (p :: rest) =
      some (((⟨m, pd⟩ : Sys).addTable i p ((p - PHYS_BASE) ||| PTE_U ||| PTE_P ||| PTE_W)).mem,
        p, rest) := by
  simp only [Sys.pde] at h
  simp [newTable, h, pdeCreate_eq hp hk, Sys.addTable]

end Step

section Preserve
variable {textStart textEnd pt p e : UInt32} {s : Sys} {allocs : List UInt32} {k t : Nat}

theorem Fresh.setPte {ipd va q : UInt32} (h : Inv ipd s) (hva : s.pde (pdNo va) ≠ 0)
    (hq : Fresh s q) : Fresh (s.setPte va e) q := by
  refine ⟨hq.page, hq.kernel, hq.ne_pd, fun i hi hne => ?_⟩
  rw [setPte_pde h e hva hi] at hne
  rw [Sys.pt, setPte_pde h e hva hi]
  exact hq.ne_pt i hi hne

theorem Fresh.addTable {ipd i q : UInt32} (h : Inv ipd s) (hp : Fresh s p) (hi : i < 1024)
    (he : (e &&& PTE_ADDR) + PHYS_BASE = p) (hq : Fresh s q) (hqp : q ≠ p) :
    Fresh (s.addTable i p e) q := by
  refine ⟨hq.page, hq.kernel, hq.ne_pd, fun j hj hne => ?_⟩
  by_cases hji : j = i
  · subst hji
    rw [addTable_pt h hp hj he]
    exact hqp.symm
  · rw [addTable_pde h hp hi hj, if_neg hji] at hne
    rw [Sys.pt, addTable_pde h hp hi hj, if_neg hji]
    exact hq.ne_pt j hj hne

theorem Mapped.pde_pageDir {k' : Nat} (h : Mapped textStart textEnd k' t s allocs)
    (hk : k < 2 ^ 18) : s.pde (pageDir k) ≠ 0 ↔ k / 1024 < t := by
  rw [h.pde_ram _ (pageDir_lt hk), toNat_pageDir hk]
  omega

theorem PagingInv.pde_pageDir_eq_zero (h : PagingInv textStart textEnd k s pt allocs)
    (hk : k < 2 ^ 18) (hk0 : k % 1024 = 0) : s.pde (pageDir k) = 0 := by
  by_contra hne
  have := (h.pde_pageDir hk).mp hne
  simp only [tablesFor] at this
  omega

theorem Mapped.setPte (h : Mapped textStart textEnd k (tablesFor (k + 1)) s allocs)
    (hk : k < 2 ^ 18) :
    Mapped textStart textEnd (k + 1) (tablesFor (k + 1))
      (s.setPte (vaddrOf k) (kernelPte textStart textEnd (vaddrOf k))) allocs := by
  have hpde : s.pde (pdNo (vaddrOf k)) ≠ 0 := by
    rw [pdNo_vaddrOf hk, h.pde_pageDir hk, tablesFor]
    omega
  refine ⟨h.toInv.setPte hpde fun hu => absurd hu (not_user_vaddrOf hk), fun va => ?_,
    fun i hi => ?_, fun q hq => (h.fresh q hq).setPte h.toInv hpde, h.nodup⟩
  · rw [setPte_pte h.toInv _ hpde, pgRoundDown_of_pgOfs (pgOfs_vaddrOf hk), h.pte_ram]
    by_cases hv : pgRoundDown va = vaddrOf k
    · rw [if_pos hv, if_pos ((inRam_succ hk va).mpr (.inr hv)), hv]
    · rw [if_neg hv]
      simp only [inRam_succ hk va, hv, or_false]
  · rw [setPte_pde h.toInv _ hpde hi]
    exact h.pde_ram i hi

theorem PagingInv.present (h : PagingInv textStart textEnd k s pt allocs) (hk0 : k % 1024 ≠ 0) :
    Mapped textStart textEnd k (tablesFor (k + 1)) s allocs ∧ s.pt (pageDir k) = pt := by
  have ht : tablesFor (k + 1) = tablesFor k := by
    simp only [tablesFor]
    omega
  exact ⟨ht ▸ h.toMapped, h.last hk0⟩

theorem PagingInv.addTable {rest : List UInt32}
    (h : PagingInv textStart textEnd k s pt (p :: rest)) (hk : k < 2 ^ 18) (hk0 : k % 1024 = 0) :
    Mapped textStart textEnd k (tablesFor (k + 1))
        (s.addTable (pageDir k) p ((p - PHYS_BASE) ||| PTE_U ||| PTE_P ||| PTE_W)) rest ∧
      (s.addTable (pageDir k) p ((p - PHYS_BASE) ||| PTE_U ||| PTE_P ||| PTE_W)).pt (pageDir k) =
        p := by
  have hp := h.fresh p List.mem_cons_self
  obtain ⟨hpres, he⟩ := pde_value hp.page
  have hi := pageDir_lt hk
  have h0 := h.pde_pageDir_eq_zero hk hk0
  have hdk := toNat_pageDir hk
  refine ⟨⟨h.toInv.addTable hp hi h0 hpres he, fun va => ?_, fun j hj => ?_, fun q hq => ?_,
    (List.nodup_cons.mp h.nodup).2⟩, addTable_pt h.toInv hp hi he⟩
  · rw [addTable_pte h.toInv hp hi h0 hpres he]
    exact h.pte_ram va
  · rw [addTable_pde h.toInv hp hi hj]
    by_cases hji : j = pageDir k
    · subst hji
      rw [if_pos rfl, hdk, tablesFor]
      exact ⟨fun _ => by omega, fun _ => ne_zero_of_present hpres⟩
    · rw [if_neg hji, h.pde_ram j hj, tablesFor, tablesFor]
      have : j.toNat ≠ 768 + k / 1024 := fun heq => hji (UInt32.toNat_inj.mp (heq.trans hdk.symm))
      omega
  · have hqp : q ≠ p := fun heq => (List.nodup_cons.mp h.nodup).1 (heq ▸ hq)
    exact Fresh.addTable h.toInv hp hi he (h.fresh q (List.mem_cons_of_mem p hq)) hqp

theorem Mapped.next (h : Mapped textStart textEnd k (tablesFor (k + 1)) s allocs)
    (hk : k < 2 ^ 18) (ht : s.pt (pageDir k) = pt) :
    PagingInv textStart textEnd (k + 1)
      (s.setPte (vaddrOf k) (kernelPte textStart textEnd (vaddrOf k))) pt allocs := by
  have hpde : s.pde (pdNo (vaddrOf k)) ≠ 0 := by
    rw [pdNo_vaddrOf hk, h.pde_pageDir hk, tablesFor]
    omega
  refine ⟨h.setPte hk, fun hk1 => ?_⟩
  rw [pageDir_succ hk1, Sys.pt, setPte_pde h.toInv _ hpde (pageDir_lt hk)]
  exact ht

theorem setPte_vaddrOf (hk : k < 2 ^ 18) (ht : s.pt (pageDir k) = pt) (e : UInt32) :
    s.setPte (vaddrOf k) e = ⟨Function.update s.mem (pt + 4 * ptNo (vaddrOf k)) e, s.pd⟩ := by
  rw [Sys.setPte, Sys.pteAddr, pdNo_vaddrOf hk, ht]

end Preserve

/-! ## The loop -/

section Loop
variable {textStart textEnd pd pt : UInt32} {m : Mem} {allocs : List UInt32} {k : Nat}

/-- One round from the top of the loop to the top of the next; it takes a page for a new table
exactly when `page` starts a directory entry. -/
theorem PagingInv.step (h : PagingInv textStart textEnd k ⟨m, pd⟩ pt allocs) (hk : k < 2 ^ 18)
    (hlen : tablesFor (k + 1) - tablesFor k ≤ allocs.length) :
    ∃ m' pt', pagingStep textStart textEnd pd m pt allocs k.toUInt32 =
        some (m', pt', allocs.drop (tablesFor (k + 1) - tablesFor k)) ∧
      PagingInv textStart textEnd (k + 1) ⟨m', pd⟩ pt'
        (allocs.drop (tablesFor (k + 1) - tablesFor k)) := by
  rw [pagingStep_eq hk]
  by_cases hk0 : k % 1024 = 0
  · have hd : tablesFor (k + 1) - tablesFor k = 1 := by
      simp only [tablesFor]
      omega
    rw [hd] at hlen ⊢
    obtain ⟨p, rest, rfl⟩ := List.exists_cons_of_length_pos hlen
    have hp := h.fresh p List.mem_cons_self
    obtain ⟨hmap, ht⟩ := h.addTable hk hk0
    rw [newTable_absent (h.pde_pageDir_eq_zero hk hk0) hp.page hp.kernel]
    refine ⟨_, p, rfl, ?_⟩
    have := hmap.next hk ht
    rwa [setPte_vaddrOf hk ht] at this
  · obtain ⟨hmap, ht⟩ := h.present hk0
    have hd : tablesFor (k + 1) - tablesFor k = 0 := by
      simp only [tablesFor]
      omega
    rw [hd, newTable_present ((hmap.pde_pageDir hk).mpr (by simp only [tablesFor]; omega))]
    refine ⟨_, pt, rfl, ?_⟩
    have := hmap.next hk ht
    rwa [setPte_vaddrOf hk ht] at this

theorem PagingInv.loop {n : Nat} (h : PagingInv textStart textEnd k ⟨m, pd⟩ pt allocs)
    (hk : k + n ≤ 2 ^ 18) (hlen : tablesFor (k + n) - tablesFor k ≤ allocs.length) :
    ∃ m', pagingLoop textStart textEnd pd n m pt allocs k.toUInt32 = some m' ∧
      ∃ pt' allocs', PagingInv textStart textEnd (k + n) ⟨m', pd⟩ pt' allocs' := by
  induction n generalizing k m pt allocs with
  | zero => exact ⟨m, rfl, pt, allocs, h⟩
  | succ n ih =>
    have hmono : tablesFor (k + 1) - tablesFor k ≤ tablesFor (k + (n + 1)) - tablesFor k := by
      simp only [tablesFor]
      omega
    obtain ⟨m', pt', hstep, h'⟩ := h.step (by omega) (hmono.trans hlen)
    have hlen' : tablesFor (k + 1 + n) - tablesFor (k + 1) ≤
        (allocs.drop (tablesFor (k + 1) - tablesFor k)).length := by
      rw [List.length_drop]
      simp only [tablesFor] at hlen ⊢
      omega
    obtain ⟨m'', hloop, rest⟩ := ih h' (by omega) hlen'
    refine ⟨m'', ?_, ?_⟩
    · rw [pagingLoop, hstep, ← toUInt32_succ]
      exact hloop
    · rw [show k + (n + 1) = k + 1 + n by omega]
      exact rest

theorem PagingInv.init {tables : List UInt32}
    (hpages : ∀ p ∈ pd :: tables, pgOfs p = 0 ∧ PHYS_BASE ≤ p) (hnodup : (pd :: tables).Nodup) :
    PagingInv textStart textEnd 0 ⟨zeroPage m pd, pd⟩ 0 tables := by
  obtain ⟨hpage, hkernel⟩ := hpages pd List.mem_cons_self
  have hzero : ∀ i < 1024, (⟨zeroPage m pd, pd⟩ : Sys).pde i = 0 := fun i hi =>
    zeroPage_slot hpage hi
  have hpte : ∀ va, (⟨zeroPage m pd, pd⟩ : Sys).pte va = 0 := fun va => by
    simp [Sys.pte, hzero _ (pdNo_lt va)]
  refine ⟨⟨⟨⟨fun i hi hne => absurd (hzero i hi) hne, fun i hi _ _ hne => absurd (hzero i hi) hne⟩,
    hpage, hkernel, ?_, fun i hi hne => absurd (hzero i hi) hne, fun va _ k hk => ?_⟩,
    fun va => ?_, fun i hi => ?_, fun p hp => ?_, (List.nodup_cons.mp hnodup).2⟩,
    fun h => absurd rfl h⟩
  · rintro rfl
    exact absurd hkernel (by decide)
  · rw [hpte] at hk
    cases hk
  · rw [hpte, if_neg (by rw [inRam_iff]; omega)]
  · simp [hzero i hi, tablesFor]
  · obtain ⟨hpg, hker⟩ := hpages p (List.mem_cons_of_mem pd hp)
    have hne : p ≠ pd := fun heq => (List.nodup_cons.mp hnodup).1 (heq ▸ hp)
    exact ⟨hpg, hker, hne, fun i hi hne' => absurd (hzero i hi) hne'⟩

theorem Mapped.boot {s : Sys} {t : Nat} (h : Mapped textStart textEnd k t s allocs) :
    Boot s.mem s.pd := by
  refine ⟨h.toTables, fun i hi => ?_⟩
  have hi' := UInt32.lt_iff_toNat_lt.mp hi
  rw [toNat_pdNo, show PHYS_BASE.toNat = 3221225472 by decide] at hi'
  by_contra hne
  have := ((h.pde_ram i (UInt32.lt_iff_toNat_lt.mpr (by simp only [UInt32.reduceToNat]; omega))).mp
    hne).1
  omega

end Loop

/-- `paging_init` with at most 1 GB of RAM and distinct kernel pages from `palloc_get_page`,
enough for the directory and the tables, does not panic. The directory it builds maps exactly
the RAM, each page to its own frame, for the kernel only and writable outside the kernel text,
and it is an `init_page_dir` that `pagedir_create` can copy. -/
theorem paging_init_maps_ram {textStart textEnd initRamPages pd : UInt32} {m : Mem}
    {tables : List UInt32} (hram : initRamPages.toNat ≤ 2 ^ 18)
    (hpages : ∀ p ∈ pd :: tables, pgOfs p = 0 ∧ PHYS_BASE ≤ p) (hnodup : (pd :: tables).Nodup)
    (hcount : tablesFor initRamPages.toNat ≤ tables.length) :
    ∃ mem, pagingInit textStart textEnd initRamPages m (pd :: tables) = some ⟨mem, pd⟩ ∧
      Boot mem pd ∧ ∀ va, (⟨mem, pd⟩ : Sys).pte va =
        if InRam initRamPages.toNat va then kernelPte textStart textEnd (pgRoundDown va) else 0 := by
  have h₀ : PagingInv textStart textEnd 0 ⟨zeroPage m pd, pd⟩ 0 tables :=
    PagingInv.init hpages hnodup
  obtain ⟨mem, hloop, pt, allocs, h⟩ := h₀.loop (n := initRamPages.toNat) (by omega)
    (by simp only [tablesFor] at hcount ⊢; omega)
  rw [Nat.zero_add] at h
  rw [show (0 : Nat).toUInt32 = 0 from rfl] at hloop
  refine ⟨mem, ?_, h.boot, h.pte_ram⟩
  rw [pagingInit, hloop]
  rfl

theorem paging_init_maps_ram_4mb :
    ∃ mem, pagingInit 0xc0020000 0xc0030000 1025 (fun _ => 0)
        [0xc0001000, 0xc0002000, 0xc0003000] = some ⟨mem, 0xc0001000⟩ ∧ Boot mem 0xc0001000 ∧
      ∀ va, (⟨mem, 0xc0001000⟩ : Sys).pte va =
        if InRam (1025 : UInt32).toNat va then kernelPte 0xc0020000 0xc0030000 (pgRoundDown va)
        else 0 := by
  -- each page is decided on its own: the whole list at once exceeds the recursion depth
  have hpages : ∀ p ∈ (0xc0001000 : UInt32) :: [0xc0002000, 0xc0003000],
      pgOfs p = 0 ∧ PHYS_BASE ≤ p := by
    simp only [List.forall_mem_cons, List.not_mem_nil, IsEmpty.forall_iff, implies_true, and_true]
    exact ⟨by decide, by decide, by decide⟩
  exact paging_init_maps_ram (by decide) hpages (by decide) (by decide)

end Pintos.Pagedir
