import Pintos.Kernel.Bitmap
import Mathlib.Data.List.Count
import Mathlib.Data.Option.Basic
import Mathlib.Logic.Relation

/-! # `filesys/inode.c`, `filesys/file.c` and `filesys/free-map.c`

The free map, the inodes on disk, and the `struct inode`s and `struct file`s on the heap, each
at the address `malloc` returned for it. The address a `malloc` or `calloc` returns is an
argument of the call, `none` for a null pointer, and so is whether the write of the free map to
its file in `free_map_allocate` succeeds; the contents of data sectors are left out. A function
returns `none` where the C code fails an `ASSERT` or uses a freed struct.
-/

namespace Pintos.Filesys
open KBitmap
set_option autoImplicit false

def BLOCK_SECTOR_SIZE : Nat := 512
def INODE_MAGIC : Nat := 0x494e4f44
def FREE_MAP_SECTOR : Nat := 0
def ROOT_DIR_SECTOR : Nat := 1

/-- `DIV_ROUND_UP (size, BLOCK_SECTOR_SIZE)`. -/
def bytesToSectors (size : Nat) : Nat := (size + BLOCK_SECTOR_SIZE - 1) / BLOCK_SECTOR_SIZE

/-- `struct inode_disk` without its unused words. -/
structure InodeDisk where
  start : Nat
  length : Nat
  magic : Nat
deriving DecidableEq, Repr

structure Inode where
  sector : Nat
  openCnt : Int
  removed : Bool
  denyWriteCnt : Int
  data : InodeDisk
deriving DecidableEq, Repr

structure File where
  inode : Nat
  pos : Nat
  denyWrite : Bool
deriving DecidableEq, Repr

/-- The free map, the inode in each sector, the heap, and `open_inodes` front first. -/
structure Fs where
  freeMap : Bitmap
  disk : Nat → InodeDisk
  inodes : Nat → Option Inode
  openInodes : List Nat
  files : Nat → Option File

def Fs.setInode (fs : Fs) (p : Nat) (i : Option Inode) : Fs :=
  { fs with inodes := Function.update fs.inodes p i }

def Fs.setFile (fs : Fs) (f : Nat) (x : Option File) : Fs :=
  { fs with files := Function.update fs.files f x }

/-! ## `free-map.c` -/

/-- `free_map_allocate (cnt, &sector)`, with `bitmap_write` succeeding when `written` holds, as
it does while `free_map_file` is not open: when it fails, the sectors are freed again and the call
fails. -/
def freeMapAllocate (fm : Bitmap) (cnt : Nat) (written : Bool) : Option (Bitmap × Option Nat) := do
  let (fm, sector) ← bitmapScanAndFlip fm 0 cnt false
  match sector with
  | some sector =>
    if written then return (fm, some sector)
    else return (← bitmapSetMultiple fm sector cnt false, none)
  | none => return (fm, none)

def freeMapRelease (fm : Bitmap) (sector cnt : Nat) : Option Bitmap := do
  guard (← bitmapAll fm sector cnt)
  bitmapSetMultiple fm sector cnt false

/-! ## `inode.c` -/

/-- `inode_create (sector, length)`, with `calloc` succeeding when `mem` holds and the write of the
free map when `written` does. -/
def inodeCreate (fs : Fs) (sector length : Nat) (mem written : Bool) : Option (Fs × Bool) := do
  if !mem then return (fs, false)
  let (fm, start) ← freeMapAllocate fs.freeMap (bytesToSectors length) written
  match start with
  | some start =>
    return ({ fs with freeMap := fm,
                      disk := Function.update fs.disk sector ⟨start, length, INODE_MAGIC⟩ }, true)
  | none => return ({ fs with freeMap := fm }, false)

/-- The loop of `inode_open` over `open_inodes`. -/
def findOpen (fs : Fs) (sector : Nat) : List Nat → Option Nat
  | [] => none
  | p :: ps => if (fs.inodes p).any (·.sector == sector) then some p else findOpen fs sector ps

def inodeReopen (fs : Fs) : Option Nat → Option (Fs × Option Nat)
  | none => some (fs, none)
  | some p => do
    let i ← fs.inodes p
    return (fs.setInode p (some { i with openCnt := i.openCnt + 1 }), some p)

def inodeOpen (fs : Fs) (sector : Nat) (alloc : Option Nat) : Option (Fs × Option Nat) :=
  match findOpen fs sector fs.openInodes with
  | some p => inodeReopen fs (some p)
  | none =>
    match alloc with
    | none => some (fs, none)
    | some p =>
      some ({ fs.setInode p (some ⟨sector, 1, false, 0, fs.disk sector⟩) with
                openInodes := p :: fs.openInodes }, some p)

/-- The releases of `inode_close` for a removed inode. -/
def releaseInode (fm : Bitmap) (i : Inode) : Option Bitmap := do
  let fm ← freeMapRelease fm i.sector 1
  freeMapRelease fm i.data.start (bytesToSectors i.data.length)

def inodeClose (fs : Fs) : Option Nat → Option Fs
  | none => some fs
  | some p => do
    let i ← fs.inodes p
    if i.openCnt - 1 = 0 then
      let fm ← if i.removed then releaseInode fs.freeMap i else pure fs.freeMap
      return { fs.setInode p none with openInodes := fs.openInodes.erase p, freeMap := fm }
    else return fs.setInode p (some { i with openCnt := i.openCnt - 1 })

def inodeRemove (fs : Fs) (p : Nat) : Option Fs := do
  let i ← fs.inodes p
  return fs.setInode p (some { i with removed := true })

def inodeDenyWrite (fs : Fs) (p : Nat) : Option Fs := do
  let i ← fs.inodes p
  let i := { i with denyWriteCnt := i.denyWriteCnt + 1 }
  guard (i.denyWriteCnt ≤ i.openCnt)
  return fs.setInode p (some i)

def inodeAllowWrite (fs : Fs) (p : Nat) : Option Fs := do
  let i ← fs.inodes p
  guard (i.denyWriteCnt > 0)
  guard (i.denyWriteCnt ≤ i.openCnt)
  return fs.setInode p (some { i with denyWriteCnt := i.denyWriteCnt - 1 })

/-! ## `file.c` -/

/-- `file_open (inode)`, with `calloc` returning `alloc`. -/
def fileOpen (fs : Fs) (inode alloc : Option Nat) : Option (Fs × Option Nat) :=
  match inode, alloc with
  | some p, some f => some (fs.setFile f (some ⟨p, 0, false⟩), some f)
  | _, _ => do return (← inodeClose fs inode, none)

def fileReopen (fs : Fs) (f : Nat) (alloc : Option Nat) : Option (Fs × Option Nat) := do
  let x ← fs.files f
  let (fs, inode) ← inodeReopen fs (some x.inode)
  fileOpen fs inode alloc

def fileAllowWrite (fs : Fs) (f : Nat) : Option Fs := do
  let x ← fs.files f
  if x.denyWrite then inodeAllowWrite (fs.setFile f (some { x with denyWrite := false })) x.inode
  else return fs

def fileDenyWrite (fs : Fs) (f : Nat) : Option Fs := do
  let x ← fs.files f
  if !x.denyWrite then inodeDenyWrite (fs.setFile f (some { x with denyWrite := true })) x.inode
  else return fs

def fileClose (fs : Fs) : Option Nat → Option Fs
  | none => some fs
  | some f => do
    let fs ← fileAllowWrite fs f
    let x ← fs.files f
    let fs ← inodeClose fs (some x.inode)
    return fs.setFile f none

/-! ## Callers and their references -/

/-- The file system with the inode references and the files that callers hold: one reference for
each `inode_open` or `inode_reopen` not yet closed, as `dir_open` and `file_open` keep them. -/
structure Sys where
  fs : Fs
  refs : List Nat
  held : List Nat

inductive Event
  | inodeOpen (sector : Nat) (alloc : Option Nat)
  | inodeReopen (p : Nat)
  | inodeClose (p : Nat)
  | inodeRemove (p : Nat)
  | fileOpen (p : Nat) (alloc : Option Nat)
  | fileReopen (f : Nat) (alloc : Option Nat)
  | fileClose (f : Nat)
  | fileDenyWrite (f : Nat)
  | fileAllowWrite (f : Nat)

/-- A call by a holder; `file_open` takes over the caller's reference. -/
def step (s : Sys) : Event → Option Sys
  | .inodeOpen sector alloc => do
    let (fs, p) ← inodeOpen s.fs sector alloc
    return ⟨fs, p.toList ++ s.refs, s.held⟩
  | .inodeReopen p => do
    let (fs, _) ← inodeReopen s.fs (some p)
    return ⟨fs, p :: s.refs, s.held⟩
  | .inodeClose p => do return ⟨← inodeClose s.fs (some p), s.refs.erase p, s.held⟩
  | .inodeRemove p => do return ⟨← inodeRemove s.fs p, s.refs, s.held⟩
  | .fileOpen p alloc => do
    let (fs, f) ← fileOpen s.fs (some p) alloc
    return ⟨fs, s.refs.erase p, f.toList ++ s.held⟩
  | .fileReopen f alloc => do
    let (fs, g) ← fileReopen s.fs f alloc
    return ⟨fs, s.refs, g.toList ++ s.held⟩
  | .fileClose f => do return ⟨← fileClose s.fs (some f), s.refs, s.held.erase f⟩
  | .fileDenyWrite f => do return ⟨← fileDenyWrite s.fs f, s.refs, s.held⟩
  | .fileAllowWrite f => do return ⟨← fileAllowWrite s.fs f, s.refs, s.held⟩

/-- The caller holds what it passes, and `malloc` returns memory not in use. -/
def Event.Allowed (s : Sys) : Event → Prop
  | .inodeOpen _ alloc => ∀ p, alloc = some p → s.fs.inodes p = none
  | .inodeReopen p | .inodeClose p | .inodeRemove p => p ∈ s.refs
  | .fileOpen p alloc => p ∈ s.refs ∧ ∀ f, alloc = some f → s.fs.files f = none
  | .fileReopen f alloc => f ∈ s.held ∧ ∀ g, alloc = some g → s.fs.files g = none
  | .fileClose f | .fileDenyWrite f | .fileAllowWrite f => f ∈ s.held

def Sys.init (fm : Bitmap) (disk : Nat → InodeDisk) : Sys :=
  ⟨⟨fm, disk, fun _ => none, [], fun _ => none⟩, [], []⟩

def Reachable (fm : Bitmap) (disk : Nat → InodeDisk) (s : Sys) : Prop :=
  Relation.ReflTransGen (fun s s' => ∃ e, e.Allowed s ∧ step s e = some s') (Sys.init fm disk) s

/-- The held files open on `p`, and those of them that deny writes. -/
def Sys.filesOn (s : Sys) (p : Nat) : Nat :=
  s.held.countP fun f => (s.fs.files f).any (·.inode == p)

def Sys.denying (s : Sys) (p : Nat) : Nat :=
  s.held.countP fun f => (s.fs.files f).any fun x => x.inode == p && x.denyWrite

/-- `open_inodes` lists the live `struct inode`s, one per sector. -/
structure Registry (fs : Fs) : Prop where
  open_iff : ∀ p, p ∈ fs.openInodes ↔ (fs.inodes p).isSome
  nodup : fs.openInodes.Nodup
  sector_inj : ∀ p q i j, fs.inodes p = some i → fs.inodes q = some j → i.sector = j.sector → p = q

structure Inv (s : Sys) : Prop extends Registry s.fs where
  open_cnt : ∀ p i, s.fs.inodes p = some i → i.openCnt = s.refs.count p + s.filesOn p
  live : ∀ p i, s.fs.inodes p = some i → 0 < i.openCnt
  deny_cnt : ∀ p i, s.fs.inodes p = some i → i.denyWriteCnt = s.denying p
  refs_live : ∀ p ∈ s.refs, (s.fs.inodes p).isSome
  held_iff : ∀ f, f ∈ s.held ↔ (s.fs.files f).isSome
  held_nodup : s.held.Nodup
  files_live : ∀ f x, s.fs.files f = some x → (s.fs.inodes x.inode).isSome

/-! ## Counting references -/

section Counting
variable {α : Type}

theorem countP_update_of_not_mem {l : List Nat} {f : Nat} (hf : f ∉ l) (m : Nat → α) (v : α)
    (P : α → Bool) :
    l.countP (fun g => P (Function.update m f v g)) = l.countP (fun g => P (m g)) :=
  List.countP_congr fun g hg => by rw [Function.update_of_ne (fun h : g = f => hf (h ▸ hg))]

theorem countP_update_of_mem {l : List Nat} (hl : l.Nodup) {f : Nat} (hf : f ∈ l) (m : Nat → α)
    (v : α) (P : α → Bool) :
    l.countP (fun g => P (Function.update m f v g)) + (if P (m f) then 1 else 0) =
      l.countP (fun g => P (m g)) + (if P v then 1 else 0) := by
  obtain ⟨l₁, l₂, rfl⟩ := List.append_of_mem hf
  have hperm : (l₁ ++ f :: l₂).Perm (f :: (l₁ ++ l₂)) := List.perm_middle
  have hnot : f ∉ l₁ ++ l₂ := (List.nodup_cons.mp (hperm.nodup_iff.mp hl)).1
  rw [hperm.countP_eq, hperm.countP_eq, List.countP_cons, List.countP_cons,
    countP_update_of_not_mem hnot, Function.update_self]
  omega

theorem countP_cons_update {l : List Nat} {f : Nat} (hf : f ∉ l) (m : Nat → α) (v : α)
    (P : α → Bool) :
    (f :: l).countP (fun g => P (Function.update m f v g)) =
      l.countP (fun g => P (m g)) + (if P v then 1 else 0) := by
  rw [List.countP_cons, countP_update_of_not_mem hf, Function.update_self]

theorem countP_erase_update {l : List Nat} (hl : l.Nodup) {f : Nat} (hf : f ∈ l) (m : Nat → α)
    (v : α) (P : α → Bool) :
    (l.erase f).countP (fun g => P (Function.update m f v g)) + (if P (m f) then 1 else 0) =
      l.countP (fun g => P (m g)) := by
  have hperm : l.Perm (f :: l.erase f) := List.perm_cons_erase hf
  rw [countP_update_of_not_mem (hl.not_mem_erase) m v P, hperm.countP_eq, List.countP_cons]

end Counting

@[simp] theorem Fs.setInode_inodes (fs : Fs) (p : Nat) (i : Option Inode) :
    (fs.setInode p i).inodes = Function.update fs.inodes p i := rfl
@[simp] theorem Fs.setInode_files (fs : Fs) (p : Nat) (i : Option Inode) :
    (fs.setInode p i).files = fs.files := rfl
@[simp] theorem Fs.setInode_openInodes (fs : Fs) (p : Nat) (i : Option Inode) :
    (fs.setInode p i).openInodes = fs.openInodes := rfl
@[simp] theorem Fs.setFile_files (fs : Fs) (f : Nat) (x : Option File) :
    (fs.setFile f x).files = Function.update fs.files f x := rfl
@[simp] theorem Fs.setFile_inodes (fs : Fs) (f : Nat) (x : Option File) :
    (fs.setFile f x).inodes = fs.inodes := rfl
@[simp] theorem Fs.setFile_freeMap (fs : Fs) (f : Nat) (x : Option File) :
    (fs.setFile f x).freeMap = fs.freeMap := rfl
@[simp] theorem Fs.setFile_openInodes (fs : Fs) (f : Nat) (x : Option File) :
    (fs.setFile f x).openInodes = fs.openInodes := rfl

theorem Sys.filesOn_congr {s s' : Sys} (hf : s'.fs.files = s.fs.files) (hh : s'.held = s.held) :
    s'.filesOn = s.filesOn := by
  funext p
  simp only [Sys.filesOn, hf, hh]

theorem Sys.denying_congr {s s' : Sys} (hf : s'.fs.files = s.fs.files) (hh : s'.held = s.held) :
    s'.denying = s.denying := by
  funext p
  simp only [Sys.denying, hf, hh]

theorem Sys.denying_le_filesOn (s : Sys) (p : Nat) : s.denying p ≤ s.filesOn p :=
  List.countP_mono_left fun f _ h => by
    cases hx : s.fs.files f with
    | none => simp [hx] at h
    | some x => simp_all

/-! ## The registry -/

section Registry
variable {fs : Fs}

theorem Registry.setInode (h : Registry fs) {p : Nat} {i i' : Inode} (hp : fs.inodes p = some i)
    (hsec : i'.sector = i.sector) : Registry (fs.setInode p (some i')) := by
  refine ⟨fun q => ?_, h.nodup, fun q r j k hq hr hs => ?_⟩
  · by_cases hq : q = p
    · subst hq
      simp [h.open_iff, hp]
    · simp [hq, h.open_iff]
  · simp only [Fs.setInode_inodes, Function.update_apply] at hq hr
    split_ifs at hq hr with h1 h2 h2
    · rw [h1, h2]
    · cases hq
      rw [h1]
      exact h.sector_inj p r i k hp hr (hsec ▸ hs)
    · cases hr
      rw [h2]
      exact h.sector_inj q p j i hq hp (hs.trans hsec)
    · exact h.sector_inj q r j k hq hr hs

theorem Registry.setFile (h : Registry fs) (f : Nat) (x : Option File) :
    Registry (fs.setFile f x) :=
  ⟨h.open_iff, h.nodup, h.sector_inj⟩

theorem Registry.insert (h : Registry fs) {p sector : Nat} (d : InodeDisk)
    (hp : fs.inodes p = none) (hsec : ∀ q j, fs.inodes q = some j → j.sector ≠ sector) :
    Registry { fs.setInode p (some ⟨sector, 1, false, 0, d⟩) with
      openInodes := p :: fs.openInodes } := by
  have hp' : p ∉ fs.openInodes := fun hm => by
    have h1 := (h.open_iff p).mp hm
    simp [hp] at h1
  refine ⟨fun q => ?_, List.nodup_cons.mpr ⟨hp', h.nodup⟩, fun q r j k hq hr hs => ?_⟩
  · by_cases hq : q = p
    · subst hq
      simp [Fs.setInode]
    · simp [Fs.setInode, hq, h.open_iff]
  · simp only [Fs.setInode_inodes, Function.update_apply] at hq hr
    split_ifs at hq hr with h1 h2 h2
    · rw [h1, h2]
    · cases hq
      exact absurd hs.symm (hsec r k hr)
    · cases hr
      exact absurd hs (hsec q j hq)
    · exact h.sector_inj q r j k hq hr hs

theorem Registry.erase (h : Registry fs) {p : Nat} (fm : Bitmap) :
    Registry { fs.setInode p none with openInodes := fs.openInodes.erase p, freeMap := fm } := by
  refine ⟨fun q => ?_, h.nodup.erase p, fun q r j k hq hr hs => ?_⟩
  · rw [h.nodup.mem_erase_iff]
    by_cases hq : q = p
    · simp [Fs.setInode, hq]
    · simp [Fs.setInode, hq, h.open_iff]
  · simp only [Fs.setInode_inodes, Function.update_apply] at hq hr
    split_ifs at hq hr
    exact h.sector_inj q r j k hq hr hs

theorem findOpen_eq_some {sector : Nat} :
    ∀ {l : List Nat} {p : Nat}, findOpen fs sector l = some p →
      p ∈ l ∧ ∃ i, fs.inodes p = some i ∧ i.sector = sector
  | [], _, h => by simp [findOpen] at h
  | q :: l, p, h => by
    simp only [findOpen] at h
    split at h
    · cases h
      rename_i hq
      obtain ⟨i, hi, hs⟩ := (Option.any_eq_true _ _).mp hq
      exact ⟨List.mem_cons_self .., i, hi, beq_iff_eq.mp hs⟩
    · obtain ⟨hm, hi⟩ := findOpen_eq_some h
      exact ⟨List.mem_cons_of_mem q hm, hi⟩

theorem findOpen_eq_none {sector : Nat} :
    ∀ {l : List Nat}, findOpen fs sector l = none →
      ∀ p ∈ l, ∀ i, fs.inodes p = some i → i.sector ≠ sector
  | [], _, p, hp => by simp at hp
  | q :: l, h, p, hp => by
    simp only [findOpen] at h
    split at h
    · cases h
    · rename_i hq
      rcases List.mem_cons.mp hp with rfl | hp
      · intro i hi hs
        exact hq (by simp [hi, hs])
      · exact findOpen_eq_none h p hp

theorem Registry.findOpen_none (h : Registry fs) {sector : Nat}
    (hn : findOpen fs sector fs.openInodes = none) :
    ∀ q j, fs.inodes q = some j → j.sector ≠ sector := fun q j hq =>
  findOpen_eq_none hn q ((h.open_iff q).mpr (by simp [hq])) j hq

end Registry

/-! ## What each call does to the counts -/

theorem inodeClose_eq_some {fs fs' : Fs} {p : Nat} (h : inodeClose fs (some p) = some fs') :
    ∃ i, fs.inodes p = some i ∧
      (i.openCnt - 1 = 0 ∧ (∃ fm, (if i.removed then releaseInode fs.freeMap i = some fm
          else fm = fs.freeMap) ∧ fs' = { fs.setInode p none with
            openInodes := fs.openInodes.erase p, freeMap := fm }) ∨
        i.openCnt - 1 ≠ 0 ∧ fs' = fs.setInode p (some { i with openCnt := i.openCnt - 1 })) := by
  cases hi : fs.inodes p with
  | none => simp [inodeClose, hi] at h
  | some i =>
    refine ⟨i, rfl, ?_⟩
    simp only [inodeClose, hi, Option.bind_eq_bind, Option.bind_some] at h
    split_ifs at h with h0 hr
    · obtain ⟨fm, hrel, hfs⟩ := Option.bind_eq_some_iff.mp h
      exact Or.inl ⟨h0, fm, by rwa [if_pos hr], (Option.some.inj hfs).symm⟩
    · exact Or.inl ⟨h0, fs.freeMap, by rw [if_neg hr], (Option.some.inj h).symm⟩
    · exact Or.inr ⟨h0, (Option.some.inj h).symm⟩

section Counts
variable {s : Sys}

theorem isSome_update_some {m : Nat → Option Inode} {p q : Nat} (x : Inode) (h : (m q).isSome) :
    (Function.update m p (some x) q).isSome := by
  by_cases hq : q = p
  · simp [hq]
  · simpa [hq] using h

theorem Inv.filesOn_eq_zero (h : Inv s) {p : Nat} (hp : s.fs.inodes p = none) : s.filesOn p = 0 := by
  apply List.countP_eq_zero.mpr
  intro f _ hf
  cases hx : s.fs.files f with
  | none => simp [hx] at hf
  | some x =>
    simp only [hx, Option.any_some, beq_iff_eq] at hf
    have := h.files_live f x hx
    rw [hf, hp] at this
    cases this

theorem Inv.filesOn_pos (h : Inv s) {f : Nat} {x : File} (hf : s.fs.files f = some x) :
    0 < s.filesOn x.inode :=
  List.countP_pos_iff.mpr ⟨f, (h.held_iff f).mpr (by simp [hf]), by simp [hf]⟩

/-- The frame rule of the counts: a call that changes one inode `p`, and references only to
`p`, keeps the invariant when the struct at `p` is counted right. -/
theorem Inv.frame (h : Inv s) {s' : Sys} (p : Nat) (hreg : Registry s'.fs)
    (hfiles : s'.fs.files = s.fs.files) (hheld : s'.held = s.held)
    (hin : ∀ q, q ≠ p → s'.fs.inodes q = s.fs.inodes q)
    (hrefs : ∀ q, q ≠ p → s'.refs.count q = s.refs.count q)
    (hat : ∀ j, s'.fs.inodes p = some j →
      j.openCnt = s'.refs.count p + s.filesOn p ∧ 0 < j.openCnt ∧ j.denyWriteCnt = s.denying p)
    (hgone : s'.fs.inodes p = none → s'.refs.count p = 0 ∧ s.filesOn p = 0) : Inv s' := by
  have hfo : s'.filesOn = s.filesOn := Sys.filesOn_congr hfiles hheld
  have hde : s'.denying = s.denying := Sys.denying_congr hfiles hheld
  have hlive : ∀ q, (s.fs.inodes q).isSome → s.filesOn q ≠ 0 ∨ s'.refs.count q ≠ 0 →
      (s'.fs.inodes q).isSome := by
    intro q hq hc
    by_cases hqp : q = p
    · subst hqp
      cases hp : s'.fs.inodes q with
      | none => exact absurd (hgone hp) (by omega)
      | some _ => rfl
    · rwa [hin q hqp]
  refine ⟨hreg, fun q j hq => ?_, fun q j hq => ?_, fun q j hq => ?_, fun q hq => ?_,
    hheld ▸ hfiles ▸ h.held_iff, hheld ▸ h.held_nodup, fun f x hx => ?_⟩
  · rw [hfo]
    by_cases hqp : q = p
    · exact hqp ▸ (hat j (hqp ▸ hq)).1
    · rw [hrefs q hqp, h.open_cnt q j (hin q hqp ▸ hq)]
  · by_cases hqp : q = p
    · exact (hat j (hqp ▸ hq)).2.1
    · exact h.live q j (hin q hqp ▸ hq)
  · rw [hde]
    by_cases hqp : q = p
    · exact hqp ▸ (hat j (hqp ▸ hq)).2.2
    · exact h.deny_cnt q j (hin q hqp ▸ hq)
  · have hc : s'.refs.count q ≠ 0 := (List.count_pos_iff.mpr hq).ne'
    by_cases hqp : q = p
    · cases hp : s'.fs.inodes q with
      | none => exact absurd (hgone (hqp ▸ hp)).1 (hqp ▸ hc)
      | some _ => rfl
    · rw [hin q hqp]
      exact h.refs_live q (List.count_pos_iff.mp (by rw [← hrefs q hqp]; omega))
  · rw [hfiles] at hx
    exact hlive _ (h.files_live f x hx) (Or.inl (h.filesOn_pos hx).ne')

theorem Inv.bumpRef (h : Inv s) {p : Nat} {i : Inode} (hp : s.fs.inodes p = some i) :
    Inv ⟨s.fs.setInode p (some { i with openCnt := i.openCnt + 1 }), p :: s.refs, s.held⟩ := by
  refine h.frame p (h.toRegistry.setInode hp rfl) rfl rfl (fun q hq => by simp [hq])
    (fun q hq => List.count_cons_of_ne (Ne.symm hq)) (fun j hj => ?_) (by simp)
  simp only [Fs.setInode_inodes, Function.update_self, Option.some.injEq] at hj
  subst hj
  have := h.open_cnt p i hp
  have := h.live p i hp
  dsimp only
  refine ⟨?_, by omega, h.deny_cnt p i hp⟩
  simp only [List.count_cons_self]
  push_cast
  omega

theorem Inv.not_mem_refs (h : Inv s) {p : Nat} (hp : s.fs.inodes p = none) : p ∉ s.refs :=
  fun hm => by simpa [hp] using h.refs_live p hm

theorem Inv.newInode (h : Inv s) {p sector : Nat} (d : InodeDisk) (hp : s.fs.inodes p = none)
    (hsec : ∀ q j, s.fs.inodes q = some j → j.sector ≠ sector) :
    Inv ⟨{ s.fs.setInode p (some ⟨sector, 1, false, 0, d⟩) with
      openInodes := p :: s.fs.openInodes }, p :: s.refs, s.held⟩ := by
  refine h.frame p (h.toRegistry.insert d hp hsec) rfl rfl
    (fun q hq => by simp [Fs.setInode, hq]) (fun q hq => List.count_cons_of_ne (Ne.symm hq))
    (fun j hj => ?_) (by simp [Fs.setInode])
  simp only [Fs.setInode, Function.update_self, Option.some.injEq] at hj
  subst hj
  have h0 : s.refs.count p = 0 := List.count_eq_zero.mpr (h.not_mem_refs hp)
  have h1 : s.denying p = 0 := Nat.eq_zero_of_le_zero
    ((s.denying_le_filesOn p).trans_eq (h.filesOn_eq_zero hp))
  simp [List.count_cons_self, h0, h.filesOn_eq_zero hp, h1]

theorem Inv.remove (h : Inv s) {p : Nat} {i : Inode} (hp : s.fs.inodes p = some i) :
    Inv ⟨s.fs.setInode p (some { i with removed := true }), s.refs, s.held⟩ := by
  refine h.frame p (h.toRegistry.setInode hp rfl) rfl rfl (fun q hq => by simp [hq])
    (fun _ _ => rfl) (fun j hj => ?_) (by simp)
  simp only [Fs.setInode_inodes, Function.update_self, Option.some.injEq] at hj
  subst hj
  exact ⟨h.open_cnt p i hp, h.live p i hp, h.deny_cnt p i hp⟩

theorem Inv.dropRef (h : Inv s) {p : Nat} {fs' : Fs} (hp : p ∈ s.refs)
    (hc : inodeClose s.fs (some p) = some fs') : Inv ⟨fs', s.refs.erase p, s.held⟩ := by
  obtain ⟨i, hi⟩ := Option.isSome_iff_exists.mp (h.refs_live p hp)
  have hcnt := h.open_cnt p i hi
  have hpos := List.count_pos_iff.mpr hp
  have herase : (s.refs.erase p).count p = s.refs.count p - 1 := List.count_erase_self
  have hne : ∀ q, q ≠ p → (s.refs.erase p).count q = s.refs.count q :=
    fun q hq => List.count_erase_of_ne hq
  obtain ⟨i', hi', hcase⟩ := inodeClose_eq_some hc
  obtain rfl : i = i' := Option.some.inj (hi.symm.trans hi')
  rcases hcase with ⟨h0, fm, -, rfl⟩ | ⟨h0, rfl⟩
  · -- the last reference: the struct is freed and leaves `open_inodes`
    refine h.frame p (h.toRegistry.erase fm) rfl rfl (fun q hq => by simp [Fs.setInode, hq]) hne
      (fun j hj => by simp [Fs.setInode] at hj) (fun _ => ?_)
    dsimp only
    omega
  · refine h.frame p (h.toRegistry.setInode hi rfl) rfl rfl (fun q hq => by simp [hq]) hne
      (fun j hj => ?_) (by simp)
    simp only [Fs.setInode_inodes, Function.update_self, Option.some.injEq] at hj
    subst hj
    dsimp only
    refine ⟨?_, by omega, h.deny_cnt p i hi⟩
    simp only [herase]
    push_cast [Nat.one_le_iff_ne_zero.mpr hpos.ne']
    omega

theorem Inv.refToFile (h : Inv s) {p f : Nat} (hp : p ∈ s.refs) (hf : s.fs.files f = none) :
    Inv ⟨s.fs.setFile f (some ⟨p, 0, false⟩), s.refs.erase p, f :: s.held⟩ := by
  have hnot : f ∉ s.held := fun hm => by simpa [hf] using (h.held_iff f).mp hm
  have hfo : ∀ q, Sys.filesOn ⟨s.fs.setFile f (some ⟨p, 0, false⟩), s.refs.erase p, f :: s.held⟩ q =
      s.filesOn q + if p = q then 1 else 0 := fun q => by
    simpa [Sys.filesOn] using countP_cons_update hnot s.fs.files (some ⟨p, 0, false⟩)
      (fun o => o.any (·.inode == q))
  have hde : ∀ q, Sys.denying ⟨s.fs.setFile f (some ⟨p, 0, false⟩), s.refs.erase p, f :: s.held⟩ q =
      s.denying q := fun q => by
    simpa [Sys.denying] using countP_cons_update hnot s.fs.files (some ⟨p, 0, false⟩)
      (fun o => o.any fun x => x.inode == q && x.denyWrite)
  refine ⟨h.toRegistry.setFile f _, fun q j hq => ?_, h.live, fun q j hq => ?_, fun q hq => ?_,
    fun g => ?_, List.nodup_cons.mpr ⟨hnot, h.held_nodup⟩, fun g x hx => ?_⟩
  · have := h.open_cnt q j hq
    have hpos := List.count_pos_iff.mpr hp
    dsimp only
    rw [hfo, List.count_erase]
    by_cases hpq : p = q
    · subst hpq
      simp only [beq_self_eq_true, if_true]
      push_cast [Nat.one_le_iff_ne_zero.mpr hpos.ne']
      omega
    · simp [hpq, this]
  · rw [hde]
    exact h.deny_cnt q j hq
  · exact h.refs_live q (List.mem_of_mem_erase hq)
  · by_cases hg : g = f
    · simp [hg]
    · simp [hg, h.held_iff]
  · simp only [Fs.setFile_files, Function.update_apply] at hx
    split_ifs at hx
    · cases hx
      exact h.refs_live p hp
    · exact h.files_live g x hx

theorem Inv.fileToRef (h : Inv s) {f : Nat} {x : File} (hf : s.fs.files f = some x)
    (hx : x.denyWrite = false) :
    Inv ⟨s.fs.setFile f none, x.inode :: s.refs, s.held.erase f⟩ := by
  have hmem : f ∈ s.held := (h.held_iff f).mpr (by simp [hf])
  have hfo : ∀ q, Sys.filesOn ⟨s.fs.setFile f none, x.inode :: s.refs, s.held.erase f⟩ q +
      (if x.inode = q then 1 else 0) = s.filesOn q := fun q => by
    simpa [Sys.filesOn, hf] using countP_erase_update h.held_nodup hmem s.fs.files none
      (fun o => o.any (·.inode == q))
  have hde : ∀ q, Sys.denying ⟨s.fs.setFile f none, x.inode :: s.refs, s.held.erase f⟩ q =
      s.denying q := fun q => by
    simpa [Sys.denying, hf, hx] using countP_erase_update h.held_nodup hmem s.fs.files none
      (fun o => o.any fun x => x.inode == q && x.denyWrite)
  refine ⟨h.toRegistry.setFile f _, fun q j hq => ?_, h.live, fun q j hq => ?_, fun q hq => ?_,
    fun g => ?_, h.held_nodup.erase f, fun g y hy => ?_⟩
  · have := h.open_cnt q j hq
    have := hfo q
    dsimp only
    rw [List.count_cons]
    by_cases hpq : x.inode = q
    · simp only [hpq, beq_self_eq_true, if_true] at this ⊢
      push_cast
      omega
    · simp only [hpq, if_false, beq_iff_eq] at this ⊢
      push_cast
      omega
  · rw [hde]
    exact h.deny_cnt q j hq
  · rcases List.mem_cons.mp hq with rfl | hq
    · exact h.files_live f x hf
    · exact h.refs_live q hq
  · rw [h.held_nodup.mem_erase_iff]
    by_cases hg : g = f
    · simp [hg]
    · simp [hg, h.held_iff]
  · simp only [Fs.setFile_files, Function.update_apply] at hy
    split_ifs at hy
    exact h.files_live g y hy

theorem Inv.setDeny (h : Inv s) {f : Nat} {x : File} {i : Inode} (hf : s.fs.files f = some x)
    (hi : s.fs.inodes x.inode = some i) (b : Bool) {c : Int}
    (hc : c + (if x.denyWrite then 1 else 0) = i.denyWriteCnt + (if b then 1 else 0)) :
    Inv ⟨(s.fs.setFile f (some { x with denyWrite := b })).setInode x.inode
      (some { i with denyWriteCnt := c }), s.refs, s.held⟩ := by
  have hmem : f ∈ s.held := (h.held_iff f).mpr (by simp [hf])
  have hfo : Sys.filesOn ⟨(s.fs.setFile f (some { x with denyWrite := b })).setInode x.inode
      (some { i with denyWriteCnt := c }), s.refs, s.held⟩ = s.filesOn := by
    funext q
    simpa [Sys.filesOn, hf] using countP_update_of_mem h.held_nodup hmem s.fs.files
      (some { x with denyWrite := b }) (fun o => o.any (·.inode == q))
  have hde : ∀ q, Sys.denying ⟨(s.fs.setFile f (some { x with denyWrite := b })).setInode x.inode
      (some { i with denyWriteCnt := c }), s.refs, s.held⟩ q +
        (if x.inode = q ∧ x.denyWrite then 1 else 0) =
      s.denying q + (if x.inode = q ∧ b then 1 else 0) := fun q => by
    simpa [Sys.denying, hf] using countP_update_of_mem h.held_nodup hmem s.fs.files
      (some { x with denyWrite := b }) (fun o => o.any fun x => x.inode == q && x.denyWrite)
  refine ⟨(h.toRegistry.setFile f _).setInode hi rfl, fun q j hq => ?_, fun q j hq => ?_,
    fun q j hq => ?_, fun q hq => isSome_update_some _ (h.refs_live q hq), fun g => ?_,
    h.held_nodup, fun g y hy => ?_⟩
  · rw [hfo]
    simp only [Fs.setInode_inodes, Fs.setFile_inodes, Function.update_apply] at hq
    split_ifs at hq with hq'
    · cases hq
      subst hq'
      exact h.open_cnt _ i hi
    · exact h.open_cnt q j hq
  · simp only [Fs.setInode_inodes, Fs.setFile_inodes, Function.update_apply] at hq
    split_ifs at hq
    · cases hq
      exact h.live _ i hi
    · exact h.live q j hq
  · simp only [Fs.setInode_inodes, Fs.setFile_inodes, Function.update_apply] at hq
    split_ifs at hq with hq'
    · -- the inode of the file: its count moves with the flag
      cases hq
      subst hq'
      have hd := hde x.inode
      have hi' := h.deny_cnt _ i hi
      simp only [true_and] at hd
      dsimp only
      split_ifs at hc hd <;> omega
    · have hd := hde q
      simp only [Ne.symm hq', false_and, if_false, Nat.add_zero] at hd
      rw [hd]
      exact h.deny_cnt q j hq
  · by_cases hg : g = f
    · simp [hg, hmem]
    · simp [hg, h.held_iff]
  · simp only [Fs.setInode_files, Fs.setFile_files, Function.update_apply] at hy
    split_ifs at hy
    · cases hy
      simp
    · exact isSome_update_some _ (h.files_live g y hy)

end Counts

/-! ## The calls -/

theorem findOpen_isSome_of_mem {fs : Fs} {sector p : Nat} (hp : (fs.inodes p).any (·.sector == sector)) :
    ∀ {l : List Nat}, p ∈ l → (findOpen fs sector l).isSome
  | [], hm => absurd hm List.not_mem_nil
  | q :: l, hm => by
    unfold findOpen
    split
    · rfl
    · rcases List.mem_cons.mp hm with rfl | hm
      · contradiction
      · exact findOpen_isSome_of_mem hp hm

theorem Registry.findOpen_live {fs : Fs} (h : Registry fs) {p : Nat} {i : Inode}
    (hp : fs.inodes p = some i) : findOpen fs i.sector fs.openInodes = some p := by
  have hm : p ∈ fs.openInodes := (h.open_iff p).mpr (by simp [hp])
  have hs : (findOpen fs i.sector fs.openInodes).isSome := findOpen_isSome_of_mem (by simp [hp]) hm
  obtain ⟨q, hq⟩ := Option.isSome_iff_exists.mp hs
  obtain ⟨-, j, hj, hs⟩ := findOpen_eq_some hq
  rw [hq, h.sector_inj q p j i hj hp hs]

theorem inodeClose_setFile (fs : Fs) (f : Nat) (v : Option File) (p : Option Nat) :
    inodeClose (fs.setFile f v) p = (inodeClose fs p).map (·.setFile f v) := by
  cases p with
  | none => rfl
  | some p =>
    cases hi : fs.inodes p with
    | none => simp [inodeClose, hi]
    | some i =>
      simp only [inodeClose, Fs.setFile_inodes, Fs.setFile_freeMap, hi, Option.bind_eq_bind,
        Option.bind_some]
      split_ifs
      · cases releaseInode fs.freeMap i <;> rfl
      · rfl
      · rfl

theorem fileAllowWrite_eq_some {fs fs' : Fs} {f : Nat} (h : fileAllowWrite fs f = some fs') :
    ∃ x, fs.files f = some x ∧ (x.denyWrite = false ∧ fs' = fs ∨
      x.denyWrite = true ∧ ∃ i, fs.inodes x.inode = some i ∧
        fs' = (fs.setFile f (some { x with denyWrite := false })).setInode x.inode
          (some { i with denyWriteCnt := i.denyWriteCnt - 1 })) := by
  cases hx : fs.files f with
  | none => simp [fileAllowWrite, hx] at h
  | some x =>
    refine ⟨x, rfl, ?_⟩
    simp only [fileAllowWrite, hx, Option.bind_eq_bind, Option.bind_some] at h
    cases hd : x.denyWrite
    · simp only [hd] at h
      exact Or.inl ⟨rfl, (Option.some.inj h).symm⟩
    · simp only [hd, if_true, inodeAllowWrite, Fs.setFile_inodes, Option.bind_eq_bind] at h
      obtain ⟨i, hi, h⟩ := Option.bind_eq_some_iff.mp h
      obtain ⟨_, -, h⟩ := Option.bind_eq_some_iff.mp h
      obtain ⟨_, -, h⟩ := Option.bind_eq_some_iff.mp h
      exact Or.inr ⟨rfl, i, hi, (Option.some.inj h).symm⟩

theorem fileAllowWrite_clears {fs fs' : Fs} {f : Nat} (h : fileAllowWrite fs f = some fs') :
    ∃ x, fs'.files f = some x ∧ x.denyWrite = false := by
  obtain ⟨x, hx, ⟨hd, rfl⟩ | ⟨-, i, -, rfl⟩⟩ := fileAllowWrite_eq_some h
  · exact ⟨x, hx, hd⟩
  · exact ⟨{ x with denyWrite := false }, by simp, rfl⟩

theorem fileDenyWrite_eq_some {fs fs' : Fs} {f : Nat} (h : fileDenyWrite fs f = some fs') :
    ∃ x, fs.files f = some x ∧ (x.denyWrite = true ∧ fs' = fs ∨
      x.denyWrite = false ∧ ∃ i, fs.inodes x.inode = some i ∧
        fs' = (fs.setFile f (some { x with denyWrite := true })).setInode x.inode
          (some { i with denyWriteCnt := i.denyWriteCnt + 1 })) := by
  cases hx : fs.files f with
  | none => simp [fileDenyWrite, hx] at h
  | some x =>
    refine ⟨x, rfl, ?_⟩
    simp only [fileDenyWrite, hx, Option.bind_eq_bind, Option.bind_some] at h
    cases hd : x.denyWrite
    · simp only [hd, Bool.not_false, if_true, inodeDenyWrite, Fs.setFile_inodes,
        Option.bind_eq_bind] at h
      obtain ⟨i, hi, h⟩ := Option.bind_eq_some_iff.mp h
      obtain ⟨_, -, h⟩ := Option.bind_eq_some_iff.mp h
      exact Or.inr ⟨rfl, i, hi, (Option.some.inj h).symm⟩
    · simp only [hd] at h
      exact Or.inl ⟨rfl, (Option.some.inj h).symm⟩

section Calls
variable {s : Sys}

theorem Inv.fileAllowWrite (h : Inv s) {f : Nat} {fs' : Fs}
    (hc : Filesys.fileAllowWrite s.fs f = some fs') : Inv ⟨fs', s.refs, s.held⟩ := by
  obtain ⟨x, hx, ⟨-, rfl⟩ | ⟨hd, i, hi, rfl⟩⟩ := fileAllowWrite_eq_some hc
  · exact h
  · exact h.setDeny hx hi false (by simp [hd])

theorem Inv.fileDenyWrite (h : Inv s) {f : Nat} {fs' : Fs}
    (hc : Filesys.fileDenyWrite s.fs f = some fs') : Inv ⟨fs', s.refs, s.held⟩ := by
  obtain ⟨x, hx, ⟨-, rfl⟩ | ⟨hd, i, hi, rfl⟩⟩ := fileDenyWrite_eq_some hc
  · exact h
  · exact h.setDeny hx hi true (by simp [hd])

theorem Inv.fileOpen (h : Inv s) {p : Nat} {alloc g : Option Nat} {fs' : Fs} (hp : p ∈ s.refs)
    (hfree : ∀ f, alloc = some f → s.fs.files f = none)
    (ho : Filesys.fileOpen s.fs (some p) alloc = some (fs', g)) :
    Inv ⟨fs', s.refs.erase p, g.toList ++ s.held⟩ := by
  cases alloc with
  | some f =>
    simp only [Filesys.fileOpen, Option.some.injEq, Prod.mk.injEq] at ho
    obtain ⟨rfl, rfl⟩ := ho
    exact h.refToFile hp (hfree f rfl)
  | none =>
    simp only [Filesys.fileOpen, Option.bind_eq_bind, Option.pure_def] at ho
    obtain ⟨fs₂, hc, ho⟩ := Option.bind_eq_some_iff.mp ho
    simp only [Option.some.injEq, Prod.mk.injEq] at ho
    obtain ⟨rfl, rfl⟩ := ho
    exact h.dropRef hp hc

theorem Inv.fileReopen (h : Inv s) {f : Nat} {alloc g : Option Nat} {fs' : Fs} (hf : f ∈ s.held)
    (hfree : ∀ g, alloc = some g → s.fs.files g = none)
    (ho : Filesys.fileReopen s.fs f alloc = some (fs', g)) :
    Inv ⟨fs', s.refs, g.toList ++ s.held⟩ := by
  obtain ⟨x, hx⟩ := Option.isSome_iff_exists.mp ((h.held_iff f).mp hf)
  obtain ⟨i, hi⟩ := Option.isSome_iff_exists.mp (h.files_live f x hx)
  simp only [Filesys.fileReopen, hx, inodeReopen, hi, Option.bind_eq_bind, Option.bind_some,
    Option.pure_def] at ho
  have h₂ := (h.bumpRef hi).fileOpen List.mem_cons_self hfree ho
  rwa [List.erase_cons_head] at h₂

theorem Inv.fileClose (h : Inv s) {f : Nat} {fs' : Fs}
    (hc : Filesys.fileClose s.fs (some f) = some fs') : Inv ⟨fs', s.refs, s.held.erase f⟩ := by
  simp only [Filesys.fileClose, Option.bind_eq_bind, Option.pure_def] at hc
  obtain ⟨fs₁, hallow, hc⟩ := Option.bind_eq_some_iff.mp hc
  obtain ⟨x, hx, hc⟩ := Option.bind_eq_some_iff.mp hc
  obtain ⟨fs₂, hclose, hc⟩ := Option.bind_eq_some_iff.mp hc
  cases hc
  obtain ⟨x', hx', hd⟩ := fileAllowWrite_clears hallow
  obtain rfl : x' = x := Option.some.inj (hx'.symm.trans hx)
  have h₂ := (h.fileAllowWrite hallow).fileToRef hx hd
  have h₃ := h₂.dropRef List.mem_cons_self (by rw [inodeClose_setFile, hclose]; rfl)
  rwa [List.erase_cons_head] at h₃

theorem inodeOpen_of_open {fs : Fs} (h : Registry fs) {p : Nat} {i : Inode}
    (hp : fs.inodes p = some i) (alloc : Option Nat) :
    inodeOpen fs i.sector alloc =
      some (fs.setInode p (some { i with openCnt := i.openCnt + 1 }), some p) := by
  simp only [inodeOpen, h.findOpen_live hp, inodeReopen, hp, Option.bind_eq_bind, Option.bind_some,
    Option.pure_def]

theorem inodeOpen_eq_some {fs fs' : Fs} {sector : Nat} {alloc g : Option Nat}
    (h : inodeOpen fs sector alloc = some (fs', g)) :
    (∃ p i, g = some p ∧ fs'.inodes p = some i ∧ i.sector = sector) ∨ (g = none ∧ fs' = fs) := by
  unfold inodeOpen at h
  split at h
  · rename_i q hq
    obtain ⟨-, i, hi, hs⟩ := findOpen_eq_some hq
    simp only [inodeReopen, hi, Option.bind_eq_bind, Option.bind_some, Option.pure_def,
      Option.some.injEq, Prod.mk.injEq] at h
    obtain ⟨rfl, rfl⟩ := h
    exact Or.inl ⟨q, { i with openCnt := i.openCnt + 1 }, rfl, by simp, hs⟩
  · split at h
    · cases h
      exact Or.inr ⟨rfl, rfl⟩
    · rename_i q
      cases h
      exact Or.inl ⟨q, ⟨sector, 1, false, 0, fs.disk sector⟩, rfl, by simp [Fs.setInode], rfl⟩

theorem inodeOpen_isSome (fs : Fs) (sector : Nat) (alloc : Option Nat) :
    (inodeOpen fs sector alloc).isSome := by
  unfold inodeOpen
  split
  · rename_i p hp
    obtain ⟨-, i, hi, -⟩ := findOpen_eq_some hp
    simp [inodeReopen, hi]
  · split <;> rfl

theorem inodeOpen_alloc (fs : Fs) (sector q : Nat) :
    ∃ fs' p, inodeOpen fs sector (some q) = some (fs', some p) := by
  unfold inodeOpen
  split
  · rename_i p hp
    obtain ⟨-, i, hi, -⟩ := findOpen_eq_some hp
    exact ⟨fs.setInode p (some { i with openCnt := i.openCnt + 1 }), p, by simp [inodeReopen, hi]⟩
  · exact ⟨_, q, rfl⟩

theorem Inv.inodeOpen (h : Inv s) {sector : Nat} {alloc g : Option Nat} {fs' : Fs}
    (halloc : ∀ p, alloc = some p → s.fs.inodes p = none)
    (ho : Filesys.inodeOpen s.fs sector alloc = some (fs', g)) :
    Inv ⟨fs', g.toList ++ s.refs, s.held⟩ := by
  unfold Filesys.inodeOpen at ho
  split at ho
  · rename_i q hq
    obtain ⟨-, i, hi, -⟩ := findOpen_eq_some hq
    simp only [inodeReopen, hi, Option.bind_eq_bind, Option.bind_some, Option.pure_def,
      Option.some.injEq, Prod.mk.injEq] at ho
    obtain ⟨rfl, rfl⟩ := ho
    exact h.bumpRef hi
  · rename_i hq
    split at ho
    · cases ho
      exact h
    · -- a new struct, at the address `malloc` returned
      rename_i p
      cases ho
      exact h.newInode _ (halloc p rfl) (h.toRegistry.findOpen_none hq)

theorem Inv.step (h : Inv s) {e : Event} (he : e.Allowed s) {s' : Sys}
    (hs : Filesys.step s e = some s') : Inv s' := by
  cases e with
  | inodeOpen sector alloc =>
    simp only [Filesys.step, Option.bind_eq_bind, Option.pure_def] at hs
    obtain ⟨⟨fs, g⟩, ho, hs⟩ := Option.bind_eq_some_iff.mp hs
    cases hs
    exact h.inodeOpen he ho
  | inodeReopen p =>
    obtain ⟨i, hi⟩ := Option.isSome_iff_exists.mp (h.refs_live p he)
    simp only [Filesys.step, Filesys.inodeReopen, hi, Option.bind_eq_bind, Option.bind_some,
      Option.pure_def, Option.some.injEq] at hs
    cases hs
    exact h.bumpRef hi
  | inodeClose p =>
    simp only [Filesys.step, Option.bind_eq_bind, Option.pure_def] at hs
    obtain ⟨fs, hc, hs⟩ := Option.bind_eq_some_iff.mp hs
    cases hs
    exact h.dropRef he hc
  | inodeRemove p =>
    obtain ⟨i, hi⟩ := Option.isSome_iff_exists.mp (h.refs_live p he)
    simp only [Filesys.step, Filesys.inodeRemove, hi, Option.bind_eq_bind, Option.bind_some,
      Option.pure_def, Option.some.injEq] at hs
    cases hs
    exact h.remove hi
  | fileOpen p alloc =>
    simp only [Filesys.step, Option.bind_eq_bind, Option.pure_def] at hs
    obtain ⟨⟨fs, g⟩, ho, hs⟩ := Option.bind_eq_some_iff.mp hs
    cases hs
    exact h.fileOpen he.1 he.2 ho
  | fileReopen f alloc =>
    simp only [Filesys.step, Option.bind_eq_bind, Option.pure_def] at hs
    obtain ⟨⟨fs, g⟩, ho, hs⟩ := Option.bind_eq_some_iff.mp hs
    cases hs
    exact h.fileReopen he.1 he.2 ho
  | fileClose f =>
    simp only [Filesys.step, Option.bind_eq_bind, Option.pure_def] at hs
    obtain ⟨fs, hc, hs⟩ := Option.bind_eq_some_iff.mp hs
    cases hs
    exact h.fileClose hc
  | fileDenyWrite f =>
    simp only [Filesys.step, Option.bind_eq_bind, Option.pure_def] at hs
    obtain ⟨fs, hc, hs⟩ := Option.bind_eq_some_iff.mp hs
    cases hs
    exact h.fileDenyWrite hc
  | fileAllowWrite f =>
    simp only [Filesys.step, Option.bind_eq_bind, Option.pure_def] at hs
    obtain ⟨fs, hc, hs⟩ := Option.bind_eq_some_iff.mp hs
    cases hs
    exact h.fileAllowWrite hc

theorem Inv.init (fm : Bitmap) (disk : Nat → InodeDisk) : Inv (Sys.init fm disk) where
  open_iff _ := by simp [Sys.init]
  nodup := List.nodup_nil
  sector_inj _ _ _ _ h := by simp [Sys.init] at h
  open_cnt _ _ h := by simp [Sys.init] at h
  live _ _ h := by simp [Sys.init] at h
  deny_cnt _ _ h := by simp [Sys.init] at h
  refs_live _ h := by simp [Sys.init] at h
  held_iff _ := by simp [Sys.init]
  held_nodup := List.nodup_nil
  files_live _ _ h := by simp [Sys.init] at h

theorem Inv.of_reachable {fm : Bitmap} {disk : Nat → InodeDisk} (h : Reachable fm disk s) :
    Inv s := by
  induction h with
  | refl => exact Inv.init fm disk
  | tail _ hstep ih =>
    obtain ⟨e, he, hs⟩ := hstep
    exact ih.step he hs

theorem Inv.deny_le (h : Inv s) {p : Nat} {i : Inode} (hp : s.fs.inodes p = some i) :
    0 ≤ i.denyWriteCnt ∧ i.denyWriteCnt ≤ i.openCnt := by
  have hd := h.deny_cnt p i hp
  have ho := h.open_cnt p i hp
  have := s.denying_le_filesOn p
  omega

theorem Inv.inodeClose_frees (h : Inv s) {p : Nat} {fs' : Fs}
    (hc : inodeClose s.fs (some p) = some fs') :
    fs'.inodes p = none ↔ s.refs.count p + s.filesOn p = 1 := by
  obtain ⟨i, hi, hcase⟩ := inodeClose_eq_some hc
  have ho := h.open_cnt p i hi
  rcases hcase with ⟨h0, fm, -, rfl⟩ | ⟨h0, rfl⟩
  · simp only [Fs.setInode_inodes, Function.update_self, true_iff]
    omega
  · simp only [Fs.setInode_inodes, Function.update_self, reduceCtorEq, false_iff]
    omega

end Calls

/-! ## The free map and the disk -/

theorem inode_registry {fm : Bitmap} {disk : Nat → InodeDisk} {s : Sys}
    (h : Reachable fm disk s) :
    (∀ p, p ∈ s.fs.openInodes ↔ (s.fs.inodes p).isSome) ∧ s.fs.openInodes.Nodup ∧
    (∀ p q i j, s.fs.inodes p = some i → s.fs.inodes q = some j → i.sector = j.sector → p = q) ∧
    (∀ p i alloc, s.fs.inodes p = some i → inodeOpen s.fs i.sector alloc =
      some (s.fs.setInode p (some { i with openCnt := i.openCnt + 1 }), some p)) ∧
    (∀ p i, s.fs.inodes p = some i → i.openCnt = s.refs.count p + s.filesOn p ∧
      0 ≤ i.denyWriteCnt ∧ i.denyWriteCnt ≤ i.openCnt) ∧
    ∀ p ∈ s.refs, ∀ fs', inodeClose s.fs (some p) = some fs' →
      (fs'.inodes p = none ↔ s.refs.count p + s.filesOn p = 1) := by
  have hi := Inv.of_reachable h
  refine ⟨hi.open_iff, hi.nodup, hi.sector_inj, fun p i alloc hp => ?_, fun p i hp => ?_,
    fun p _ fs' hc => hi.inodeClose_frees hc⟩
  · exact inodeOpen_of_open hi.toRegistry hp alloc
  · exact ⟨hi.open_cnt p i hp, hi.deny_le hp⟩

/-- Two opens of sector 5: the second finds the struct the first made, and counts it twice. -/
theorem inode_registry_reopen : ∃ s, Reachable ⟨[]⟩ (fun _ => ⟨0, 0, INODE_MAGIC⟩) s ∧
    s.refs = [100, 100] ∧ ∀ i, s.fs.inodes 100 = some i →
      i.openCnt = 2 ∧ 0 ≤ i.denyWriteCnt ∧ i.denyWriteCnt ≤ i.openCnt := by
  obtain ⟨s, hs, hrefs, hheld⟩ : ∃ s, Reachable ⟨[]⟩ (fun _ => ⟨0, 0, INODE_MAGIC⟩) s ∧
      s.refs = [100, 100] ∧ s.held = [] :=
    ⟨_, .tail (.tail .refl ⟨.inodeOpen 5 (some 100), fun p hp => by cases hp; rfl, rfl⟩)
      ⟨.inodeOpen 5 (some 101), fun p hp => by cases hp; rfl, rfl⟩, rfl, rfl⟩
  refine ⟨s, hs, hrefs, fun i hi => ?_⟩
  obtain ⟨ho, hd⟩ := (inode_registry hs).2.2.2.2.1 100 i hi
  refine ⟨?_, hd⟩
  rw [ho, hrefs, Sys.filesOn, hheld]
  rfl

end Pintos.Filesys
