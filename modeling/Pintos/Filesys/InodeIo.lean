import Pintos.Filesys.Inode
import Pintos.Threads.Malloc
import Pintos.Lib.Bytes

/-! # `inode_read_at` and `inode_write_at` over the sectors of `fs_device`

The data sectors that `Inode` leaves out. A device of `devices/block.c` is its count of sectors
and the bytes of each, a sector being the bytes `0 … 511` of a function; an access past its end
is the `PANIC` of `check_sector`. Both loops of `inode.c` cut the range into chunks that end at a
sector boundary or at the end of the file, and move a chunk either whole or through a bounce
buffer. The caller's buffer is its bytes from its start; the bounce buffer is the block `malloc`
gives, `none` for `NULL`, and a `memcpy` outside of it is `none`. `off_t` is `Int`, a sector
number is reduced mod `2 ^ 32`, and the device's type and counters are left out.

* `inodeReadAt_spec`, `inodeWriteAt_spec`: from any offset and size the call moves a prefix of
  bytes `offset … offset + min size (length - offset) - 1` of the file and changes no other byte.
* `inode_io_refines_bytes`: the prefix is all of them when `malloc` gives the bounce buffer, and
  otherwise the whole aligned sectors at its front (`movedCount`).
-/

namespace Pintos.Filesys
open Bytes
set_option autoImplicit false

/-! ## `devices/block.c` -/

/-- A block device of `size` sectors, a `block_sector_t`. -/
structure Device where
  size : Nat
  sectors : Nat → Nat → UInt8
  size_lt : size < 2 ^ 32

/-- `block_read (dev, sector, buf + dst)`. -/
def blockRead (dev : Device) (sector : Nat) (buf : Nat → UInt8) (dst : Nat) :
    Option (Nat → UInt8) :=
  if sector < dev.size then some (copy buf dst (dev.sectors sector) 0 BLOCK_SECTOR_SIZE) else none

/-- `block_write (dev, sector, buf + src)`. -/
def blockWrite (dev : Device) (sector : Nat) (buf : Nat → UInt8) (src : Nat) : Option Device :=
  if sector < dev.size then
    some { dev with
      sectors := Function.update dev.sectors sector
        (copy (dev.sectors sector) 0 buf src BLOCK_SECTOR_SIZE) }
  else none

/-! ## The two loops -/

def inodeLength (inode : Inode) : Int := inode.data.length

def byteToSector (inode : Inode) (pos : Int) : Nat :=
  if pos < inodeLength inode then
    (((inode.data.start : Int) + pos.tdiv BLOCK_SECTOR_SIZE) % 2 ^ 32).toNat
  else 2 ^ 32 - 1

/-- What a round of either loop computes before it moves bytes. -/
structure Chunk where
  sectorIdx : Nat
  sectorOfs : Int
  sectorLeft : Int
  size : Int

def chunkAt (inode : Inode) (size offset : Int) : Chunk :=
  let sectorOfs := offset.tmod BLOCK_SECTOR_SIZE
  let inodeLeft := inodeLength inode - offset
  let sectorLeft := BLOCK_SECTOR_SIZE - sectorOfs
  let minLeft := if inodeLeft < sectorLeft then inodeLeft else sectorLeft
  ⟨byteToSector inode offset, sectorOfs, sectorLeft, if size < minLeft then size else minLeft⟩

/-- The loop of both functions, for `fuel` rounds. `xfer` moves one chunk: it gives the new state,
`some none` for the `break` when no bounce buffer can be had, or `none`. -/
def transferLoop {σ : Type} (inode : Inode) (xfer : Chunk → Int → σ → Option (Option σ)) :
    Nat → Int → Int → Int → σ → Option (Int × σ)
  | 0, _, _, _, _ => none
  | fuel + 1, size, offset, done, st =>
    if size > 0 then
      let c := chunkAt inode size offset
      if c.size ≤ 0 then some (done, st)
      else
        match xfer c done st with
        | none => none
        | some none => some (done, st)
        | some (some st') =>
          transferLoop inode xfer fuel (size - c.size) (offset + c.size) (done + c.size) st'
    else some (done, st)

/-- A round of `inode_read_at`, on the caller's buffer and the bounce buffer. -/
def readChunk (dev : Device) (bounceBlock : Option (Nat → UInt8)) (c : Chunk) (bytesRead : Int)
    (st : (Nat → UInt8) × Option (Nat → UInt8)) :
    Option (Option ((Nat → UInt8) × Option (Nat → UInt8))) :=
  if c.sectorOfs = 0 ∧ c.size = BLOCK_SECTOR_SIZE then do
    let buffer ← blockRead dev c.sectorIdx st.1 bytesRead.toNat
    return some (buffer, st.2)
  else
    match st.2.or bounceBlock with
    | none => some none
    | some bounce => do
      let bounce ← blockRead dev c.sectorIdx bounce 0
      if c.sectorOfs < 0 ∨ BLOCK_SECTOR_SIZE < c.sectorOfs + c.size then none
      return some (copy st.1 bytesRead.toNat bounce c.sectorOfs.toNat c.size.toNat, some bounce)

/-- A round of `inode_write_at`, on the device and the bounce buffer. -/
def writeChunk (buffer : Nat → UInt8) (bounceBlock : Option (Nat → UInt8)) (c : Chunk)
    (bytesWritten : Int) (st : Device × Option (Nat → UInt8)) :
    Option (Option (Device × Option (Nat → UInt8))) :=
  if c.sectorOfs = 0 ∧ c.size = BLOCK_SECTOR_SIZE then do
    let dev ← blockWrite st.1 c.sectorIdx buffer bytesWritten.toNat
    return some (dev, st.2)
  else
    match st.2.or bounceBlock with
    | none => some none
    | some bounce => do
      let bounce ← if c.sectorOfs > 0 ∨ c.size < c.sectorLeft then
          blockRead st.1 c.sectorIdx bounce 0
        else some (Malloc.memset bounce 0 0 BLOCK_SECTOR_SIZE)
      if c.sectorOfs < 0 ∨ BLOCK_SECTOR_SIZE < c.sectorOfs + c.size then none
      let bounce := copy bounce c.sectorOfs.toNat buffer bytesWritten.toNat c.size.toNat
      let dev ← blockWrite st.1 c.sectorIdx bounce 0
      return some (dev, some bounce)

/-- `inode_read_at`; the final `free (bounce)` has no effect on what it returns. -/
def inodeReadAt (dev : Device) (inode : Inode) (buffer : Nat → UInt8) (size offset : Int)
    (bounceBlock : Option (Nat → UInt8)) : Option (Int × (Nat → UInt8)) := do
  let (bytesRead, buffer, _) ←
    transferLoop inode (readChunk dev bounceBlock) (size.toNat + 1) size offset 0 (buffer, none)
  return (bytesRead, buffer)

def inodeWriteAt (dev : Device) (inode : Inode) (buffer : Nat → UInt8) (size offset : Int)
    (bounceBlock : Option (Nat → UInt8)) : Option (Device × Int) := do
  if inode.denyWriteCnt ≠ 0 then return (dev, 0)
  let (bytesWritten, dev, _) ←
    transferLoop inode (writeChunk buffer bounceBlock) (size.toNat + 1) size offset 0 (dev, none)
  return (dev, bytesWritten)

/-! ## The file as an array of bytes -/

/-- The bytes of the file whose data starts at sector `start`. -/
def fileBytes (sectors : Nat → Nat → UInt8) (start : Nat) : Nat → UInt8 :=
  fun i => sectors (start + i / BLOCK_SECTOR_SIZE) (i % BLOCK_SECTOR_SIZE)

/-- The bytes a read or write of `size` at `offset` moves in a file of `length`. -/
def transferCount (length size offset : Nat) : Nat := min size (length - offset)

/-- The bytes of the whole aligned sectors at the front of `count` bytes from `offset`. -/
def wholeSectors (offset count : Nat) : Nat :=
  if offset % BLOCK_SECTOR_SIZE = 0 then count / BLOCK_SECTOR_SIZE * BLOCK_SECTOR_SIZE else 0

/-- The bytes a call moves, given the block `malloc` returns for the bounce buffer. -/
def movedCount (length size offset : Nat) (bounceBlock : Option (Nat → UInt8)) : Nat :=
  if bounceBlock.isSome then transferCount length size offset
  else wholeSectors offset (transferCount length size offset)

/-- Byte `k` of sector `s` holds byte `i` of the file from sector `start`. -/
def HoldsByte (start s k i : Nat) : Prop :=
  s = start + i / BLOCK_SECTOR_SIZE ∧ k = i % BLOCK_SECTOR_SIZE

/-- The sectors once bytes `offset … offset + n - 1` of the file from sector `start` are the
front of `buf`. -/
def writeFile (sectors : Nat → Nat → UInt8) (start offset n : Nat) (buf : Nat → UInt8) :
    Nat → Nat → UInt8 :=
  fun s k =>
    if k < BLOCK_SECTOR_SIZE ∧ start ≤ s ∧ offset ≤ (s - start) * BLOCK_SECTOR_SIZE + k ∧
        (s - start) * BLOCK_SECTOR_SIZE + k < offset + n then
      buf ((s - start) * BLOCK_SECTOR_SIZE + k - offset)
    else sectors s k

theorem fileBytes_writeFile (sectors : Nat → Nat → UInt8) (start offset n : Nat)
    (buf : Nat → UInt8) :
    fileBytes (writeFile sectors start offset n buf) start =
      copy (fileBytes sectors start) offset buf 0 n := by
  funext i
  have hi : (start + i / BLOCK_SECTOR_SIZE - start) * BLOCK_SECTOR_SIZE + i % BLOCK_SECTOR_SIZE = i := by
    simp only [BLOCK_SECTOR_SIZE]
    omega
  simp only [fileBytes, writeFile, copy, hi]
  by_cases h : offset ≤ i ∧ i < offset + n
  · rw [if_pos ⟨Nat.mod_lt _ (by decide), Nat.le_add_right _ _, h⟩, if_pos h, Nat.zero_add]
  · rw [if_neg fun h' => h h'.2.2, if_neg h]

theorem writeFile_of_not_holds (sectors : Nat → Nat → UInt8) {start offset n s k : Nat}
    (buf : Nat → UInt8) (h : ∀ i, offset ≤ i → i < offset + n → ¬ HoldsByte start s k i) :
    writeFile sectors start offset n buf s k = sectors s k := by
  apply if_neg
  rintro ⟨hk, hs, hlo, hhi⟩
  apply h _ hlo hhi
  constructor <;> simp only [BLOCK_SECTOR_SIZE] at * <;> omega

@[simp] theorem writeFile_zero (sectors : Nat → Nat → UInt8) (start offset : Nat)
    (buf : Nat → UInt8) : writeFile sectors start offset 0 buf = sectors := by
  funext s k
  exact if_neg (by omega)

theorem writeFile_add_of_not_mem (sectors : Nat → Nat → UInt8) (buf : Nat → UInt8)
    {start offset k cl s x : Nat}
    (h : ¬(x < BLOCK_SECTOR_SIZE ∧ start ≤ s ∧ offset + k ≤ (s - start) * BLOCK_SECTOR_SIZE + x ∧
      (s - start) * BLOCK_SECTOR_SIZE + x < offset + k + cl)) :
    writeFile sectors start offset (k + cl) buf s x = writeFile sectors start offset k buf s x := by
  simp only [writeFile]
  by_cases hk : x < BLOCK_SECTOR_SIZE ∧ start ≤ s ∧ offset ≤ (s - start) * BLOCK_SECTOR_SIZE + x ∧
      (s - start) * BLOCK_SECTOR_SIZE + x < offset + k
  · rw [if_pos hk, if_pos (by omega)]
  · rw [if_neg hk, if_neg (by omega)]

theorem writeFile_step (sectors : Nat → Nat → UInt8) (buf : Nat → UInt8) {start offset k cl : Nat}
    (hofs : (offset + k) % BLOCK_SECTOR_SIZE + cl ≤ BLOCK_SECTOR_SIZE) :
    Function.update (writeFile sectors start offset k buf) (start + (offset + k) / BLOCK_SECTOR_SIZE)
        (copy (writeFile sectors start offset k buf (start + (offset + k) / BLOCK_SECTOR_SIZE))
          ((offset + k) % BLOCK_SECTOR_SIZE) buf k cl) =
      writeFile sectors start offset (k + cl) buf := by
  funext s x
  by_cases hs : s = start + (offset + k) / BLOCK_SECTOR_SIZE
  · subst hs
    rw [Function.update_self]
    by_cases hx : (offset + k) % BLOCK_SECTOR_SIZE ≤ x ∧ x < (offset + k) % BLOCK_SECTOR_SIZE + cl
    · -- a byte of the chunk
      rw [copy_of_mem _ _ hx.1 hx.2]
      simp only [writeFile]
      split_ifs with hc
      · congr 1
        simp only [BLOCK_SECTOR_SIZE] at *
        omega
      · simp only [BLOCK_SECTOR_SIZE] at *
        omega
    · rw [copy_of_not_mem _ _ (by omega), writeFile_add_of_not_mem]
      simp only [BLOCK_SECTOR_SIZE] at *
      omega
  · -- every byte of the chunk is in sector `start + (offset + k) / BLOCK_SECTOR_SIZE`
    rw [Function.update_of_ne hs, writeFile_add_of_not_mem]
    simp only [BLOCK_SECTOR_SIZE] at *
    omega

/-! ## Chunks -/

/-- The size of the chunk at `offset`, inside the file. -/
def chunkLen (length size offset : Nat) : Nat :=
  min size (min (length - offset) (BLOCK_SECTOR_SIZE - offset % BLOCK_SECTOR_SIZE))

/-- The chunk of `cl` bytes at byte `o` of the file from sector `start`. -/
def fileChunk (start o cl : Nat) : Chunk :=
  ⟨start + o / BLOCK_SECTOR_SIZE, (o % BLOCK_SECTOR_SIZE : Nat),
    BLOCK_SECTOR_SIZE - (o % BLOCK_SECTOR_SIZE : Nat), cl⟩

theorem chunkLen_bounds {length size offset : Nat} (hs : 0 < size) (ho : offset < length) :
    0 < chunkLen length size offset ∧ chunkLen length size offset ≤ size ∧
      offset + chunkLen length size offset ≤ length ∧
      offset % BLOCK_SECTOR_SIZE + chunkLen length size offset ≤ BLOCK_SECTOR_SIZE := by
  have hmod : offset % BLOCK_SECTOR_SIZE < BLOCK_SECTOR_SIZE := Nat.mod_lt _ (by decide)
  simp only [chunkLen]
  omega

section Chunks
variable (inode : Inode) (size offset : Nat)

theorem byteToSector_of_lt (ho : offset < inode.data.length)
    (hwrap : inode.data.start + bytesToSectors inode.data.length ≤ 2 ^ 32) :
    byteToSector inode offset = inode.data.start + offset / BLOCK_SECTOR_SIZE := by
  have hsec : offset / BLOCK_SECTOR_SIZE < bytesToSectors inode.data.length := by
    simp only [bytesToSectors, BLOCK_SECTOR_SIZE]
    omega
  rw [byteToSector, if_pos (by simp only [inodeLength]; omega), ← Int.ofNat_tdiv]
  simp only [BLOCK_SECTOR_SIZE] at *
  omega

theorem chunkAt_of_lt (ho : offset < inode.data.length)
    (hwrap : inode.data.start + bytesToSectors inode.data.length ≤ 2 ^ 32) :
    chunkAt inode size offset =
      fileChunk inode.data.start offset (chunkLen inode.data.length size offset) := by
  have hmod : offset % BLOCK_SECTOR_SIZE < BLOCK_SECTOR_SIZE := Nat.mod_lt _ (by decide)
  simp only [chunkAt, byteToSector_of_lt inode offset ho hwrap, ← Int.ofNat_tmod, inodeLength,
    chunkLen, fileChunk, Chunk.mk.injEq, true_and]
  split_ifs <;> omega

theorem chunkAt_size_of_lt (ho : offset < inode.data.length) :
    (chunkAt inode size offset).size = chunkLen inode.data.length size offset := by
  have hmod : offset % BLOCK_SECTOR_SIZE < BLOCK_SECTOR_SIZE := Nat.mod_lt _ (by decide)
  simp only [chunkAt, ← Int.ofNat_tmod, inodeLength, chunkLen]
  split_ifs <;> omega

theorem chunkAt_size_nonpos (ho : inode.data.length ≤ offset) :
    (chunkAt inode size offset).size ≤ 0 := by
  have hmod : offset % BLOCK_SECTOR_SIZE < BLOCK_SECTOR_SIZE := Nat.mod_lt _ (by decide)
  simp only [chunkAt, ← Int.ofNat_tmod, inodeLength]
  split_ifs <;> omega

theorem chunkAt_sectorOfs :
    (chunkAt inode size offset).sectorOfs = ((offset % BLOCK_SECTOR_SIZE : Nat) : Int) := by
  simp only [chunkAt, ← Int.ofNat_tmod]

end Chunks

theorem copy_sector_eq_file (sectors : Nat → Nat → UInt8) (buf : Nat → UInt8) (start : Nat)
    {o d cl : Nat}
    (h : o % BLOCK_SECTOR_SIZE + cl ≤ BLOCK_SECTOR_SIZE) :
    copy buf d (sectors (start + o / BLOCK_SECTOR_SIZE)) (o % BLOCK_SECTOR_SIZE) cl =
      copy buf d (fileBytes sectors start) o cl := by
  funext x
  by_cases hx : d ≤ x ∧ x < d + cl
  · rw [copy_of_mem _ _ hx.1 hx.2, copy_of_mem _ _ hx.1 hx.2, fileBytes]
    simp only [BLOCK_SECTOR_SIZE] at *
    congr 2 <;> omega
  · rw [copy_of_not_mem _ _ (by omega), copy_of_not_mem _ _ (by omega)]

/-! ## One round -/

section Round
variable (dev : Device) (bounceBlock : Option (Nat → UInt8)) {start o k cl : Nat}

/-- A round of `inode_read_at` on a chunk inside a sector of the file breaks off for want of a
bounce buffer, or copies the chunk into the buffer at `k`. -/
theorem readChunk_step (buffer : Nat → UInt8) (bounce : Option (Nat → UInt8))
    (hofs : o % BLOCK_SECTOR_SIZE + cl ≤ BLOCK_SECTOR_SIZE)
    (hsec : start + o / BLOCK_SECTOR_SIZE < dev.size) :
    readChunk dev bounceBlock (fileChunk start o cl) k (buffer, bounce) = some none ∨
      ∃ bounce', readChunk dev bounceBlock (fileChunk start o cl) k (buffer, bounce) =
        some (some (copy buffer k (fileBytes dev.sectors start) o cl, bounce')) := by
  have hfile := copy_sector_eq_file dev.sectors buffer start (d := k) hofs
  rw [readChunk]
  by_cases hd : o % BLOCK_SECTOR_SIZE = 0 ∧ cl = BLOCK_SECTOR_SIZE
  · -- a whole sector goes straight into the buffer
    obtain ⟨h0, rfl⟩ := hd
    have hc : (fileChunk start o BLOCK_SECTOR_SIZE).sectorOfs = 0 ∧
        (fileChunk start o BLOCK_SECTOR_SIZE).size = BLOCK_SECTOR_SIZE := by
      simp only [fileChunk, h0]
      trivial
    rw [if_pos hc]
    rw [h0] at hfile
    right
    refine ⟨bounce, ?_⟩
    simp [fileChunk, blockRead, hsec, hfile]
  · rw [if_neg (by simp only [fileChunk]; omega)]
    cases hb : bounce.or bounceBlock with
    | none => exact Or.inl rfl
    | some b =>
      right
      refine ⟨some (copy b 0 (dev.sectors (start + o / BLOCK_SECTOR_SIZE)) 0 BLOCK_SECTOR_SIZE), ?_⟩
      have hin : ¬((fileChunk start o cl).sectorOfs < 0 ∨
          BLOCK_SECTOR_SIZE < (fileChunk start o cl).sectorOfs + (fileChunk start o cl).size) := by
        simp only [fileChunk]
        omega
      have hsec' : (fileChunk start o cl).sectorIdx < dev.size := hsec
      simp only [blockRead, hsec', if_true, Option.bind_eq_bind, Option.bind_some, hin, if_false]
      simp only [fileChunk, Int.toNat_natCast, Option.pure_def]
      rw [copy_copy_src _ _ _ (Nat.zero_le _) (by omega), Nat.zero_add, Nat.sub_zero, hfile]

/-- A round of `inode_write_at` on a chunk inside a sector of the file breaks off for want of a
bounce buffer, or writes the chunk from the buffer at `k` into that sector and nothing else. -/
theorem writeChunk_step (buffer : Nat → UInt8) (bounce : Option (Nat → UInt8))
    (hofs : o % BLOCK_SECTOR_SIZE + cl ≤ BLOCK_SECTOR_SIZE)
    (hsec : start + o / BLOCK_SECTOR_SIZE < dev.size) :
    writeChunk buffer bounceBlock (fileChunk start o cl) k (dev, bounce) = some none ∨
      ∃ dev' bounce', writeChunk buffer bounceBlock (fileChunk start o cl) k (dev, bounce) =
          some (some (dev', bounce')) ∧ dev'.size = dev.size ∧
        dev'.sectors = Function.update dev.sectors (start + o / BLOCK_SECTOR_SIZE)
          (copy (dev.sectors (start + o / BLOCK_SECTOR_SIZE)) (o % BLOCK_SECTOR_SIZE) buffer k cl) := by
  have hsec' : (fileChunk start o cl).sectorIdx < dev.size := hsec
  rw [writeChunk]
  by_cases hd : o % BLOCK_SECTOR_SIZE = 0 ∧ cl = BLOCK_SECTOR_SIZE
  · -- a whole sector goes straight to the device
    obtain ⟨h0, rfl⟩ := hd
    have hc : (fileChunk start o BLOCK_SECTOR_SIZE).sectorOfs = 0 ∧
        (fileChunk start o BLOCK_SECTOR_SIZE).size = BLOCK_SECTOR_SIZE := by
      simp only [fileChunk, h0]
      trivial
    rw [if_pos hc]
    simp only [blockWrite, hsec', if_true, Option.bind_eq_bind, Option.bind_some, Option.pure_def]
    refine Or.inr ⟨_, bounce, rfl, rfl, ?_⟩
    simp only [fileChunk, h0, Int.toNat_natCast]
  · rw [if_neg (by simp only [fileChunk]; omega)]
    cases hb : bounce.or bounceBlock with
    | none => exact Or.inl rfl
    | some b =>
      -- the sector is read first, since the chunk does not cover it
      have hread : (fileChunk start o cl).sectorOfs > 0 ∨
          (fileChunk start o cl).size < (fileChunk start o cl).sectorLeft := by
        simp only [fileChunk]
        omega
      have hin : ¬((fileChunk start o cl).sectorOfs < 0 ∨
          BLOCK_SECTOR_SIZE < (fileChunk start o cl).sectorOfs + (fileChunk start o cl).size) := by
        simp only [fileChunk]
        omega
      simp only [blockRead, blockWrite, hsec', hread, hin, if_true, if_false, Option.bind_eq_bind,
        Option.bind_some, Option.pure_def]
      refine Or.inr ⟨_, _, rfl, rfl, ?_⟩
      simp only [fileChunk, Int.toNat_natCast]
      rw [copy_read_modify_write _ _ _ hofs]

theorem readChunk_ne_break (b : Nat → UInt8) (c : Chunk) (d : Int)
    (st : (Nat → UInt8) × Option (Nat → UInt8)) : readChunk dev (some b) c d st ≠ some none := by
  obtain ⟨buf, bounce⟩ := st
  have hb : bounce.or (some b) = some (bounce.getD b) := by cases bounce <;> rfl
  rw [readChunk]
  by_cases hd : c.sectorOfs = 0 ∧ c.size = BLOCK_SECTOR_SIZE
  · rw [if_pos hd]
    cases blockRead dev c.sectorIdx buf d.toNat <;> simp
  · rw [if_neg hd]
    dsimp only
    rw [hb]
    cases hr : blockRead dev c.sectorIdx (bounce.getD b) 0 with
    | none => simp [hr]
    | some bounce' =>
      simp only [hr, Option.bind_eq_bind, Option.bind_some]
      split_ifs <;> simp

theorem writeChunk_ne_break (buffer b : Nat → UInt8) (c : Chunk) (d : Int)
    (st : Device × Option (Nat → UInt8)) : writeChunk buffer (some b) c d st ≠ some none := by
  obtain ⟨dv, bounce⟩ := st
  have hb : bounce.or (some b) = some (bounce.getD b) := by cases bounce <;> rfl
  rw [writeChunk]
  by_cases hd : c.sectorOfs = 0 ∧ c.size = BLOCK_SECTOR_SIZE
  · rw [if_pos hd]
    cases blockWrite dv c.sectorIdx buffer d.toNat <;> simp
  · rw [if_neg hd]
    dsimp only
    rw [hb]
    simp only [Option.bind_eq_bind, ne_eq]
    intro h
    split_ifs at h <;> simp [Option.bind_eq_some_iff] at h

/-- Without a bounce buffer, a round of `inode_read_at` breaks off exactly at a chunk that is not
a whole aligned sector, and after a whole one there is still none. -/
theorem readChunk_none (c : Chunk) (d : Int) (buf : Nat → UInt8) :
    (readChunk dev none c d (buf, none) = some none ↔
      ¬(c.sectorOfs = 0 ∧ c.size = BLOCK_SECTOR_SIZE)) ∧
    ∀ st', readChunk dev none c d (buf, none) = some (some st') → st'.2 = none := by
  by_cases hw : c.sectorOfs = 0 ∧ c.size = BLOCK_SECTOR_SIZE
  · rw [readChunk, if_pos hw]
    cases blockRead dev c.sectorIdx buf d.toNat <;> simp [hw]
  · rw [readChunk, if_neg hw]
    simp [hw]

theorem writeChunk_none (buffer : Nat → UInt8) (c : Chunk) (d : Int) (dv : Device) :
    (writeChunk buffer none c d (dv, none) = some none ↔
      ¬(c.sectorOfs = 0 ∧ c.size = BLOCK_SECTOR_SIZE)) ∧
    ∀ st', writeChunk buffer none c d (dv, none) = some (some st') → st'.2 = none := by
  by_cases hw : c.sectorOfs = 0 ∧ c.size = BLOCK_SECTOR_SIZE
  · rw [writeChunk, if_pos hw]
    cases blockWrite dv c.sectorIdx buffer d.toNat <;> simp [hw]
  · rw [writeChunk, if_neg hw]
    simp [hw]

end Round

/-! ## The loop rule -/

section Loop
variable {σ : Type} (inode : Inode) (xfer : Chunk → Int → σ → Option (Option σ))
  (size₀ offset₀ : Nat) (P : Nat → σ → Prop)

/-- A property of the state that each round keeps, from the chunk at `offset₀ + k` on, holds when
the loop ends; it ends after a prefix of the `transferCount` bytes, all of them unless a round
broke off. -/
theorem transferLoop_spec
    (hstep : ∀ k st, k < transferCount inode.data.length size₀ offset₀ → P k st →
      xfer (chunkAt inode ↑(size₀ - k) ↑(offset₀ + k)) k st = some none ∨
        ∃ st', xfer (chunkAt inode ↑(size₀ - k) ↑(offset₀ + k)) k st = some (some st') ∧
          P (k + chunkLen inode.data.length (size₀ - k) (offset₀ + k)) st') :
    ∀ fuel k st, size₀ - k < fuel → k ≤ transferCount inode.data.length size₀ offset₀ → P k st →
      ∃ (k' : Nat) (st' : σ), transferLoop inode xfer fuel ↑(size₀ - k) ↑(offset₀ + k) k st = some ((k' : Int), st') ∧
        P k' st' ∧ k' ≤ transferCount inode.data.length size₀ offset₀ ∧
        (k' = transferCount inode.data.length size₀ offset₀ ∨
          xfer (chunkAt inode ↑(size₀ - k') ↑(offset₀ + k')) k' st' = some none) := by
  intro fuel
  induction fuel with
  | zero => intro k st hfuel; omega
  | succ fuel ih =>
    intro k st hfuel hk hP
    by_cases hlt : k < transferCount inode.data.length size₀ offset₀
    · -- a chunk of at least one byte is left, inside the file
      have hin : offset₀ + k < inode.data.length := by simp only [transferCount] at hlt; omega
      have hsz : 0 < size₀ - k := by simp only [transferCount] at hlt; omega
      have hc := chunkAt_size_of_lt inode (size₀ - k) (offset₀ + k) hin
      obtain ⟨hpos, hle, hend, -⟩ := chunkLen_bounds hsz hin
      rw [transferLoop, if_pos (by omega)]
      dsimp only
      rw [if_neg (by rw [hc]; omega)]
      rcases hstep k st hlt hP with hbrk | ⟨st', hnext, hP'⟩
      · rw [hbrk]
        exact ⟨k, st, rfl, hP, hk, Or.inr hbrk⟩
      · rw [hnext]
        dsimp only
        rw [hc]
        have e₁ : ((size₀ - k : Nat) : Int) - (chunkLen inode.data.length (size₀ - k) (offset₀ + k) : Nat) =
            ((size₀ - (k + chunkLen inode.data.length (size₀ - k) (offset₀ + k)) : Nat) : Int) := by
          omega
        have e₂ : ((offset₀ + k : Nat) : Int) + (chunkLen inode.data.length (size₀ - k) (offset₀ + k) : Nat) =
            ((offset₀ + (k + chunkLen inode.data.length (size₀ - k) (offset₀ + k)) : Nat) : Int) := by
          omega
        have e₃ : (k : Int) + (chunkLen inode.data.length (size₀ - k) (offset₀ + k) : Nat) =
            ((k + chunkLen inode.data.length (size₀ - k) (offset₀ + k) : Nat) : Int) := by
          omega
        rw [e₁, e₂, e₃]
        exact ih _ st' (by omega) (by simp only [transferCount] at hk ⊢; omega) hP'
    · have hkn : k = transferCount inode.data.length size₀ offset₀ := by omega
      refine ⟨k, st, ?_, hP, hk, Or.inl hkn⟩
      rw [transferLoop]
      by_cases hsz : size₀ - k = 0
      · rw [if_neg (by omega)]
      · rw [if_pos (by omega)]
        dsimp only
        have hout : inode.data.length ≤ offset₀ + k := by simp only [transferCount] at hlt; omega
        rw [if_pos (chunkAt_size_nonpos inode _ _ hout)]

/-- A count of whole sectors from `offset` that is all of `T` or leaves less than a sector of it is
the whole sectors at the front of `T`. -/
theorem eq_wholeSectors {offset T k : Nat} (hk : k ≤ T)
    (hal : k = 0 ∨ offset % BLOCK_SECTOR_SIZE = 0 ∧ k % BLOCK_SECTOR_SIZE = 0)
    (hstop : k = T ∨ (offset % BLOCK_SECTOR_SIZE = 0 → T - k < BLOCK_SECTOR_SIZE)) :
    k = wholeSectors offset T := by
  rw [wholeSectors]
  by_cases ho : offset % BLOCK_SECTOR_SIZE = 0
  · rw [if_pos ho]
    simp only [BLOCK_SECTOR_SIZE] at ho hal hstop ⊢
    omega
  · rw [if_neg ho]
    simp only [BLOCK_SECTOR_SIZE] at ho hal
    omega

/-- When a round breaks off exactly at the chunks that are not whole aligned sectors, as it does
without a bounce buffer, the loop moves the whole sectors at the front of the range. -/
theorem transferLoop_whole (hold : σ → Prop)
    (hstep : ∀ k st, k < transferCount inode.data.length size₀ offset₀ → P k st →
      xfer (chunkAt inode ↑(size₀ - k) ↑(offset₀ + k)) k st = some none ∨
        ∃ st', xfer (chunkAt inode ↑(size₀ - k) ↑(offset₀ + k)) k st = some (some st') ∧
          P (k + chunkLen inode.data.length (size₀ - k) (offset₀ + k)) st')
    (hbreak : ∀ k st, hold st →
      (xfer (chunkAt inode ↑(size₀ - k) ↑(offset₀ + k)) k st = some none ↔
        ¬((chunkAt inode ↑(size₀ - k) ↑(offset₀ + k)).sectorOfs = 0 ∧
          (chunkAt inode ↑(size₀ - k) ↑(offset₀ + k)).size = BLOCK_SECTOR_SIZE)))
    (hkeep : ∀ k st st', hold st →
      xfer (chunkAt inode ↑(size₀ - k) ↑(offset₀ + k)) k st = some (some st') → hold st')
    (st : σ) (hP : P 0 st) (hst : hold st) :
    ∃ st', transferLoop inode xfer (size₀ + 1) size₀ offset₀ 0 st =
        some ((wholeSectors offset₀ (transferCount inode.data.length size₀ offset₀) : Int), st') ∧
      P (wholeSectors offset₀ (transferCount inode.data.length size₀ offset₀)) st' := by
  obtain ⟨k', st', hloop, ⟨hP', hh', hal'⟩, hle, hend⟩ := transferLoop_spec inode xfer size₀ offset₀
    (fun k st => P k st ∧ hold st ∧
      (k = 0 ∨ offset₀ % BLOCK_SECTOR_SIZE = 0 ∧ k % BLOCK_SECTOR_SIZE = 0))
    (fun k st hk ⟨hP, hh, hal⟩ => by
      rcases hstep k st hk hP with hbrk | ⟨st', hnext, hP'⟩
      · exact .inl hbrk
      · have hwhole := not_not.mp (mt (hbreak k st hh).mpr (by rw [hnext]; simp))
        have hin : offset₀ + k < inode.data.length := by simp only [transferCount] at hk; omega
        rw [chunkAt_sectorOfs, chunkAt_size_of_lt inode _ _ hin] at hwhole
        refine .inr ⟨st', hnext, hP', hkeep k st st' hh hnext, .inr ?_⟩
        simp only [BLOCK_SECTOR_SIZE] at hal hwhole ⊢
        omega)
    (size₀ + 1) 0 st (by omega) (Nat.zero_le _) ⟨hP, hst, .inl rfl⟩
  have hstop : k' = transferCount inode.data.length size₀ offset₀ ∨
      (offset₀ % BLOCK_SECTOR_SIZE = 0 → transferCount inode.data.length size₀ offset₀ - k' <
        BLOCK_SECTOR_SIZE) := by
    by_cases hlt : k' < transferCount inode.data.length size₀ offset₀
    · -- the loop broke off at a chunk that is not a whole sector
      have hpart := (hbreak k' st' hh').mp (hend.resolve_left (by omega))
      have hin : offset₀ + k' < inode.data.length := by simp only [transferCount] at hlt; omega
      rw [chunkAt_sectorOfs, chunkAt_size_of_lt inode _ _ hin] at hpart
      simp only [chunkLen, transferCount, BLOCK_SECTOR_SIZE] at hpart hlt hal' ⊢
      omega
    · exact .inl (by omega)
  have hk' := eq_wholeSectors hle hal' hstop
  simp only [Nat.sub_zero, Nat.add_zero, Nat.cast_zero] at hloop
  exact ⟨st', by rw [hloop, hk'], hk' ▸ hP'⟩

end Loop

/-! ## `inode_read_at` and `inode_write_at` -/

section Io
variable (dev : Device) (inode : Inode) (buffer : Nat → UInt8) (size offset : Nat)
  (bounceBlock : Option (Nat → UInt8))

theorem fileSector_lt {o : Nat} (hdev : inode.data.start + bytesToSectors inode.data.length ≤ dev.size)
    (hin : o < inode.data.length) : inode.data.start + o / BLOCK_SECTOR_SIZE < dev.size := by
  have : o / BLOCK_SECTOR_SIZE < bytesToSectors inode.data.length := by
    simp only [bytesToSectors, BLOCK_SECTOR_SIZE]
    omega
  omega

theorem readChunk_keeps (hdev : inode.data.start + bytesToSectors inode.data.length ≤ dev.size)
    (k : Nat) (st : (Nat → UInt8) × Option (Nat → UInt8))
    (hk : k < transferCount inode.data.length size offset)
    (hP : st.1 = copy buffer 0 (fileBytes dev.sectors inode.data.start) offset k) :
    readChunk dev bounceBlock (chunkAt inode ↑(size - k) ↑(offset + k)) k st = some none ∨
      ∃ st', readChunk dev bounceBlock (chunkAt inode ↑(size - k) ↑(offset + k)) k st =
          some (some st') ∧
        st'.1 = copy buffer 0 (fileBytes dev.sectors inode.data.start) offset
          (k + chunkLen inode.data.length (size - k) (offset + k)) := by
  have hin : offset + k < inode.data.length := by simp only [transferCount] at hk; omega
  have hsz : 0 < size - k := by simp only [transferCount] at hk; omega
  obtain ⟨-, -, -, hofs⟩ := chunkLen_bounds hsz hin
  rw [chunkAt_of_lt inode _ _ hin (le_trans hdev (le_of_lt dev.size_lt))]
  obtain ⟨buf, bounce⟩ := st
  rcases readChunk_step dev bounceBlock buf bounce hofs (fileSector_lt dev inode hdev hin) with
    h | ⟨bounce', h⟩
  · exact Or.inl h
  · refine Or.inr ⟨_, h, ?_⟩
    dsimp only at hP ⊢
    rw [hP]
    simpa only [Nat.zero_add] using
      copy_append buffer (fileBytes dev.sectors inode.data.start) 0 offset k _

theorem inodeReadAt_spec (hdev : inode.data.start + bytesToSectors inode.data.length ≤ dev.size) :
    ∃ n : Nat, inodeReadAt dev inode buffer size offset bounceBlock =
        some ((n : Int), copy buffer 0 (fileBytes dev.sectors inode.data.start) offset n) ∧
      n ≤ transferCount inode.data.length size offset ∧
      (bounceBlock.isSome → n = transferCount inode.data.length size offset) := by
  obtain ⟨n, ⟨buf, bounce⟩, hloop, hP, hn, hend⟩ :=
    transferLoop_spec inode (readChunk dev bounceBlock) size offset
      (fun k st => st.1 = copy buffer 0 (fileBytes dev.sectors inode.data.start) offset k)
      (readChunk_keeps dev inode buffer size offset bounceBlock hdev) (size + 1) 0 (buffer, none)
      (by omega) (Nat.zero_le _) (by simp)
  refine ⟨n, ?_, hn, ?_⟩
  · simp only [Nat.sub_zero, Nat.add_zero, Int.natCast_zero] at hloop
    simp only [inodeReadAt, Int.toNat_natCast, hloop, Option.bind_eq_bind, Option.bind_some]
    rw [← hP]
    rfl
  · intro hb
    obtain ⟨b, rfl⟩ := Option.isSome_iff_exists.mp hb
    exact hend.resolve_right (readChunk_ne_break dev b _ _ _)
/-- Each round of `inode_write_at` inside the file keeps the device the one with the bytes
written so far. -/
theorem writeChunk_keeps (hdev : inode.data.start + bytesToSectors inode.data.length ≤ dev.size)
    (k : Nat) (st : Device × Option (Nat → UInt8))
    (hk : k < transferCount inode.data.length size offset)
    (hP : st.1.size = dev.size ∧
      st.1.sectors = writeFile dev.sectors inode.data.start offset k buffer) :
    writeChunk buffer bounceBlock (chunkAt inode ↑(size - k) ↑(offset + k)) k st = some none ∨
      ∃ st', writeChunk buffer bounceBlock (chunkAt inode ↑(size - k) ↑(offset + k)) k st =
          some (some st') ∧ st'.1.size = dev.size ∧
        st'.1.sectors = writeFile dev.sectors inode.data.start offset
          (k + chunkLen inode.data.length (size - k) (offset + k)) buffer := by
  have hin : offset + k < inode.data.length := by simp only [transferCount] at hk; omega
  have hsz : 0 < size - k := by simp only [transferCount] at hk; omega
  obtain ⟨-, -, -, hofs⟩ := chunkLen_bounds hsz hin
  rw [chunkAt_of_lt inode _ _ hin (le_trans hdev (le_of_lt dev.size_lt))]
  obtain ⟨dv, bounce⟩ := st
  obtain ⟨hsize, hsectors⟩ := hP
  have hsec : inode.data.start + (offset + k) / BLOCK_SECTOR_SIZE < dv.size := by
    rw [hsize]
    exact fileSector_lt dev inode hdev hin
  rcases writeChunk_step dv bounceBlock buffer bounce hofs hsec with
    h | ⟨dv', bounce', h, hsize', hsectors'⟩
  · exact Or.inl h
  · refine Or.inr ⟨(dv', bounce'), h, hsize'.trans hsize, ?_⟩
    dsimp only at hsectors ⊢
    rw [hsectors', hsectors, writeFile_step _ _ hofs]

theorem inodeWriteAt_spec (hdev : inode.data.start + bytesToSectors inode.data.length ≤ dev.size)
    (hdeny : inode.denyWriteCnt = 0) :
    ∃ (dev' : Device) (n : Nat),
      inodeWriteAt dev inode buffer size offset bounceBlock = some (dev', (n : Int)) ∧
      dev'.size = dev.size ∧ dev'.sectors = writeFile dev.sectors inode.data.start offset n buffer ∧
      n ≤ transferCount inode.data.length size offset ∧
      (bounceBlock.isSome → n = transferCount inode.data.length size offset) := by
  obtain ⟨n, ⟨dv, bounce⟩, hloop, ⟨hsize, hsectors⟩, hn, hend⟩ :=
    transferLoop_spec inode (writeChunk buffer bounceBlock) size offset
      (fun k st => st.1.size = dev.size ∧
        st.1.sectors = writeFile dev.sectors inode.data.start offset k buffer)
      (writeChunk_keeps dev inode buffer size offset bounceBlock hdev) (size + 1) 0 (dev, none)
      (by omega) (Nat.zero_le _) ⟨rfl, by simp⟩
  refine ⟨dv, n, ?_, hsize, hsectors, hn, ?_⟩
  · simp only [Nat.sub_zero, Nat.add_zero, Int.natCast_zero] at hloop
    simp [inodeWriteAt, hdeny, hloop]
  · intro hb
    obtain ⟨b, rfl⟩ := Option.isSome_iff_exists.mp hb
    exact hend.resolve_right (writeChunk_ne_break buffer b _ _ _)

theorem inodeWriteAt_denied (h : inode.denyWriteCnt ≠ 0) :
    inodeWriteAt dev inode buffer size offset bounceBlock = some (dev, 0) := by
  simp [inodeWriteAt, h]

theorem inodeReadAt_moved (hdev : inode.data.start + bytesToSectors inode.data.length ≤ dev.size) :
    inodeReadAt dev inode buffer size offset bounceBlock =
      some ((movedCount inode.data.length size offset bounceBlock : Int),
        copy buffer 0 (fileBytes dev.sectors inode.data.start) offset
          (movedCount inode.data.length size offset bounceBlock)) := by
  cases bounceBlock with
  | none =>
    obtain ⟨⟨buf, bounce⟩, hloop, hP⟩ := transferLoop_whole inode (readChunk dev none) size offset
      (fun k st => st.1 = copy buffer 0 (fileBytes dev.sectors inode.data.start) offset k)
      (fun st => st.2 = none) (readChunk_keeps dev inode buffer size offset none hdev)
      (fun _ ⟨b, _⟩ hh => by subst hh; exact (readChunk_none dev _ _ b).1)
      (fun _ ⟨b, _⟩ st' hh h => by subst hh; exact (readChunk_none dev _ _ b).2 st' h)
      (buffer, none) (by simp) rfl
    simp only [inodeReadAt, Int.toNat_natCast, hloop, Option.bind_eq_bind, Option.bind_some]
    rw [show movedCount inode.data.length size offset none =
      wholeSectors offset (transferCount inode.data.length size offset) from rfl, ← hP]
    rfl
  | some b =>
    obtain ⟨n, hread, -, hall⟩ := inodeReadAt_spec dev inode buffer size offset (some b) hdev
    rw [hread, hall rfl]
    rfl

theorem inodeWriteAt_moved (hdev : inode.data.start + bytesToSectors inode.data.length ≤ dev.size)
    (hdeny : inode.denyWriteCnt = 0) :
    ∃ dev' : Device, inodeWriteAt dev inode buffer size offset bounceBlock =
        some (dev', (movedCount inode.data.length size offset bounceBlock : Int)) ∧
      dev'.sectors = writeFile dev.sectors inode.data.start offset
        (movedCount inode.data.length size offset bounceBlock) buffer := by
  cases bounceBlock with
  | none =>
    obtain ⟨⟨dv, bounce⟩, hloop, -, hsectors⟩ := transferLoop_whole inode (writeChunk buffer none)
      size offset (fun k st => st.1.size = dev.size ∧
        st.1.sectors = writeFile dev.sectors inode.data.start offset k buffer)
      (fun st => st.2 = none) (writeChunk_keeps dev inode buffer size offset none hdev)
      (fun _ ⟨d, _⟩ hh => by subst hh; exact (writeChunk_none buffer _ _ d).1)
      (fun _ ⟨d, _⟩ st' hh h => by subst hh; exact (writeChunk_none buffer _ _ d).2 st' h)
      (dev, none) ⟨rfl, by simp⟩ rfl
    exact ⟨dv, by simp [inodeWriteAt, hdeny, hloop, movedCount], hsectors⟩
  | some b =>
    obtain ⟨dev', n, hwrite, -, hsectors, -, hall⟩ :=
      inodeWriteAt_spec dev inode buffer size offset (some b) hdev hdeny
    obtain rfl := hall rfl
    exact ⟨dev', hwrite, hsectors⟩

end Io

/-! ## Reads and writes are accesses of the file's bytes

With its bounce buffer allocated, a read or write at `offset` moves exactly the
`transferCount` bytes there; with none it stops at the first chunk that is not a whole aligned
sector. -/

theorem inode_io_refines_bytes (dev : Device) (inode : Inode) (buffer : Nat → UInt8)
    (bounceBlock : Option (Nat → UInt8)) (size offset : Nat)
    (hdev : inode.data.start + bytesToSectors inode.data.length ≤ dev.size) :
    inodeReadAt dev inode buffer size offset bounceBlock =
        some ((movedCount inode.data.length size offset bounceBlock : Int),
          copy buffer 0 (fileBytes dev.sectors inode.data.start) offset
            (movedCount inode.data.length size offset bounceBlock)) ∧
      (inode.denyWriteCnt = 0 → ∃ dev' : Device,
        inodeWriteAt dev inode buffer size offset bounceBlock =
          some (dev', (movedCount inode.data.length size offset bounceBlock : Int)) ∧
        fileBytes dev'.sectors inode.data.start =
          copy (fileBytes dev.sectors inode.data.start) offset buffer 0
            (movedCount inode.data.length size offset bounceBlock) ∧
        ∀ s k, (∀ i, offset ≤ i → i < offset + movedCount inode.data.length size offset bounceBlock →
          ¬ HoldsByte inode.data.start s k i) → dev'.sectors s k = dev.sectors s k) ∧
      (inode.denyWriteCnt ≠ 0 →
        inodeWriteAt dev inode buffer size offset bounceBlock = some (dev, 0)) := by
  refine ⟨inodeReadAt_moved dev inode buffer size offset bounceBlock hdev, fun hdeny => ?_,
    inodeWriteAt_denied dev inode buffer size offset _⟩
  obtain ⟨dev', hwrite, hsectors⟩ := inodeWriteAt_moved dev inode buffer size offset bounceBlock hdev hdeny
  refine ⟨dev', hwrite, ?_, fun s k hk => ?_⟩
  · rw [hsectors, fileBytes_writeFile]
  · rw [hsectors, writeFile_of_not_holds _ _ hk]

/-- A read of the 600 bytes of a two-sector file without a bounce buffer moves the first sector. -/
theorem inode_io_refines_bytes_no_bounce :
    0 + bytesToSectors 600 ≤ 2 ∧ movedCount 600 600 0 none = 512 ∧
      inodeReadAt ⟨2, fun _ _ => 7, by decide⟩ ⟨0, 600, false, 0, ⟨0, 600, INODE_MAGIC⟩⟩
          (fun _ => 0) 600 0 none =
        some ((movedCount 600 600 0 none : Int),
          copy (fun _ => 0) 0 (fileBytes (fun _ _ => 7) 0) 0 (movedCount 600 600 0 none)) :=
  ⟨by decide, by decide, (inode_io_refines_bytes ⟨2, fun _ _ => 7, by decide⟩
    ⟨0, 600, false, 0, ⟨0, 600, INODE_MAGIC⟩⟩ (fun _ => 0) none 600 0 (by decide)).1⟩

/-- With no memory for its bounce buffer, a read of the one byte of a one-byte file returns `0`. -/
theorem inodeReadAt_without_bounce :
    (inodeReadAt ⟨1, fun _ _ => 7, by decide⟩ ⟨0, 1, false, 0, ⟨0, 1, INODE_MAGIC⟩⟩ (fun _ => 0) 1 0
        none).map Prod.fst = some 0 ∧ transferCount 1 1 0 = 1 := by
  decide

end Pintos.Filesys
