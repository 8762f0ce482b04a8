import Pintos.Filesys.InodeIo

/-! # `devices/partition.c`: scanning the partition tables of a disk

`read_partition_table` reads a table, registers each primary or logical partition through
`found_partition` and calls itself on each extended entry. What the scan prints and registers is
its list of events. The table is read with `block_read (block, 0, pt)`: whatever sector it was
asked for, every call reads the table in sector 0. Recursion is counted by `fuel`, and running
out of it is a scan that does not return. The `malloc` calls are taken to succeed, since their
failure is a `PANIC`.

* `partitionScan_stuck`: an MBR whose first extended entry points into the device, at an offset
  whose double lies in it too, sends the scan round the same call for ever.
* `partition_scan_primary`: an MBR without extended entries is scanned exactly.
-/

namespace Pintos.Devices
open Pintos.Filesys (Device blockRead BLOCK_SECTOR_SIZE)
set_option autoImplicit false

/-- The fields of a `struct partition_table_entry` that the scan reads. -/
structure PartitionEntry where
  type : UInt8
  offset : Nat
  size : Nat
deriving DecidableEq, Repr

/-- A little-endian `uint32_t` at `a`. -/
def le32 (buf : Nat → UInt8) (a : Nat) : Nat :=
  (buf a).toNat + (buf (a + 1)).toNat * 2 ^ 8 + (buf (a + 2)).toNat * 2 ^ 16 +
    (buf (a + 3)).toNat * 2 ^ 24

/-- `pt->partitions[i]` of a packed `struct partition_table`. -/
def entryAt (buf : Nat → UInt8) (i : Nat) : PartitionEntry :=
  ⟨buf (446 + 16 * i + 4), le32 buf (446 + 16 * i + 8), le32 buf (446 + 16 * i + 12)⟩

/-- `pt->signature`. -/
def signature (buf : Nat → UInt8) : Nat := (buf 510).toNat + (buf 511).toNat * 2 ^ 8

/-- A table sector holding the entries `es`, in that order, and the signature `0xaa55`. -/
def tableSector (es : List PartitionEntry) (k : Nat) : UInt8 :=
  if k = 510 then 0x55 else if k = 511 then 0xaa
  else if 446 ≤ k ∧ k < 510 then
    match es[(k - 446) / 16]? with
    | none => 0
    | some e =>
      let f := (k - 446) % 16
      if f = 4 then e.type
      else if 8 ≤ f ∧ f < 12 then UInt8.ofNat (e.offset / 2 ^ (8 * (f - 8)))
      else if 12 ≤ f then UInt8.ofNat (e.size / 2 ^ (8 * (f - 12)))
      else 0
  else 0

def isExtended (type : UInt8) : Bool :=
  type == 0x05 || type == 0x0f || type == 0x85 || type == 0xc5

/-- What the scan prints or registers. -/
inductive ScanEvent
  | tablePastEnd (sector : Nat)
  | badSignature
  | badExtended (sector : Nat)
  | extended (sector : Nat)
  | startPastEnd (partNr start : Nat)
  | endPastEnd (partNr last : Nat)
  | registered (partNr : Nat) (type : UInt8) (start size : Nat)
  | noPartitions
deriving DecidableEq, Repr

/-- `found_partition`, with `start + size` in `block_sector_t`. -/
def foundPartition (devSize : Nat) (type : UInt8) (start size partNr : Nat) : ScanEvent :=
  if start ≥ devSize then .startPastEnd partNr start
  else if (start + size) % 2 ^ 32 < start ∨ (start + size) % 2 ^ 32 > devSize then
    .endPastEnd partNr ((start + size) % 2 ^ 32)
  else .registered partNr type start size

/-- Where an extended entry at `sector` sends the scan: the table sector and the primary
extended sector of the call. -/
def extendedTarget (sector primaryExtendedSector offset : Nat) : Nat × Nat :=
  if sector = 0 then (offset, offset) else ((offset + primaryExtendedSector) % 2 ^ 32,
    primaryExtendedSector)

theorem extendedTarget_zero (pes offset : Nat) : extendedTarget 0 pes offset = (offset, offset) :=
  if_pos rfl

theorem extendedTarget_of_pos {sector : Nat} (h : 0 < sector) (pes offset : Nat) :
    extendedTarget sector pes offset = ((offset + pes) % 2 ^ 32, pes) :=
  if_neg (Nat.pos_iff_ne_zero.mp h)

/-- One round of the loop over the four entries of the table `pt` read for `sector`; `recur` is
the call of `read_partition_table` on an extended entry. -/
def tableStep (devSize : Nat) (recur : Nat → Nat → Nat → Option (List ScanEvent × Nat))
    (sector primaryExtendedSector : Nat) (pt : Nat → UInt8) (acc : List ScanEvent × Nat) (i : Nat) :
    Option (List ScanEvent × Nat) :=
  let e := entryAt pt i
  if e.size = 0 ∨ e.type = 0 then some acc
  else if isExtended e.type then do
    let (sector', primary') := extendedTarget sector primaryExtendedSector e.offset
    let (evs, partNr') ← recur sector' primary' acc.2
    return (acc.1 ++ .extended sector :: evs, partNr')
  else
    return (acc.1 ++ [foundPartition devSize e.type ((e.offset + sector) % 2 ^ 32) e.size
      (acc.2 + 1)], acc.2 + 1)

/-- `read_partition_table (block, sector, primary_extended_sector, part_nr)` with `fuel` calls
left: the events and the new `*part_nr`. -/
def readPartitionTable (dev : Device) : Nat → Nat → Nat → Nat → Option (List ScanEvent × Nat)
  | 0, _, _, _ => none
  | fuel + 1, sector, primaryExtendedSector, partNr =>
    if sector ≥ dev.size then some ([.tablePastEnd sector], partNr)
    else do
      let pt ← blockRead dev 0 (fun _ => 0) 0
      if signature pt ≠ 0xaa55 then
        return ([if primaryExtendedSector = 0 then .badSignature else .badExtended sector], partNr)
      (List.range 4).foldlM
        (tableStep dev.size (readPartitionTable dev fuel) sector primaryExtendedSector pt)
        ([], partNr)

def partitionScan (dev : Device) (fuel : Nat) : Option (List ScanEvent) := do
  let (evs, partNr) ← readPartitionTable dev fuel 0 0 0
  return if partNr = 0 then evs ++ [.noPartitions] else evs

/-! ## The table read -/

section Read
open Bytes

theorem copy_sector (b sec : Nat → UInt8) {k : Nat} (hk : k < BLOCK_SECTOR_SIZE) :
    copy b 0 sec 0 BLOCK_SECTOR_SIZE k = sec k := by
  rw [copy_of_mem _ _ (Nat.zero_le k) (by omega), Nat.zero_add, Nat.sub_zero]

theorem blockRead_table (dev : Device) (h : 0 < dev.size) :
    ∃ pt, blockRead dev 0 (fun _ => 0) 0 = some pt ∧ signature pt = signature (dev.sectors 0) ∧
      ∀ i < 4, entryAt pt i = entryAt (dev.sectors 0) i := by
  refine ⟨_, if_pos h, ?_, fun i hi => ?_⟩
  · simp (disch := simp only [BLOCK_SECTOR_SIZE]; omega) only [signature, copy_sector]
  · simp (disch := simp only [BLOCK_SECTOR_SIZE]; omega) only [entryAt, le32, copy_sector]

end Read

/-! ## Folds over the four entries -/

theorem foldlM_isSome {β γ : Type} (f : β → γ → Option β) :
    ∀ (l : List γ) (b : β), (∀ x ∈ l, ∀ b, (f b x).isSome) → ∃ b', l.foldlM f b = some b'
  | [], b, _ => ⟨b, rfl⟩
  | x :: l, b, h => by
    obtain ⟨b₁, hb₁⟩ := Option.isSome_iff_exists.mp (h x (List.mem_cons_self ..) b)
    obtain ⟨b', hb'⟩ := foldlM_isSome f l b₁ fun y hy => h y (List.mem_cons_of_mem x hy)
    exact ⟨b', by rw [List.foldlM_cons, hb₁]; exact hb'⟩

theorem foldlM_range_none {β : Type} (f : β → Nat → Option β) (b : β) {n j : Nat} (hj : j < n)
    (hpre : ∀ i < j, ∀ b, (f b i).isSome) (hfail : ∀ b, f b j = none) :
    (List.range n).foldlM f b = none := by
  have hsplit : List.range n = List.range j ++ j :: List.range' (j + 1) (n - j - 1) := by
    have h := @List.range'_append_1 0 j (n - j)
    rw [Nat.zero_add, show j + (n - j) = n by omega, show n - j = n - j - 1 + 1 by omega,
      List.range'_succ] at h
    rw [List.range_eq_range', List.range_eq_range', ← h]
  obtain ⟨b', hb'⟩ := foldlM_isSome f (List.range j) b fun i hi => hpre i (List.mem_range.mp hi)
  rw [hsplit, List.foldlM_append, hb', Option.bind_eq_bind, Option.bind_some, List.foldlM_cons,
    hfail]
  rfl

/-! ## A table without extended entries -/

/-- What the scan reports for the entries `es` of a table at `sector`, none of them extended:
the non-empty ones in turn, numbered on from `partNr`, each through `found_partition`. -/
def primaryEvents (devSize sector partNr : Nat) (es : List PartitionEntry) : List ScanEvent :=
  ((es.filter fun e => e.size ≠ 0 ∧ e.type ≠ 0).zipIdx (partNr + 1)).map fun ek =>
    foundPartition devSize ek.1.type ((ek.1.offset + sector) % 2 ^ 32) ek.1.size ek.2

theorem foldlM_tableStep_primary {devSize sector pes : Nat}
    (recur : Nat → Nat → Nat → Option (List ScanEvent × Nat)) {pt : Nat → UInt8} :
    ∀ (l : List Nat) (evs : List ScanEvent) (k : Nat),
      (∀ i ∈ l, isExtended (entryAt pt i).type = false) →
      l.foldlM (tableStep devSize recur sector pes pt) (evs, k) =
        some (evs ++ primaryEvents devSize sector k (l.map (entryAt pt)),
          k + ((l.map (entryAt pt)).filter fun e => e.size ≠ 0 ∧ e.type ≠ 0).length)
  | [], evs, k, _ => by simp [primaryEvents]
  | i :: l, evs, k, h => by
    have hl := fun x hx => h x (List.mem_cons_of_mem i hx)
    rw [List.foldlM_cons, tableStep]
    by_cases he : (entryAt pt i).size = 0 ∨ (entryAt pt i).type = 0
    · rw [if_pos he, Option.bind_eq_bind, Option.bind_some, foldlM_tableStep_primary recur l evs k hl]
      have hskip : ¬((entryAt pt i).size ≠ 0 ∧ (entryAt pt i).type ≠ 0) := by tauto
      simp [primaryEvents, hskip]
    · rw [if_neg he, if_neg (by simp [h i (List.mem_cons_self ..)])]
      simp only [Option.pure_def, Option.bind_eq_bind, Option.bind_some]
      rw [foldlM_tableStep_primary recur l _ (k + 1) hl]
      have hkeep : decide ((entryAt pt i).size ≠ 0 ∧ (entryAt pt i).type ≠ 0) = true :=
        decide_eq_true (by tauto)
      simp only [primaryEvents, List.map_cons, List.filter_cons, hkeep, if_true, List.zipIdx_cons,
        List.append_assoc, List.singleton_append, List.length_cons, Option.some.injEq,
        Prod.mk.injEq, true_and]
      omega

/-- On a disk whose MBR has no extended entry the scan reports exactly its non-empty entries,
numbered from 1, each registered unless it does not lie inside the device. -/
theorem partition_scan_primary {dev : Device} (h0 : 0 < dev.size)
    (hsig : signature (dev.sectors 0) = 0xaa55)
    (hnone : ∀ i < 4, isExtended (entryAt (dev.sectors 0) i).type = false) (fuel : Nat) :
    partitionScan dev (fuel + 1) =
      let es := (List.range 4).map (entryAt (dev.sectors 0))
      let evs := primaryEvents dev.size 0 0 es
      some (if (es.filter fun e => e.size ≠ 0 ∧ e.type ≠ 0).length = 0 then evs ++ [.noPartitions]
        else evs) := by
  obtain ⟨pt, hread, hpsig, hentry⟩ := blockRead_table dev h0
  have hmap : (List.range 4).map (entryAt pt) = (List.range 4).map (entryAt (dev.sectors 0)) :=
    List.map_congr_left fun i hi => hentry i (List.mem_range.mp hi)
  have hfold := @foldlM_tableStep_primary dev.size 0 0 (readPartitionTable dev fuel) pt
    (List.range 4) [] 0
    (fun i hi => by rw [hentry i (List.mem_range.mp hi)]; exact hnone i (List.mem_range.mp hi))
  rw [hmap, List.nil_append, Nat.zero_add] at hfold
  have hsig' : ¬signature pt ≠ 0xaa55 := by rw [hpsig, hsig]; exact not_not.mpr rfl
  rw [partitionScan, readPartitionTable, if_neg (Nat.not_le.mpr h0), hread]
  simp only [Option.bind_eq_bind, Option.bind_some, hsig', if_false, hfold, Option.pure_def]

/-- A disk of eight sectors whose MBR holds a partition at sector 1 and one at sector 4 that
runs past the end of the disk. -/
def primaryDisk : Device :=
  ⟨8, fun s => if s = 0 then tableSector [⟨0x20, 1, 2⟩, ⟨0, 0, 0⟩, ⟨0x21, 4, 10⟩] else fun _ => 0,
    by decide⟩

theorem partition_scan_primary_disk :
    0 < primaryDisk.size ∧ signature (primaryDisk.sectors 0) = 0xaa55 ∧
      (∀ i < 4, isExtended (entryAt (primaryDisk.sectors 0) i).type = false) ∧
      partitionScan primaryDisk (0 + 1) =
        let es := (List.range 4).map (entryAt (primaryDisk.sectors 0))
        let evs := primaryEvents primaryDisk.size 0 0 es
        some (if (es.filter fun e => e.size ≠ 0 ∧ e.type ≠ 0).length = 0 then
          evs ++ [.noPartitions] else evs) :=
  ⟨by decide, by decide, by decide, partition_scan_primary (by decide) (by decide) (by decide) 0⟩

/-! ## A scan that does not return -/

/-- Entry `j` of the table `sec` is its first extended entry, and points at `o`. -/
structure FirstExtended (sec : Nat → UInt8) (j o : Nat) : Prop where
  lt : j < 4
  sig : signature sec = 0xaa55
  before : ∀ i < j, (entryAt sec i).size = 0 ∨ (entryAt sec i).type = 0 ∨
    isExtended (entryAt sec i).type = false
  size_ne : (entryAt sec j).size ≠ 0
  type_ne : (entryAt sec j).type ≠ 0
  extended : isExtended (entryAt sec j).type = true
  offset : (entryAt sec j).offset = o

section Stuck
variable {dev : Device} {j o : Nat}

theorem tableStep_isSome_of_not_extended (recur : Nat → Nat → Nat → Option (List ScanEvent × Nat))
    {sector pes : Nat} {pt : Nat → UInt8} {i : Nat} (h : (entryAt pt i).size = 0 ∨
      (entryAt pt i).type = 0 ∨ isExtended (entryAt pt i).type = false) (acc : List ScanEvent × Nat) :
    (tableStep dev.size recur sector pes pt acc i).isSome := by
  rw [tableStep]
  by_cases he : (entryAt pt i).size = 0 ∨ (entryAt pt i).type = 0
  · rw [if_pos he]
    rfl
  · have hx : isExtended (entryAt pt i).type = false := by
      rcases h with h | h | h
      · exact absurd (.inl h) he
      · exact absurd (.inr h) he
      · exact h
    rw [if_neg he, if_neg (by simp [hx])]
    rfl

/-- A table read for `sector`, inside the device, whose call on the first extended entry of
sector 0 does not return, does not return. -/
theorem readPartitionTable_stuck (h : FirstExtended (dev.sectors 0) j o) {fuel sector pes : Nat}
    (hs : sector < dev.size)
    (hrec : ∀ n, readPartitionTable dev fuel (extendedTarget sector pes o).1
      (extendedTarget sector pes o).2 n = none) (partNr : Nat) :
    readPartitionTable dev (fuel + 1) sector pes partNr = none := by
  obtain ⟨pt, hread, hsig, hentry⟩ := blockRead_table dev (by omega)
  rw [readPartitionTable, if_neg (by omega)]
  simp only [hread, Option.bind_eq_bind, Option.bind_some, hsig, h.sig, ne_eq, not_true_eq_false,
    if_false]
  apply foldlM_range_none _ _ h.lt
  · intro i hi acc
    apply tableStep_isSome_of_not_extended
    rw [hentry i (by have := h.lt; omega)]
    exact h.before i hi
  · intro acc
    have hj := hentry j h.lt
    rw [tableStep, hj, if_neg (by simp [h.size_ne, h.type_ne]), if_pos h.extended, h.offset]
    simp [hrec]

/-- An MBR whose first extended entry points inside the device, at an offset whose double does
too, sends the scan round the same call for ever: from sector `o` on, every call is at
`(o + o) mod 2 ^ 32` again. -/
theorem partitionScan_stuck (h : FirstExtended (dev.sectors 0) j o) (ho : 0 < o)
    (hin : o < dev.size) (h₂ : 0 < (o + o) % 2 ^ 32) (hin₂ : (o + o) % 2 ^ 32 < dev.size)
    (fuel : Nat) : partitionScan dev fuel = none := by
  have hloop : ∀ fuel n, readPartitionTable dev fuel ((o + o) % 2 ^ 32) o n = none := by
    intro fuel
    induction fuel with
    | zero => intro n; rfl
    | succ fuel ih =>
      intro n
      apply readPartitionTable_stuck h hin₂
      rw [extendedTarget_of_pos h₂]
      exact ih
  have hfirst : ∀ fuel n, readPartitionTable dev fuel o o n = none := by
    intro fuel n
    cases fuel with
    | zero => rfl
    | succ fuel =>
      apply readPartitionTable_stuck h hin
      rw [extendedTarget_of_pos ho]
      exact hloop fuel
  have hmbr : readPartitionTable dev fuel 0 0 0 = none := by
    cases fuel with
    | zero => rfl
    | succ fuel =>
      apply readPartitionTable_stuck h (by omega)
      rw [extendedTarget_zero]
      exact hfirst fuel
  simp [partitionScan, hmbr]

end Stuck

/-- A disk of four sectors whose MBR holds one extended partition, at sector 1. -/
def loopDisk : Device := ⟨4, fun s => if s = 0 then tableSector [⟨5, 1, 1⟩] else fun _ => 0,
  by decide⟩

theorem partition_scan_never_returns (fuel : Nat) : partitionScan loopDisk fuel = none :=
  partitionScan_stuck (j := 0) (o := 1) ⟨by decide, by decide, by decide, by decide, by decide, by decide,
    by decide⟩ (by decide) (by decide) (by decide) (by decide) fuel

/-- A disk of eight sectors: a primary partition at sector 1, and an extended partition at
sector 4 whose table holds a logical partition at sector 5. -/
def twoLevelDisk : Device :=
  ⟨8, fun s => if s = 0 then tableSector [⟨0x20, 1, 1⟩, ⟨5, 4, 4⟩]
    else if s = 4 then tableSector [⟨0x21, 1, 2⟩] else fun _ => 0, by decide⟩

theorem partition_scan_rereads_mbr :
    partitionScan twoLevelDisk 10 = some [.registered 1 0x20 1 1, .extended 0,
      .registered 2 0x20 5 1, .extended 4, .tablePastEnd 8] := by
  decide

end Pintos.Devices
