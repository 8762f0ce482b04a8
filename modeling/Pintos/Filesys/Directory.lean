import Pintos.Filesys.Inode
import Pintos.Lib.Slots
import Mathlib.Logic.Relation

/-! # `filesys/directory.c`

A directory is a file of `struct dir_entry` records, modelled as its list of entries; a read or
write at an offset is the entry at that index. Every loop of `directory.c` reads whole entries at
offsets `0, sizeof e, 2 * sizeof e, …` with `inode_read_at` until a read comes back short. An
entry is never a whole sector, so each read or write of one inside the file takes a bounce buffer
from `malloc` and comes back short when `malloc` returns `NULL`. A call takes the outcomes of its
`malloc`s as a list, front first, `false` for `NULL`, every later one succeeding. A name is the C
string it holds, the bytes before its null.

* `dir_add_duplicates`: a short read in `lookup` lets `dir_add` write a second entry for a name
  the directory holds.
* `dir_refines_map`: over the runs in which every `malloc` succeeds, the directory is a finite map
  from names to sectors that the calls read and write.
-/

namespace Pintos.Filesys
set_option autoImplicit false

def NAME_MAX : Nat := 14

/-- `sizeof (struct dir_entry)`: a sector number, `NAME_MAX + 1` bytes of name and a flag. -/
def DIR_ENTRY_SIZE : Nat := 20

structure DirEntry where
  inodeSector : Nat
  name : List UInt8
  inUse : Bool
deriving DecidableEq, Repr

structure Dir where
  inode : Nat
  pos : Nat
deriving DecidableEq, Repr

/-- The next `malloc` of a call whose outcomes are `ms`. -/
def mallocNext : List Bool → Bool × List Bool
  | [] => (true, [])
  | b :: ms => (b, ms)

/-- The zeroed entries of `dir_create (sector, entry_cnt)`: `inode_create` writes zeros. -/
def dirCreate (entryCnt : Nat) : List DirEntry := List.replicate entryCnt ⟨0, [], false⟩

/-- The entries from byte `ofs` on. -/
def slotsFrom (es : List DirEntry) (ofs : Nat) : List DirEntry := es.drop (ofs / DIR_ENTRY_SIZE)

/-- `inode_write_at (dir->inode, &e, sizeof e, ofs) == sizeof e`: a write past the end of the
file writes nothing, since files do not grow. -/
def writeEntry (es : List DirEntry) (ofs : Nat) (e : DirEntry) (ms : List Bool) :
    Option (List DirEntry) × List Bool :=
  if ofs / DIR_ENTRY_SIZE < es.length then
    match mallocNext ms with
    | (true, ms) => (some (es.set (ofs / DIR_ENTRY_SIZE) e), ms)
    | (false, ms) => (none, ms)
  else (none, ms)

/-- The loop of `lookup` from offset `ofs`: the entry in use with that name, and its offset. -/
def lookupFrom (name : List UInt8) : List DirEntry → Nat → List Bool →
    Option (DirEntry × Nat) × List Bool
  | [], _, ms => (none, ms)
  | e :: es, ofs, ms =>
    match mallocNext ms with
    | (false, ms) => (none, ms)
    | (true, ms) =>
      if e.inUse && name == e.name then (some (e, ofs), ms)
      else lookupFrom name es (ofs + DIR_ENTRY_SIZE) ms

def lookup (es : List DirEntry) (name : List UInt8) (ms : List Bool) :
    Option (DirEntry × Nat) × List Bool :=
  lookupFrom name (slotsFrom es 0) 0 ms

/-- The free-slot loop of `dir_add`: the offset of the first entry not in use, or where a read
comes back short, at the end of the file or for want of memory. -/
def freeSlotFrom : List DirEntry → Nat → List Bool → Nat × List Bool
  | [], ofs, ms => (ofs, ms)
  | e :: es, ofs, ms =>
    match mallocNext ms with
    | (false, ms) => (ofs, ms)
    | (true, ms) => if !e.inUse then (ofs, ms) else freeSlotFrom es (ofs + DIR_ENTRY_SIZE) ms

/-- `strlcpy (dst, name, size)` into a C string of `size` bytes. -/
def strlcpyName (name : List UInt8) (size : Nat) : List UInt8 := name.take (size - 1)

def dirAdd (es : List DirEntry) (name : List UInt8) (inodeSector : Nat) (ms : List Bool) :
    List DirEntry × Bool :=
  if name = [] ∨ name.length > NAME_MAX then (es, false)
  else
    let (found, ms) := lookup es name ms
    if found.isSome then (es, false)
    else
      let (ofs, ms) := freeSlotFrom (slotsFrom es 0) 0 ms
      match (writeEntry es ofs ⟨inodeSector, strlcpyName name (NAME_MAX + 1), true⟩ ms).1 with
      | some es' => (es', true)
      | none => (es, false)

/-- `dir_lookup`: the inode of the entry, opened with `malloc` returning `alloc`. -/
def dirLookup (fs : Fs) (es : List DirEntry) (name : List UInt8) (alloc : Option Nat)
    (ms : List Bool) : Option (Fs × Option Nat) :=
  match (lookup es name ms).1 with
  | some (e, _) => inodeOpen fs e.inodeSector alloc
  | none => some (fs, none)

def dirRemove (fs : Fs) (es : List DirEntry) (name : List UInt8) (alloc : Option Nat)
    (ms : List Bool) : Option (Fs × List DirEntry × Bool) :=
  match lookup es name ms with
  | (none, _) => some (fs, es, false)
  | (some (e, ofs), ms) => do
    let (fs, inode) ← inodeOpen fs e.inodeSector alloc
    match inode with
    | none => return (fs, es, false)
    | some p =>
      match (writeEntry es ofs { e with inUse := false } ms).1 with
      | none => return (← inodeClose fs (some p), es, false)
      | some es' =>
        let fs ← inodeRemove fs p
        return (← inodeClose fs (some p), es', true)

/-- The loop of `dir_readdir` from `pos`: the next name in use and the position after it. -/
def readdirFrom : List DirEntry → Nat → List Bool → Nat × Option (List UInt8)
  | [], pos, _ => (pos, none)
  | e :: es, pos, ms =>
    match mallocNext ms with
    | (false, _) => (pos, none)
    | (true, ms) =>
      if e.inUse then (pos + DIR_ENTRY_SIZE, some (strlcpyName e.name (NAME_MAX + 1)))
      else readdirFrom es (pos + DIR_ENTRY_SIZE) ms

def dirReaddir (es : List DirEntry) (dir : Dir) (ms : List Bool) : Dir × Option (List UInt8) :=
  let (pos, name) := readdirFrom (slotsFrom es dir.pos) dir.pos ms
  ({ dir with pos := pos }, name)

/-- The names a caller collects calling `dir_readdir` until it returns false, every `malloc`
succeeding. -/
def readdirPass (es : List DirEntry) (dir : Dir) : Nat → List (List UInt8)
  | 0 => []
  | fuel + 1 =>
    match dirReaddir es dir [] with
    | (dir', some name) => name :: readdirPass es dir' fuel
    | (_, none) => []

/-! ## The loops -/

section Loops
variable {name : List UInt8}

@[simp] theorem mallocNext_nil : mallocNext [] = (true, []) := rfl

@[simp] theorem slotsFrom_zero (es : List DirEntry) : slotsFrom es 0 = es := by
  simp [slotsFrom]

@[simp] theorem slotsFrom_index (es : List DirEntry) (k : Nat) :
    slotsFrom es (k * DIR_ENTRY_SIZE) = es.drop k := by
  simp [slotsFrom, DIR_ENTRY_SIZE]

theorem writeEntry_index (es : List DirEntry) (k : Nat) (e : DirEntry) :
    writeEntry es (k * DIR_ENTRY_SIZE) e [] =
      (if k < es.length then some (es.set k e) else none, []) := by
  by_cases hk : k < es.length <;> simp [writeEntry, DIR_ENTRY_SIZE, hk]

theorem lookupFrom_cons_nil (e : DirEntry) (l : List DirEntry) (ofs : Nat) :
    lookupFrom name (e :: l) ofs [] = if e.inUse && name == e.name then (some (e, ofs), [])
      else lookupFrom name l (ofs + DIR_ENTRY_SIZE) [] := rfl

theorem lookupFrom_nil_snd : ∀ (l : List DirEntry) (ofs : Nat), (lookupFrom name l ofs []).2 = []
  | [], _ => rfl
  | e :: l, ofs => by
    rw [lookupFrom_cons_nil]
    split
    · rfl
    · exact lookupFrom_nil_snd l _

theorem lookupFrom_eq_some : ∀ {l : List DirEntry} {ofs o : Nat} {e : DirEntry},
    (lookupFrom name l ofs []).1 = some (e, o) →
      ∃ j, l[j]? = some e ∧ o = ofs + j * DIR_ENTRY_SIZE ∧ e.inUse = true ∧ e.name = name
  | [], _, _, _, h => by simp [lookupFrom] at h
  | x :: l, ofs, o, e, h => by
    rw [lookupFrom_cons_nil] at h
    split at h
    · rename_i hx
      simp only [Option.some.injEq, Prod.mk.injEq] at h
      obtain ⟨rfl, rfl⟩ := h
      simp only [Bool.and_eq_true, beq_iff_eq] at hx
      exact ⟨0, rfl, by simp, hx.1, hx.2.symm⟩
    · obtain ⟨j, hj, ho, hu, hn⟩ := lookupFrom_eq_some h
      exact ⟨j + 1, by simpa using hj, by rw [ho, Nat.succ_mul]; omega, hu, hn⟩

theorem lookupFrom_eq_none : ∀ {l : List DirEntry} {ofs : Nat},
    (lookupFrom name l ofs []).1 = none ↔ ∀ e ∈ l, e.inUse = true → e.name ≠ name
  | [], _ => by simp [lookupFrom]
  | x :: l, ofs => by
    rw [lookupFrom_cons_nil]
    split
    · rename_i hx
      simp only [Bool.and_eq_true, beq_iff_eq] at hx
      simp only [reduceCtorEq, false_iff, not_forall]
      exact ⟨x, List.mem_cons_self, hx.1, fun h => h hx.2.symm⟩
    · rename_i hx
      rw [lookupFrom_eq_none, List.forall_mem_cons]
      simp only [Bool.and_eq_true, beq_iff_eq, not_and] at hx
      exact ⟨fun h => ⟨fun hu hn => hx hu hn.symm, h⟩, fun h => h.2⟩

theorem freeSlotFrom_cons_nil (e : DirEntry) (l : List DirEntry) (ofs : Nat) :
    freeSlotFrom (e :: l) ofs [] =
      if !e.inUse then (ofs, []) else freeSlotFrom l (ofs + DIR_ENTRY_SIZE) [] := rfl

theorem freeSlotFrom_spec : ∀ (l : List DirEntry) (ofs : Nat),
    (∃ j a, l[j]? = some a ∧ a.inUse = false ∧
      freeSlotFrom l ofs [] = (ofs + j * DIR_ENTRY_SIZE, [])) ∨
    ((∀ e ∈ l, e.inUse = true) ∧ freeSlotFrom l ofs [] = (ofs + l.length * DIR_ENTRY_SIZE, []))
  | [], ofs => Or.inr ⟨by simp, by simp [freeSlotFrom]⟩
  | x :: l, ofs => by
    cases hx : x.inUse
    · exact Or.inl ⟨0, x, rfl, hx, by simp [freeSlotFrom_cons_nil, hx]⟩
    · rcases freeSlotFrom_spec l (ofs + DIR_ENTRY_SIZE) with ⟨j, a, hj, ha, hf⟩ | ⟨hall, hf⟩
      · refine Or.inl ⟨j + 1, a, by simpa using hj, ha, ?_⟩
        simp only [freeSlotFrom_cons_nil, hx, Bool.not_true, Bool.false_eq_true, if_false, hf,
          Nat.succ_mul, Prod.mk.injEq, and_true]
        omega
      · refine Or.inr ⟨List.forall_mem_cons.mpr ⟨hx, hall⟩, ?_⟩
        simp only [freeSlotFrom_cons_nil, hx, Bool.not_true, Bool.false_eq_true, if_false, hf,
          List.length_cons, Nat.succ_mul, Prod.mk.injEq, and_true]
        omega

end Loops

/-! ## The directory as a finite map -/

/-- The binding an entry holds, when it is in use. -/
def dirView (e : DirEntry) : Option (List UInt8 × Nat) :=
  if e.inUse then some (e.name, e.inodeSector) else none

/-- The bindings of the directory, in the order of its entries. -/
def dirEntries (es : List DirEntry) : List (List UInt8 × Nat) := es.filterMap dirView

/-- The finite map from names to inode sectors that the directory stands for. -/
def dirMap (es : List DirEntry) (name : List UInt8) : Option Nat := List.lookup name (dirEntries es)

/-- No two entries in use have one name, and every name in use passes the check of `dir_add`. -/
structure DirWf (es : List DirEntry) : Prop where
  nodup : ((dirEntries es).map Prod.fst).Nodup
  name_ok : ∀ e ∈ es, e.inUse = true → e.name ≠ [] ∧ e.name.length ≤ NAME_MAX

theorem mem_dirEntries {es : List DirEntry} {n : List UInt8} {t : Nat} :
    (n, t) ∈ dirEntries es ↔ ∃ e ∈ es, e.inUse = true ∧ e.name = n ∧ e.inodeSector = t := by
  simp only [dirEntries, List.mem_filterMap, dirView]
  constructor
  · rintro ⟨e, he, hv⟩
    split at hv
    · simp only [Option.some.injEq, Prod.mk.injEq] at hv
      exact ⟨e, he, by assumption, hv.1, hv.2⟩
    · cases hv
  · rintro ⟨e, he, hu, rfl, rfl⟩
    exact ⟨e, he, by simp [hu]⟩

theorem mem_dirKeys {es : List DirEntry} {n : List UInt8} :
    n ∈ (dirEntries es).map Prod.fst ↔ ∃ e ∈ es, e.inUse = true ∧ e.name = n := by
  simp only [List.mem_map, Prod.exists, exists_and_right, exists_eq_right]
  constructor
  · rintro ⟨t, ht⟩
    obtain ⟨e, he, hu, hn, -⟩ := mem_dirEntries.mp ht
    exact ⟨e, he, hu, hn⟩
  · rintro ⟨e, he, hu, hn⟩
    exact ⟨e.inodeSector, mem_dirEntries.mpr ⟨e, he, hu, hn, rfl⟩⟩

section Map
variable {es : List DirEntry} {name : List UInt8}

theorem lookup_nil (es : List DirEntry) (name : List UInt8) :
    lookup es name [] = ((lookup es name []).1, []) :=
  Prod.ext rfl (lookupFrom_nil_snd _ _)

theorem lookup_eq_none_iff : (lookup es name []).1 = none ↔ dirMap es name = none := by
  rw [lookup, slotsFrom_zero, lookupFrom_eq_none, dirMap, Slots.lookup_eq_none_iff, mem_dirKeys]
  constructor
  · rintro h ⟨e, he, hu, hn⟩
    exact h e he hu hn
  · intro h e he hu hn
    exact h ⟨e, he, hu, hn⟩

theorem lookup_eq_some {e : DirEntry} {ofs : Nat} (h : (lookup es name []).1 = some (e, ofs)) :
    ∃ j, es[j]? = some e ∧ ofs = j * DIR_ENTRY_SIZE ∧ e.inUse = true ∧ e.name = name := by
  obtain ⟨j, hj, ho, hu, hn⟩ := lookupFrom_eq_some h
  exact ⟨j, by simpa using hj, by omega, hu, hn⟩

theorem DirWf.dirMap_eq_some (hw : DirWf es) {n : List UInt8} {t : Nat} :
    dirMap es n = some t ↔ (n, t) ∈ dirEntries es :=
  Slots.lookup_eq_some_iff_mem hw.nodup

theorem DirWf.lookup_sector (hw : DirWf es) {e : DirEntry} {ofs : Nat}
    (h : (lookup es name []).1 = some (e, ofs)) : dirMap es name = some e.inodeSector := by
  obtain ⟨j, hj, -, hu, hn⟩ := lookup_eq_some h
  exact hw.dirMap_eq_some.mpr (mem_dirEntries.mpr ⟨e, List.mem_of_getElem? hj, hu, hn, rfl⟩)

end Map

/-! ## `dir_add` -/

/-- A name `dir_add` accepts: not empty and at most `NAME_MAX` bytes. -/
def NameOk (name : List UInt8) : Prop := name ≠ [] ∧ name.length ≤ NAME_MAX

instance (name : List UInt8) : Decidable (NameOk name) := inferInstanceAs (Decidable (_ ∧ _))

theorem strlcpyName_of_nameOk {name : List UInt8} (h : NameOk name) :
    strlcpyName name (NAME_MAX + 1) = name :=
  List.take_of_length_le h.2

theorem dirAdd_cases (es : List DirEntry) (name : List UInt8) (sector : Nat) :
    (∃ j a, es[j]? = some a ∧ a.inUse = false ∧ NameOk name ∧ (lookup es name []).1 = none ∧
      dirAdd es name sector [] = (es.set j ⟨sector, name, true⟩, true)) ∨
    (dirAdd es name sector [] = (es, false) ∧
      (¬NameOk name ∨ ((lookup es name []).1).isSome ∨ ∀ e ∈ es, e.inUse = true)) := by
  unfold dirAdd
  by_cases hv : name = [] ∨ name.length > NAME_MAX
  · refine Or.inr ⟨if_pos hv, Or.inl ?_⟩
    rintro ⟨hne, hle⟩
    rcases hv with h | h
    · exact hne h
    · omega
  have hok : NameOk name := ⟨fun h => hv (Or.inl h), Nat.le_of_not_lt fun h => hv (Or.inr h)⟩
  rw [if_neg hv, lookup_nil]
  dsimp only
  by_cases hl : ((lookup es name []).1).isSome
  · exact Or.inr ⟨if_pos hl, Or.inr (Or.inl hl)⟩
  rw [if_neg hl, slotsFrom_zero, strlcpyName_of_nameOk hok]
  have hl' : (lookup es name []).1 = none := Option.not_isSome_iff_eq_none.mp hl
  rcases freeSlotFrom_spec es 0 with ⟨j, a, hj, ha, hf⟩ | ⟨hall, hf⟩
  · have hjl : j < es.length := (List.getElem?_eq_some_iff.mp hj).1
    rw [hf, Nat.zero_add, writeEntry_index, if_pos hjl]
    exact Or.inl ⟨j, a, hj, ha, hok, hl', rfl⟩
  · rw [hf, Nat.zero_add, writeEntry_index, if_neg (Nat.lt_irrefl _)]
    exact Or.inr ⟨rfl, Or.inr (Or.inr hall)⟩

theorem dirEntries_set_perm {es : List DirEntry} {j : Nat} {a : DirEntry} (hj : es[j]? = some a)
    (b : DirEntry) :
    (dirEntries (es.set j b) ++ (dirView a).toList).Perm (dirEntries es ++ (dirView b).toList) :=
  Slots.filterMap_set_perm dirView b es j hj

theorem dirEntries_set_free {es : List DirEntry} {j : Nat} {a : DirEntry} (hj : es[j]? = some a)
    (ha : a.inUse = false) (name : List UInt8) (sector : Nat) :
    (dirEntries (es.set j ⟨sector, name, true⟩)).Perm ((name, sector) :: dirEntries es) := by
  have hp := dirEntries_set_perm hj ⟨sector, name, true⟩
  simp only [dirView, ha, Bool.false_eq_true, if_false, Option.toList_none, List.append_nil,
    if_true, Option.toList_some] at hp
  exact hp.trans (List.perm_append_singleton _ _)

theorem DirWf.set_mem {es : List DirEntry} (hw : DirWf es) {j : Nat} {b : DirEntry}
    (hb : b.inUse = true → NameOk b.name) :
    ∀ e ∈ es.set j b, e.inUse = true → e.name ≠ [] ∧ e.name.length ≤ NAME_MAX := by
  intro e he hu
  rcases List.mem_or_eq_of_mem_set he with he | rfl
  · exact hw.name_ok e he hu
  · exact hb hu

section Add
variable {es : List DirEntry} (hw : DirWf es) (name : List UInt8) (sector : Nat)
include hw

theorem DirWf.dirAdd : DirWf (Filesys.dirAdd es name sector []).1 := by
  rcases dirAdd_cases es name sector with ⟨j, a, hj, ha, hok, hl, hadd⟩ | ⟨hadd, -⟩
  · rw [hadd]
    have hp := dirEntries_set_free hj ha name sector
    have hk : name ∉ (dirEntries es).map Prod.fst := by
      rw [← Slots.lookup_eq_none_iff]
      exact lookup_eq_none_iff.mp hl
    refine ⟨(hp.map Prod.fst).nodup_iff.mpr (List.nodup_cons.mpr ⟨hk, hw.nodup⟩),
      hw.set_mem fun _ => hok⟩
  · rw [hadd]
    exact hw

/-- `dir_add` succeeds exactly on a good name that is absent from a directory with a free
entry, and then maps the name to the sector; otherwise it changes nothing. -/
theorem DirWf.dirAdd_spec :
    ((Filesys.dirAdd es name sector []).2 = true ↔
      NameOk name ∧ dirMap es name = none ∧ ∃ e ∈ es, e.inUse = false) ∧
    ((Filesys.dirAdd es name sector []).2 = true → dirMap (Filesys.dirAdd es name sector []).1 =
      Function.update (dirMap es) name (some sector)) ∧
    ((Filesys.dirAdd es name sector []).2 = false → (Filesys.dirAdd es name sector []).1 = es) := by
  rcases dirAdd_cases es name sector with ⟨j, a, hj, ha, hok, hl, hadd⟩ | ⟨hadd, hfail⟩
  · have hw' := hw.dirAdd name sector
    rw [hadd] at hw' ⊢
    refine ⟨iff_of_true rfl ⟨hok, lookup_eq_none_iff.mp hl, a, List.mem_of_getElem? hj, ha⟩,
      fun _ => ?_, fun h => by cases h⟩
    exact Slots.lookup_of_perm_cons (dirEntries_set_free hj ha name sector) hw'.nodup
  · rw [hadd]
    refine ⟨iff_of_false (by simp) ?_, (fun h => by cases h), fun _ => rfl⟩
    rintro ⟨hok, hm, e, he, hu⟩
    rcases hfail with hbad | hl | hall
    · exact hbad hok
    · rw [lookup_eq_none_iff.mpr hm] at hl
      cases hl
    · rw [hall e he] at hu
      cases hu

end Add

/-! ## `dir_remove` and `dir_lookup` -/

theorem dirEntries_set_clear {es : List DirEntry} {j : Nat} {e : DirEntry} (hj : es[j]? = some e)
    (hu : e.inUse = true) :
    (dirEntries es).Perm ((e.name, e.inodeSector) :: dirEntries (es.set j { e with inUse := false })) := by
  have hp := dirEntries_set_perm hj { e with inUse := false }
  simp only [dirView, hu, if_true, Option.toList_some, Bool.false_eq_true, if_false,
    Option.toList_none, List.append_nil] at hp
  exact hp.symm.trans (List.perm_append_singleton _ _)

section Remove
variable {fs : Fs} {es : List DirEntry} {name : List UInt8} {alloc : Option Nat}

theorem dirRemove_absent (h : (lookup es name []).1 = none) :
    dirRemove fs es name alloc [] = some (fs, es, false) := by
  rw [dirRemove, lookup_nil, h]

theorem dirRemove_unopened {e : DirEntry} {ofs : Nat} {fs₁ : Fs}
    (h : (lookup es name []).1 = some (e, ofs))
    (ho : inodeOpen fs e.inodeSector alloc = some (fs₁, none)) :
    dirRemove fs es name alloc [] = some (fs₁, es, false) := by
  rw [dirRemove, lookup_nil, h]
  simp [ho]

theorem dirRemove_opened {e : DirEntry} {ofs : Nat} {fs₁ : Fs} {p : Nat} {i : Inode}
    (h : (lookup es name []).1 = some (e, ofs))
    (ho : inodeOpen fs e.inodeSector alloc = some (fs₁, some p)) (hi : fs₁.inodes p = some i) :
    ∃ j, es[j]? = some e ∧ e.inUse = true ∧ e.name = name ∧ dirRemove fs es name alloc [] =
      (inodeClose (fs₁.setInode p (some { i with removed := true })) (some p)).map
        fun fs' => (fs', es.set j { e with inUse := false }, true) := by
  obtain ⟨j, hj, rfl, hu, hn⟩ := lookup_eq_some h
  have hjl : j < es.length := (List.getElem?_eq_some_iff.mp hj).1
  refine ⟨j, hj, hu, hn, ?_⟩
  rw [dirRemove, lookup_nil, h]
  simp only [ho, writeEntry_index, if_pos hjl, inodeRemove, hi, Option.bind_eq_bind,
    Option.bind_some, Option.pure_def]
  cases inodeClose (fs₁.setInode p (some { i with removed := true })) (some p) <;> rfl

theorem DirWf.dirRemove (hw : DirWf es) {fs' : Fs} {es' : List DirEntry} {ok : Bool}
    (h : Filesys.dirRemove fs es name alloc [] = some (fs', es', ok)) : DirWf es' := by
  cases hl : (lookup es name []).1 with
  | none =>
    rw [dirRemove_absent hl] at h
    cases h
    exact hw
  | some eo =>
    obtain ⟨e, ofs⟩ := eo
    obtain ⟨⟨fs₁, g⟩, ho⟩ := Option.isSome_iff_exists.mp (inodeOpen_isSome fs e.inodeSector alloc)
    rcases inodeOpen_eq_some ho with ⟨p, i, rfl, hi, -⟩ | ⟨rfl, -⟩
    · obtain ⟨j, hj, hu, -, hr⟩ := dirRemove_opened hl ho hi
      rw [hr] at h
      obtain ⟨_, -, h⟩ := Option.map_eq_some_iff.mp h
      cases h
      have hp := dirEntries_set_clear hj hu
      exact ⟨(List.nodup_cons.mp ((hp.map Prod.fst).nodup_iff.mp hw.nodup)).2,
        hw.set_mem fun h => by cases h⟩
    · rw [dirRemove_unopened hl ho] at h
      cases h
      exact hw

end Remove

/-! ## `dir_readdir` -/

theorem dirEntries_append (a b : List DirEntry) :
    dirEntries (a ++ b) = dirEntries a ++ dirEntries b :=
  List.filterMap_append

theorem dirEntries_of_unused {u : List DirEntry} (hu : ∀ x ∈ u, x.inUse = false) :
    dirEntries u = [] := by
  simp only [dirEntries, List.filterMap_eq_nil_iff, dirView]
  intro x hx
  simp [hu x hx]

theorem readdirFrom_cons_nil (e : DirEntry) (l : List DirEntry) (pos : Nat) :
    readdirFrom (e :: l) pos [] =
      if e.inUse then (pos + DIR_ENTRY_SIZE, some (strlcpyName e.name (NAME_MAX + 1)))
      else readdirFrom l (pos + DIR_ENTRY_SIZE) [] := rfl

theorem readdirFrom_cases : ∀ (l : List DirEntry) (pos : Nat),
    (∃ u e r, l = u ++ e :: r ∧ (∀ x ∈ u, x.inUse = false) ∧ e.inUse = true ∧
      readdirFrom l pos [] = (pos + (u.length + 1) * DIR_ENTRY_SIZE,
        some (strlcpyName e.name (NAME_MAX + 1)))) ∨
    ((∀ x ∈ l, x.inUse = false) ∧ readdirFrom l pos [] = (pos + l.length * DIR_ENTRY_SIZE, none))
  | [], pos => Or.inr ⟨by simp, by simp [readdirFrom]⟩
  | x :: l, pos => by
    cases hx : x.inUse
    · rcases readdirFrom_cases l (pos + DIR_ENTRY_SIZE) with ⟨u, e, r, rfl, hu, he, hr⟩ | ⟨hall, hr⟩
      · refine Or.inl ⟨x :: u, e, r, rfl, List.forall_mem_cons.mpr ⟨hx, hu⟩, he, ?_⟩
        simp only [readdirFrom_cons_nil, hx, Bool.false_eq_true, if_false, hr, List.length_cons,
          Prod.mk.injEq, and_true, Nat.succ_mul]
        omega
      · refine Or.inr ⟨List.forall_mem_cons.mpr ⟨hx, hall⟩, ?_⟩
        simp only [readdirFrom_cons_nil, hx, Bool.false_eq_true, if_false, hr, List.length_cons,
          Prod.mk.injEq, and_true, Nat.succ_mul]
        omega
    · exact Or.inl ⟨[], x, l, rfl, by simp, hx, by simp [readdirFrom_cons_nil, hx]⟩

/-- Calls of `dir_readdir` from the entry at index `k` on, enough of them to reach the end,
return the names in use from there, in order. -/
theorem DirWf.readdirPass_drop {es : List DirEntry} (hw : DirWf es) (d : Nat) :
    ∀ (fuel k : Nat), es.length - k < fuel →
      readdirPass es ⟨d, k * DIR_ENTRY_SIZE⟩ fuel = (dirEntries (es.drop k)).map Prod.fst
  | 0, _, h => absurd h (Nat.not_lt_zero _)
  | fuel + 1, k, h => by
    simp only [readdirPass, dirReaddir, slotsFrom_index]
    rcases readdirFrom_cases (es.drop k) (k * DIR_ENTRY_SIZE) with
      ⟨u, e, r, hl, hu, he, hr⟩ | ⟨hall, hr⟩
    · have hlen : es.length - k = u.length + 1 + r.length := by
        rw [← List.length_drop, hl, List.length_append, List.length_cons]
        omega
      have hdrop : es.drop (k + (u.length + 1)) = r := by
        rw [← List.drop_drop, hl]
        simp
      have hmem : e ∈ es.drop k := by
        rw [hl]
        simp
      have hname : strlcpyName e.name (NAME_MAX + 1) = e.name :=
        strlcpyName_of_nameOk (hw.name_ok e (List.mem_of_mem_drop hmem) he)
      have hpos : k * DIR_ENTRY_SIZE + (u.length + 1) * DIR_ENTRY_SIZE =
          (k + (u.length + 1)) * DIR_ENTRY_SIZE := (Nat.add_mul _ _ _).symm
      rw [hr, hname, hpos]
      dsimp only
      rw [readdirPass_drop hw d fuel _ (by omega), hdrop, hl, dirEntries_append,
        dirEntries_of_unused hu]
      simp [dirView, he, dirEntries]
    · rw [hr, dirEntries_of_unused hall]
      rfl

/-! ## The map over every run -/

section MapOps
variable {es : List DirEntry} (hw : DirWf es)
include hw

theorem DirWf.unique {i j : Nat} {e₁ e₂ : DirEntry} (hi : es[i]? = some e₁) (hj : es[j]? = some e₂)
    (h₁ : e₁.inUse = true) (h₂ : e₂.inUse = true) (hn : e₁.name = e₂.name) : i = j :=
  Slots.eq_of_nodup_keys hw.nodup hi hj
    (show dirView e₁ = some (e₁.name, e₁.inodeSector) by simp [dirView, h₁])
    (show dirView e₂ = some (e₂.name, e₂.inodeSector) by simp [dirView, h₂]) hn

theorem DirWf.dirLookup_eq (fs : Fs) (name : List UInt8) (alloc : Option Nat) :
    dirLookup fs es name alloc [] = match dirMap es name with
      | some sector => inodeOpen fs sector alloc
      | none => some (fs, none) := by
  unfold dirLookup
  cases hl : (lookup es name []).1 with
  | none => rw [lookup_eq_none_iff.mp hl]
  | some eo => rw [hw.lookup_sector hl]

/-- `dir_remove` of a name the map binds, with memory for the inode: it unmaps the name, marks
the inode removed, and closes it. -/
theorem DirWf.dirRemove_spec (fs : Fs) {name : List UInt8} {sector : Nat}
    (hm : dirMap es name = some sector) (q : Nat) :
    ∃ fs₁ p i es', inodeOpen fs sector (some q) = some (fs₁, some p) ∧ fs₁.inodes p = some i ∧
      i.sector = sector ∧ dirMap es' = Function.update (dirMap es) name none ∧
      Filesys.dirRemove fs es name (some q) [] =
        (inodeClose (fs₁.setInode p (some { i with removed := true })) (some p)).map
          fun fs' => (fs', es', true) := by
  obtain ⟨⟨e, ofs⟩, hl⟩ := Option.ne_none_iff_exists'.mp
    (fun h => by rw [lookup_eq_none_iff.mp h] at hm; cases hm)
  obtain rfl : e.inodeSector = sector := Option.some.inj ((hw.lookup_sector hl).symm.trans hm)
  obtain ⟨fs₁, p, ho⟩ := inodeOpen_alloc fs e.inodeSector q
  obtain ⟨p', i, hp, hi, hs⟩ | ⟨h, -⟩ := inodeOpen_eq_some ho
  · obtain rfl : p = p' := Option.some.inj hp
    obtain ⟨j, hj, hu, hn, hr⟩ := dirRemove_opened hl ho hi
    refine ⟨fs₁, p, i, _, ho, hi, hs, ?_, hr⟩
    rw [← hn]
    exact Slots.lookup_of_perm_cons_erase (dirEntries_set_clear hj hu) hw.nodup
  · cases h

theorem DirWf.readdirPass_eq (d : Nat) {fuel : Nat} (hf : es.length < fuel) :
    readdirPass es ⟨d, 0⟩ fuel = (dirEntries es).map Prod.fst := by
  simpa using hw.readdirPass_drop d fuel 0 (by omega)

end MapOps

theorem DirWf.dirCreate (entryCnt : Nat) : DirWf (Filesys.dirCreate entryCnt) := by
  have hu : ∀ e ∈ Filesys.dirCreate entryCnt, e.inUse = false := fun e he => by
    rw [List.eq_of_mem_replicate (show e ∈ List.replicate entryCnt ⟨0, [], false⟩ from he)]
  refine ⟨by rw [dirEntries_of_unused hu]; exact List.nodup_nil, fun e he h => ?_⟩
  rw [hu e he] at h
  cases h

/-- A directory with the file system below it and the position of its `struct dir`. -/
structure DirSys where
  fs : Fs
  es : List DirEntry
  dir : Dir

/-- A call on the directory, with the outcomes of its bounce-buffer `malloc`s. -/
inductive DirEvent
  | add (name : List UInt8) (sector : Nat) (ms : List Bool)
  | remove (name : List UInt8) (alloc : Option Nat) (ms : List Bool)
  | lookup (name : List UInt8) (alloc : Option Nat) (ms : List Bool)
  | readdir (ms : List Bool)

def DirEvent.mallocs : DirEvent → List Bool
  | .add _ _ ms | .remove _ _ ms | .lookup _ _ ms | .readdir ms => ms

/-- A call in which every `malloc` succeeds. -/
def DirEvent.Full (e : DirEvent) : Prop := e.mallocs = []

def dirStep (s : DirSys) : DirEvent → Option DirSys
  | .add name sector ms => some { s with es := (dirAdd s.es name sector ms).1 }
  | .remove name alloc ms => do
    let (fs, es, _) ← dirRemove s.fs s.es name alloc ms
    return { s with fs := fs, es := es }
  | .lookup name alloc ms => do
    let (fs, _) ← dirLookup s.fs s.es name alloc ms
    return { s with fs := fs }
  | .readdir ms => some { s with dir := (dirReaddir s.es s.dir ms).1 }

/-- The states of a directory made by `dir_create (sector, entryCnt)` and opened by `dir_open`,
through calls that `ok` allows. -/
def DirReachable (fs₀ : Fs) (entryCnt sector : Nat) (ok : DirEvent → Prop) (s : DirSys) : Prop :=
  Relation.ReflTransGen (fun s s' => ∃ e, ok e ∧ dirStep s e = some s')
    ⟨fs₀, dirCreate entryCnt, ⟨sector, 0⟩⟩ s

/-- The new directory of two entries after `dir_add (dir, "a", 7)`, and then
`dir_add (dir, "a", 8)` with the bounce buffer of `lookup`'s first read refused: `lookup` sees a
short read and reports the name absent, and both calls succeed, leaving two entries in use
named "a". -/
theorem dir_add_duplicates :
    ∃ s, DirReachable (Sys.init ⟨[]⟩ fun _ => ⟨0, 0, INODE_MAGIC⟩).fs 2 ROOT_DIR_SECTOR
        (fun _ => True) s ∧
      (dirAdd (dirCreate 2) [97] 7 []).2 = true ∧
      (dirAdd (dirAdd (dirCreate 2) [97] 7 []).1 [97] 8 [false]).2 = true ∧
      s.es = [⟨7, [97], true⟩, ⟨8, [97], true⟩] :=
  ⟨_, .tail (.tail .refl ⟨.add [97] 7 [], trivial, rfl⟩) ⟨.add [97] 8 [false], trivial, rfl⟩,
    by decide, by decide, by decide⟩

theorem DirWf.step {s s' : DirSys} (hw : DirWf s.es) {e : DirEvent} (he : e.Full)
    (h : dirStep s e = some s') : DirWf s'.es := by
  cases e with
  | add name sector ms =>
    obtain rfl : ms = [] := he
    cases h
    exact hw.dirAdd name sector
  | remove name alloc ms =>
    obtain rfl : ms = [] := he
    simp only [dirStep, Option.bind_eq_bind, Option.pure_def] at h
    obtain ⟨⟨fs, es, ok⟩, hr, h⟩ := Option.bind_eq_some_iff.mp h
    cases h
    exact hw.dirRemove hr
  | lookup name alloc ms =>
    simp only [dirStep, Option.bind_eq_bind, Option.pure_def] at h
    obtain ⟨_, -, h⟩ := Option.bind_eq_some_iff.mp h
    cases h
    exact hw
  | readdir ms =>
    cases h
    exact hw

theorem DirWf.of_reachable {fs₀ : Fs} {n d : Nat} {s : DirSys}
    (h : DirReachable fs₀ n d DirEvent.Full s) : DirWf s.es := by
  induction h with
  | refl => exact DirWf.dirCreate n
  | tail _ hstep ih =>
    obtain ⟨e, he, hs⟩ := hstep
    exact ih.step he hs

theorem dir_refines_map {fs₀ : Fs} {n d : Nat} {s : DirSys}
    (h : DirReachable fs₀ n d DirEvent.Full s) :
    (∀ (i j : Nat) (e₁ e₂ : DirEntry), s.es[i]? = some e₁ → s.es[j]? = some e₂ → e₁.inUse = true →
      e₂.inUse = true → e₁.name = e₂.name → i = j) ∧
    (∀ name sector,
      ((dirAdd s.es name sector []).2 = true ↔
        NameOk name ∧ dirMap s.es name = none ∧ ∃ e ∈ s.es, e.inUse = false) ∧
      ((dirAdd s.es name sector []).2 = true →
        dirMap (dirAdd s.es name sector []).1 = Function.update (dirMap s.es) name (some sector)) ∧
      ((dirAdd s.es name sector []).2 = false → (dirAdd s.es name sector []).1 = s.es)) ∧
    (∀ name alloc, dirMap s.es name = none →
      dirRemove s.fs s.es name alloc [] = some (s.fs, s.es, false)) ∧
    (∀ name sector q, dirMap s.es name = some sector →
      ∃ fs₁ p i es', inodeOpen s.fs sector (some q) = some (fs₁, some p) ∧
        fs₁.inodes p = some i ∧ i.sector = sector ∧
        dirMap es' = Function.update (dirMap s.es) name none ∧
        dirRemove s.fs s.es name (some q) [] =
          (inodeClose (fs₁.setInode p (some { i with removed := true })) (some p)).map
            fun fs' => (fs', es', true)) ∧
    (∀ name alloc, dirLookup s.fs s.es name alloc [] = match dirMap s.es name with
      | some sector => inodeOpen s.fs sector alloc
      | none => some (s.fs, none)) ∧
    (∀ d' fuel, s.es.length < fuel →
      readdirPass s.es ⟨d', 0⟩ fuel = (dirEntries s.es).map Prod.fst ∧
      ((dirEntries s.es).map Prod.fst).Nodup ∧
      ∀ name, name ∈ (dirEntries s.es).map Prod.fst ↔ (dirMap s.es name).isSome) := by
  have hw := DirWf.of_reachable h
  refine ⟨fun i j e₁ e₂ hi hj h₁ h₂ hn => hw.unique hi hj h₁ h₂ hn,
    fun name sector => hw.dirAdd_spec name sector,
    fun name alloc hm => dirRemove_absent (lookup_eq_none_iff.mpr hm),
    fun name sector q hm => hw.dirRemove_spec s.fs hm q,
    hw.dirLookup_eq s.fs, fun d' fuel hf => ⟨hw.readdirPass_eq d' hf, hw.nodup, fun name => ?_⟩⟩
  rw [← Option.ne_none_iff_isSome, Ne, dirMap, Slots.lookup_eq_none_iff, not_not]

/-- `dir_add (dir, "a", 7)` in a new directory of two entries: a pass of `dir_readdir` then
returns the one name. -/
theorem dir_refines_map_add :
    ∃ s, DirReachable (Sys.init ⟨[]⟩ fun _ => ⟨0, 0, INODE_MAGIC⟩).fs 2 ROOT_DIR_SECTOR
        DirEvent.Full s ∧
      readdirPass s.es ⟨ROOT_DIR_SECTOR, 0⟩ 3 = [[97]] := by
  have hr : DirReachable (Sys.init ⟨[]⟩ fun _ => ⟨0, 0, INODE_MAGIC⟩).fs 2 ROOT_DIR_SECTOR
      DirEvent.Full ⟨(Sys.init ⟨[]⟩ fun _ => ⟨0, 0, INODE_MAGIC⟩).fs,
        (dirAdd (dirCreate 2) [97] 7 []).1, ⟨ROOT_DIR_SECTOR, 0⟩⟩ :=
    .tail .refl ⟨.add [97] 7 [], rfl, rfl⟩
  refine ⟨_, hr, ?_⟩
  rw [((dir_refines_map hr).2.2.2.2.2 ROOT_DIR_SECTOR 3 (by decide)).1]
  decide

end Pintos.Filesys
