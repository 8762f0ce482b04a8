import Pintos.Libc.Printf
import Pintos.Str.String
import Mathlib.Algebra.Order.BigOperators.Group.List
import Mathlib.Data.List.GetD

/-! # `lib/ustar.c`: archive headers

`ustarMakeHeader` composes the 512-byte header of a file and `ustarParseHeader` checks one and
reads the file's name, type and size back. A header is a buffer from offset `0`, and a member of
`struct ustar_header` a byte range of it. A file name is given by its bytes before the
terminator.

`strip_antisocial_prefixes` ends on every name and what it returns it returns again
(`stripAntisocialPrefixes_idem`). `WellFormed` says what a header for a file holds member by
member: `ustar_make_header` writes one (`ustarMakeHeader_wellFormed`) and `ustar_parse_header`
reads the name, type and size back from every one (`ustarParseHeader_wellFormed`).
-/

namespace Pintos.Libc
set_option autoImplicit false
open Pintos.Str (strchr)

/-! ## Members of the header -/

/-- A member of `struct ustar_header`: its offset and its `sizeof`. -/
structure Member where
  ofs : Nat
  size : Nat
deriving DecidableEq, Repr

-- the members that `ustar_make_header` writes or `ustar_parse_header` reads
namespace UstarHeader
def name : Member := ⟨0, 100⟩
def mode : Member := ⟨100, 8⟩
def uid : Member := ⟨108, 8⟩
def gid : Member := ⟨116, 8⟩
def size : Member := ⟨124, 12⟩
def mtime : Member := ⟨136, 12⟩
def chksum : Member := ⟨148, 8⟩
def typeflag : Member := ⟨156, 1⟩
def magic : Member := ⟨257, 6⟩
def version : Member := ⟨263, 2⟩
def uname : Member := ⟨265, 32⟩
def gname : Member := ⟨297, 32⟩
def prefixField : Member := ⟨345, 155⟩
end UstarHeader

namespace Member

/-- The bytes of member `m` of the header `h`. -/
def read (m : Member) (h : Nat → UInt8) : List UInt8 := (List.range m.size).map fun i => h (m.ofs + i)

/-- Two members share no byte. -/
def Disjoint (m n : Member) : Prop := m.ofs + m.size ≤ n.ofs ∨ n.ofs + n.size ≤ m.ofs

instance (m n : Member) : Decidable (m.Disjoint n) := inferInstanceAs (Decidable (_ ∨ _))

end Member

/-- The buffer `h` with `bs` stored from `ofs` on. -/
def putBytes (h : Nat → UInt8) (ofs : Nat) (bs : List UInt8) : Nat → UInt8 :=
  Bytes.copy h ofs (fun i => bs.getD i 0) 0 bs.length

/-- `memset (h, c, n)`. -/
def memset (h : Nat → UInt8) (c : UInt8) (n : Nat) : Nat → UInt8 := Bytes.copy h 0 (fun _ => c) 0 n

/-- What `strlcpy (dst, src, size)` stores from `dst` on for `size > 0`: at most `size - 1` bytes
of the string and a terminator. -/
def strlcpyBytes (src : List UInt8) (size : Nat) : List UInt8 := src.take (size - 1) ++ [0]

/-- `strlcpy (h->m, src, sizeof h->m)`. -/
def strlcpyMember (h : Nat → UInt8) (m : Member) (src : List UInt8) : Nat → UInt8 :=
  putBytes h m.ofs (strlcpyBytes src m.size)

/-- `snprintf (h->m, bufSize, format, ...)`: the header with the bytes it stores. -/
def snprintfMember (h : Nat → UInt8) (m : Member) (bufSize : Nat) (format : List UInt8)
    (args : List Arg) : Option (Nat → UInt8) := do
  let (stored, _) ← snprintf bufSize format args
  some (putBytes h m.ofs stored)

/-- `enum ustar_type`. -/
inductive UstarType
  | regular
  | directory
  | eof
deriving DecidableEq, Repr

/-- The byte of a type in the file format; `USTAR_EOF` is `-1` as a `char`. -/
def UstarType.toByte : UstarType → UInt8
  | .regular => chr '0'
  | .directory => chr '5'
  | .eof => 255

/-- `*type = h->typeflag`, for a type flag the parser has accepted. -/
def UstarType.ofByte (b : UInt8) : UstarType :=
  if b = chr '0' then .regular else if b = chr '5' then .directory else .eof

/-! ## `calculate_chksum` and `strip_antisocial_prefixes` -/

/-- `calculate_chksum (h)`: the sum of the header's bytes, the `chksum` member counted as spaces.
The sum is at most `512 * 255`, so the `unsigned int` does not wrap. -/
def calculateChksum (h : Nat → UInt8) : Nat :=
  ((List.range 512).map fun i =>
    if UstarHeader.chksum.ofs ≤ i ∧ i < UstarHeader.chksum.ofs + UstarHeader.chksum.size then
      (chr ' ').toNat
    else (h i).toNat).sum

/-- The condition of the loop of `strip_antisocial_prefixes`: the name starts with `/`, `./` or
`../`. The `memcmp` calls compare the name with its terminator. -/
def antisocial (s : List UInt8) : Bool :=
  (s ++ [0]).head? == some (chr '/') || (s ++ [0]).take 2 == bytes "./" ||
    (s ++ [0]).take 3 == bytes "../"

/-- The loop of `strip_antisocial_prefixes`, for at most `fuel` iterations; `none` when `strchr`
returns `NULL`. -/
def stripLoop : Nat → List UInt8 → Option (List UInt8)
  | 0, _ => none
  | fuel + 1, s =>
    if antisocial s then
      match strchr (s ++ [0]) (chr '/') with
      | some k => stripLoop fuel (s.drop (k + 1))
      | none => none
    else some s

/-- `strip_antisocial_prefixes (file_name)`. -/
def stripAntisocialPrefixes (fileName : List UInt8) : Option (List UInt8) := do
  let s ← stripLoop (fileName.length + 1) fileName
  some (if s = [] ∨ s = bytes ".." then bytes "." else s)

/-! ## `ustar_make_header` -/

/-- `ustar_make_header` from the `memset` on: the header filled in except for the checksum. -/
def fillHeader (fileName : List UInt8) (type : UstarType) (size : Int) (header : Nat → UInt8) :
    Option (Nat → UInt8) := do
  let h := memset header 0 512
  let h := strlcpyMember h UstarHeader.name fileName
  let h ← snprintfMember h UstarHeader.mode UstarHeader.mode.size (bytes "%07o")
    [.int (if type = .regular then 0o644 else 0o755)]
  let h := strlcpyMember h UstarHeader.uid (bytes "0000000")
  let h := strlcpyMember h UstarHeader.gid (bytes "0000000")
  let h ← snprintfMember h UstarHeader.size UstarHeader.size.size (bytes "%011o") [.int size]
  -- the source gives `sizeof h->size` for `mtime`; the two members have the same size
  let h ← snprintfMember h UstarHeader.mtime UstarHeader.size.size (bytes "%011o")
    [.int 1136102400]
  let h := Function.update h UstarHeader.typeflag.ofs type.toByte
  let h := strlcpyMember h UstarHeader.magic (bytes "ustar")
  -- `h->version[0] = h->version[1] = '0'`
  let h := Function.update h (UstarHeader.version.ofs + 1) (chr '0')
  let h := Function.update h UstarHeader.version.ofs (chr '0')
  let h := strlcpyMember h UstarHeader.gname (bytes "root")
  some (strlcpyMember h UstarHeader.uname (bytes "root"))

/-- `ustar_make_header (file_name, type, size, header)`: whether it succeeds and the header; `none`
when an assertion fails. The message printed for a long name is not modelled. -/
def ustarMakeHeader (fileName : List UInt8) (type : UstarType) (size : Int)
    (header : Nat → UInt8) : Option (Bool × (Nat → UInt8)) :=
  if type = .regular ∨ type = .directory then do
    let fileName ← stripAntisocialPrefixes fileName
    if fileName.length > 99 then some (false, header)
    else do
      let h ← fillHeader fileName type size header
      let h ← snprintfMember h UstarHeader.chksum UstarHeader.chksum.size (bytes "%07o")
        [.int (calculateChksum h)]
      some (true, h)
  else none

/-! ## `ustar_parse_header` -/

/-- `*value = c - '0' + *value * 8`. -/
def octalStep (value : Nat) (c : UInt8) : Nat := c.toNat - (chr '0').toNat + value * 8

/-- The loop of `parse_octal_field (s, size, value)` from byte `ofs` of the field on, with the
value so far; `none` for `false`. Below `ULONG_MAX / 8` the next value does not wrap. -/
def parseOctal (value : Nat) : List UInt8 → Nat → Option Nat
  | [], _ => none
  | c :: s, ofs =>
    if chr '0' ≤ c ∧ c ≤ chr '7' then
      if value > (2 ^ 32 - 1) / 8 then none
      else parseOctal (octalStep value c) s (ofs + 1)
    else if c = chr ' ' ∨ c = 0 then (if ofs > 0 then some value else none)
    else none

/-- `parse_octal_field (s, size, value)` on the `size` bytes of a field. -/
def parseOctalField (s : List UInt8) : Option Nat := parseOctal 0 s 0

/-- `is_all_zeros (block, cnt)` from `p` on. -/
def isAllZeros (block : Nat → UInt8) : Nat → Nat → Bool
  | _, 0 => true
  | p, cnt + 1 => if block p ≠ 0 then false else isAllZeros block (p + 1) cnt

/-- `ustar_parse_header (header, file_name, type, size)`: the error message, or the name (`none`
for `NULL`), type and size it stores; `none` when `strip_antisocial_prefixes` does not return. -/
def ustarParseHeader (h : Nat → UInt8) :
    Option (Except String (Option (List UInt8) × UstarType × Int)) :=
  if isAllZeros h 0 512 then some (.ok (none, .eof, 0))
  else if UstarHeader.magic.read h ≠ bytes "ustar" ++ [0] then some (.error "not a ustar archive")
  else if h UstarHeader.version.ofs ≠ chr '0' ∨ h (UstarHeader.version.ofs + 1) ≠ chr '0' then
    some (.error "invalid ustar version")
  else match parseOctalField (UstarHeader.chksum.read h) with
  | none => some (.error "corrupt chksum field")
  | some chksum =>
    if chksum ≠ calculateChksum h then some (.error "checksum mismatch")
    else if h (UstarHeader.name.ofs + UstarHeader.name.size - 1) ≠ 0 ∨
        h UstarHeader.prefixField.ofs ≠ 0 then
      some (.error "file name too long")
    else if h UstarHeader.typeflag.ofs ≠ UstarType.regular.toByte ∧
        h UstarHeader.typeflag.ofs ≠ UstarType.directory.toByte then
      some (.error "unimplemented file type")
    else
      let sizeUl : Except String Nat :=
        if h UstarHeader.typeflag.ofs = UstarType.regular.toByte then
          match parseOctalField (UstarHeader.size.read h) with
          | none => .error "corrupt file size field"
          | some v => if v > 2 ^ 31 - 1 then .error "file too large" else .ok v
        else .ok 0
      match sizeUl with
      | .error e => some (.error e)
      | .ok sizeUl =>
        (fun fileName => .ok (some fileName, UstarType.ofByte (h UstarHeader.typeflag.ofs),
          (sizeUl : Int))) <$>
          stripAntisocialPrefixes ((UstarHeader.name.read h).takeWhile (· ≠ 0))

/-! ## Reading and writing members -/

namespace Member
variable (m : Member) {h : Nat → UInt8}

@[simp] theorem length_read (h : Nat → UInt8) : (m.read h).length = m.size := by
  rw [read, List.length_map, List.length_range]

theorem getD_read {i : Nat} (hi : i < m.size) : (m.read h).getD i 0 = h (m.ofs + i) := by
  simp [read, List.getD_eq_getElem?_getD, hi]

theorem read_congr {h' : Nat → UInt8} (he : ∀ i < m.size, h (m.ofs + i) = h' (m.ofs + i)) :
    m.read h = m.read h' :=
  List.map_congr_left fun i hi => he i (List.mem_range.mp hi)

end Member

section Write
variable {h : Nat → UInt8}

theorem putBytes_of_not_mem {ofs x : Nat} {bs : List UInt8} (hx : x < ofs ∨ ofs + bs.length ≤ x) :
    putBytes h ofs bs x = h x :=
  Bytes.copy_of_not_mem _ _ hx

theorem putBytes_of_mem {ofs i : Nat} {bs : List UInt8} (hi : i < bs.length) :
    putBytes h ofs bs (ofs + i) = bs.getD i 0 := by
  rw [putBytes, Bytes.copy_of_mem _ _ (Nat.le_add_right _ _) (by omega), Nat.add_sub_cancel_left,
    Nat.zero_add]

theorem read_putBytes_of_disjoint {m : Member} {ofs : Nat} {bs : List UInt8}
    (hd : m.ofs + m.size ≤ ofs ∨ ofs + bs.length ≤ m.ofs) :
    m.read (putBytes h ofs bs) = m.read h :=
  m.read_congr fun _ _ => putBytes_of_not_mem (by omega)

theorem read_putBytes_self {m : Member} {bs : List UInt8} (hlen : bs.length ≤ m.size) :
    m.read (putBytes h m.ofs bs) = bs ++ (m.read h).drop bs.length := by
  apply List.ext_getElem
  · simp only [Member.length_read, List.length_append, List.length_drop]
    omega
  · intro i hi _
    simp only [Member.read, List.getElem_map, List.getElem_range]
    by_cases hib : i < bs.length
    · rw [putBytes_of_mem hib, List.getElem_append_left hib, List.getD_eq_getElem?_getD,
        List.getElem?_eq_getElem hib, Option.getD_some]
    · rw [putBytes_of_not_mem (by omega), List.getElem_append_right (by omega)]
      simp only [List.getElem_drop, List.getElem_map, List.getElem_range]
      congr 1
      omega

theorem read_update_of_not_mem {m : Member} {x : Nat} (hx : x < m.ofs ∨ m.ofs + m.size ≤ x)
    (v : UInt8) : m.read (Function.update h x v) = m.read h :=
  m.read_congr fun _ _ => Function.update_of_ne (by omega) _ _

theorem read_memset {m : Member} {n : Nat} (hm : m.ofs + m.size ≤ n) (c : UInt8) :
    m.read (memset h c n) = List.replicate m.size c := by
  have hc : ∀ i ∈ List.range m.size, memset h c n (m.ofs + i) = c := fun i hi =>
    Bytes.copy_of_mem h (fun _ => c) (Nat.zero_le _) (by rw [List.mem_range] at hi; omega)
  rw [Member.read, List.map_congr_left hc]
  simp

theorem length_strlcpyBytes_le (src : List UInt8) {size : Nat} (hs : 0 < size) :
    (strlcpyBytes src size).length ≤ size := by
  rw [strlcpyBytes, List.length_append, List.length_take, List.length_singleton]
  omega

theorem read_strlcpyMember_of_disjoint {m n : Member} (hd : m.Disjoint n) (hn : 0 < n.size)
    (src : List UInt8) : m.read (strlcpyMember h n src) = m.read h := by
  have := length_strlcpyBytes_le src hn
  exact read_putBytes_of_disjoint (by unfold Member.Disjoint at hd; omega)

theorem read_strlcpyMember_self {m : Member} {src : List UInt8} (hlen : src.length < m.size) :
    m.read (strlcpyMember h m src) = src ++ 0 :: (m.read h).drop (src.length + 1) := by
  have htake : src.take (m.size - 1) = src := List.take_of_length_le (by omega)
  rw [strlcpyMember, read_putBytes_self (length_strlcpyBytes_le src (by omega)), strlcpyBytes,
    htake, List.length_append, List.length_singleton, List.append_assoc, List.singleton_append]

theorem read_putBytes_of_length_eq {m : Member} {bs : List UInt8} (hlen : bs.length = m.size) :
    m.read (putBytes h m.ofs bs) = bs := by
  rw [read_putBytes_self (Nat.le_of_eq hlen), List.drop_of_length_le (by simp [hlen]),
    List.append_nil]

theorem read_strlcpyMember_of_length_eq {m : Member} {src : List UInt8}
    (hlen : src.length + 1 = m.size) : m.read (strlcpyMember h m src) = src ++ [0] := by
  rw [read_strlcpyMember_self (by omega), List.drop_of_length_le (by simp [hlen])]

theorem read_update_single {m : Member} (hm : m.size = 1) (v : UInt8) :
    m.read (Function.update h m.ofs v) = [v] := by
  rw [Member.read, hm]
  simp

theorem read_putOctal_of_disjoint {m n : Member} (hd : m.Disjoint n) {w : Nat}
    (hw : w + 1 ≤ n.size) (v : Nat) : m.read (putBytes h n.ofs (octal w v ++ [0])) = m.read h := by
  have : (octal w v ++ [0]).length = w + 1 := by simp
  exact read_putBytes_of_disjoint (by unfold Member.Disjoint at hd; omega)

theorem snprintfMember_of_eq {m : Member} {n : Nat} {format : List UInt8} {args : List Arg}
    {bs : List UInt8} {length : Int} (hs : snprintf n format args = some (bs, length)) :
    snprintfMember h m n format args = some (putBytes h m.ofs bs) := by
  rw [snprintfMember, hs]
  rfl

end Write

/-! ## Octal fields -/

theorem digitChar_toNat {d : Nat} (hd : d < 8) : (digitChar d).toNat = (chr '0').toNat + d := by
  revert d
  decide

theorem octal_digit {d : Nat} (hd : d < 8) : chr '0' ≤ digitChar d ∧ digitChar d ≤ chr '7' := by
  revert d
  decide

theorem mem_octal : ∀ {w v : Nat} {c : UInt8}, c ∈ octal w v → chr '0' ≤ c ∧ c ≤ chr '7'
  | 0, _, _, hc => absurd hc List.not_mem_nil
  | w + 1, v, c, hc => by
    rw [octal, List.mem_append, List.mem_singleton] at hc
    rcases hc with hc | rfl
    · exact mem_octal hc
    · exact octal_digit (Nat.mod_lt _ (by decide))

theorem foldl_octal : ∀ (w v : Nat), (octal w v).foldl octalStep 0 = v % 8 ^ w
  | 0, v => by rw [Nat.pow_zero, Nat.mod_one]; rfl
  | w + 1, v => by
    rw [octal, List.foldl_append, foldl_octal w, List.foldl_cons, List.foldl_nil, octalStep,
      digitChar_toNat (Nat.mod_lt _ (by decide)), Nat.pow_succ', Nat.mod_mul]
    omega

theorem le_foldl_octalStep : ∀ (xs : List UInt8) (value : Nat), value ≤ xs.foldl octalStep value
  | [], _ => Nat.le_refl _
  | c :: xs, value => by
    rw [List.foldl_cons]
    exact Nat.le_trans (by unfold octalStep; omega) (le_foldl_octalStep xs _)

/-- The loop reads a run of octal digits while the value stays below `2 ^ 32`. The induction is
on the digits; the value only grows, so no check before the last digit fails. -/
theorem parseOctal_append : ∀ {xs : List UInt8}, (∀ c ∈ xs, chr '0' ≤ c ∧ c ≤ chr '7') →
    ∀ (value ofs : Nat) (ys : List UInt8), xs.foldl octalStep value < 2 ^ 32 →
      parseOctal value (xs ++ ys) ofs = parseOctal (xs.foldl octalStep value) ys (ofs + xs.length)
  | [], _, value, ofs, ys, _ => by
    rw [List.nil_append, List.foldl_nil, List.length_nil, Nat.add_zero]
  | c :: xs, hxs, value, ofs, ys, hlt => by
    rw [List.foldl_cons] at hlt
    have hstep : value * 8 ≤ octalStep value c := by unfold octalStep; omega
    have hle := le_foldl_octalStep xs (octalStep value c)
    rw [List.cons_append, parseOctal, if_pos (hxs c List.mem_cons_self), if_neg (by omega),
      parseOctal_append (fun d hd => hxs d (List.mem_cons_of_mem c hd)) _ _ ys hlt,
      List.foldl_cons, List.length_cons, Nat.add_assoc, Nat.add_comm 1]

/-- A field of the `w` octal digits of a value below `2 ^ 32` and a terminator reads as the
value. -/
theorem parseOctalField_octal {w v : Nat} (hw : 0 < w) (hv : v < 8 ^ w) (hv32 : v < 2 ^ 32)
    (rest : List UInt8) : parseOctalField (octal w v ++ 0 :: rest) = some v := by
  have hval : (octal w v).foldl octalStep 0 = v := by rw [foldl_octal, Nat.mod_eq_of_lt hv]
  rw [parseOctalField, parseOctal_append (fun _ => mem_octal) 0 0 _ (by rw [hval]; exact hv32),
    hval, parseOctal, if_neg (by decide), if_pos (Or.inr rfl), if_pos (by simp; omega)]

/-! ## The checksum -/

theorem calculateChksum_congr {h h' : Nat → UInt8}
    (he : ∀ i, i < UstarHeader.chksum.ofs ∨ UstarHeader.chksum.ofs + UstarHeader.chksum.size ≤ i →
      h i = h' i) :
    calculateChksum h = calculateChksum h' := by
  unfold calculateChksum
  refine congrArg List.sum (List.map_congr_left fun i _ => ?_)
  split
  · rfl
  · rw [he i (by omega)]

theorem calculateChksum_putBytes {h : Nat → UInt8} {bs : List UInt8}
    (hlen : bs.length ≤ UstarHeader.chksum.size) :
    calculateChksum (putBytes h UstarHeader.chksum.ofs bs) = calculateChksum h :=
  calculateChksum_congr fun _ hi => putBytes_of_not_mem (by omega)

theorem calculateChksum_le (h : Nat → UInt8) : calculateChksum h ≤ 512 * 255 := by
  unfold calculateChksum
  refine Nat.le_trans (List.sum_le_card_nsmul _ 255 fun x hx => ?_) (by simp)
  obtain ⟨i, -, rfl⟩ := List.mem_map.mp hx
  split
  · decide
  · exact Nat.le_of_lt_succ (h i).toNat_lt

/-! ## Stripping a name -/

theorem strchr_slash_of_antisocial {s : List UInt8} (ha : antisocial s = true) :
    ∃ k, strchr (s ++ [0]) (chr '/') = some k ∧ k < s.length := by
  have hslash : chr '/' = 47 := rfl
  rcases s with _ | ⟨a, _ | ⟨b, _ | ⟨c, t⟩⟩⟩
  · exact absurd ha (by decide)
  all_goals simp [antisocial, bytes, chr] at ha
  · subst ha
    exact ⟨0, by simp [strchr, hslash], by simp⟩
  · rcases ha with rfl | ⟨rfl, rfl⟩
    · exact ⟨0, by simp [strchr, hslash], by simp⟩
    · exact ⟨1, by simp [strchr, hslash], by simp⟩
  · rcases ha with (rfl | ⟨rfl, rfl⟩) | ⟨rfl, rfl, rfl⟩
    · exact ⟨0, by simp [strchr, hslash], by simp⟩
    · exact ⟨1, by simp [strchr, hslash], by simp⟩
    · exact ⟨2, by simp [strchr, hslash], by simp⟩

/-- Each turn of the loop drops at least one byte, so a fuel above the length is enough. The
induction is on the fuel. -/
theorem stripLoop_spec : ∀ (fuel : Nat) (s : List UInt8), s.length < fuel →
    ∃ t, stripLoop fuel s = some t ∧ antisocial t = false ∧ t <:+ s
  | 0, _, hlt => absurd hlt (Nat.not_lt_zero _)
  | fuel + 1, s, hlt => by
    by_cases ha : antisocial s = true
    · obtain ⟨k, hk, hks⟩ := strchr_slash_of_antisocial ha
      obtain ⟨t, ht, hat, hsuf⟩ :=
        stripLoop_spec fuel (s.drop (k + 1)) (by rw [List.length_drop]; omega)
      refine ⟨t, ?_, hat, hsuf.trans (List.drop_suffix _ _)⟩
      rw [stripLoop, if_pos ha, hk]
      exact ht
    · exact ⟨s, by rw [stripLoop, if_neg ha], Bool.eq_false_iff.mpr ha, List.suffix_refl s⟩

theorem stripAntisocialPrefixes_of_settled {s : List UInt8} (ha : antisocial s = false)
    (hs : ¬(s = [] ∨ s = bytes "..")) : stripAntisocialPrefixes s = some s := by
  rw [stripAntisocialPrefixes, stripLoop, ha]
  simp [hs]

theorem stripAntisocialPrefixes_spec (fileName : List UInt8) :
    ∃ t, stripAntisocialPrefixes fileName = some t ∧ antisocial t = false ∧
      ¬(t = [] ∨ t = bytes "..") ∧ (t <:+ fileName ∨ t = bytes ".") := by
  obtain ⟨s, hs, has, hsuf⟩ := stripLoop_spec _ fileName (Nat.lt_succ_self _)
  by_cases hd : s = [] ∨ s = bytes ".."
  · exact ⟨bytes ".", by simp [stripAntisocialPrefixes, hs, hd], by decide, by decide, .inr rfl⟩
  · exact ⟨s, by simp [stripAntisocialPrefixes, hs, hd], has, hd, .inl hsuf⟩

theorem stripAntisocialPrefixes_idem (fileName : List UInt8) :
    ∃ t, stripAntisocialPrefixes fileName = some t ∧ stripAntisocialPrefixes t = some t := by
  obtain ⟨t, ht, ha, hd, -⟩ := stripAntisocialPrefixes_spec fileName
  exact ⟨t, ht, stripAntisocialPrefixes_of_settled ha hd⟩

theorem zero_not_mem_of_strip {fileName t : List UInt8} (h0 : 0 ∉ fileName)
    (ht : stripAntisocialPrefixes fileName = some t) : 0 ∉ t := by
  obtain ⟨t', ht', -, -, hsuf | rfl⟩ := stripAntisocialPrefixes_spec fileName
  · rw [ht] at ht'
    cases ht'
    exact fun h => h0 (hsuf.subset h)
  · rw [ht] at ht'
    cases ht'
    decide

/-! ## Well-formed headers -/

/-- What `fillHeader` leaves in the members the parser reads, for a file `fileName` of type
`type` and `size` bytes. -/
structure Filled (h : Nat → UInt8) (fileName : List UInt8) (type : UstarType) (size : Nat) :
    Prop where
  name_length : fileName.length < UstarHeader.name.size
  name : UstarHeader.name.read h = fileName ++ List.replicate (100 - fileName.length) 0
  size : UstarHeader.size.read h = octal 11 size ++ [0]
  typeflag : UstarHeader.typeflag.read h = [type.toByte]
  magic : UstarHeader.magic.read h = bytes "ustar" ++ [0]
  version : UstarHeader.version.read h = bytes "00"
  prefixField : UstarHeader.prefixField.read h = List.replicate 155 0

/-- A header for a file: filled in, and the checksum of the header in `chksum`. -/
structure WellFormed (h : Nat → UInt8) (fileName : List UInt8) (type : UstarType) (size : Nat) :
    Prop extends Filled h fileName type size where
  chksum : UstarHeader.chksum.read h = octal 7 (calculateChksum h) ++ [0]

theorem fillHeader_filled {fileName : List UInt8} (hlen : fileName.length < UstarHeader.name.size)
    (type : UstarType) {size : Int} (hsize : 0 ≤ size ∧ size < 2 ^ 32) (header : Nat → UInt8) :
    ∃ h, fillHeader fileName type size header = some h ∧ Filled h fileName type size.toNat := by
  have hmode : snprintf UstarHeader.mode.size (bytes "%07o")
      [.int (if type = .regular then 0o644 else 0o755)] =
      some (octal 7 (if type = .regular then (0o644 : Int) else 0o755).toNat ++ [0], 7) :=
    snprintf_07o (by split <;> decide)
  have hsz : snprintf UstarHeader.size.size (bytes "%011o") [.int size] =
      some (octal 11 size.toNat ++ [0], 11) := snprintf_011o hsize
  have hmtime : snprintf UstarHeader.size.size (bytes "%011o") [.int 1136102400] =
      some (octal 11 (1136102400 : Int).toNat ++ [0], 11) := snprintf_011o (by decide)
  simp only [fillHeader, snprintfMember_of_eq hmode, snprintfMember_of_eq hsz,
    snprintfMember_of_eq hmtime]
  refine ⟨_, rfl, hlen, ?_, ?_, ?_, ?_, ?_, ?_⟩
  -- each member is written once; every other write is to a member disjoint from it
  all_goals simp (disch := decide) only [read_strlcpyMember_of_disjoint, read_putOctal_of_disjoint,
    read_update_of_not_mem]
  · have h100 : UstarHeader.name.size = 100 := rfl
    rw [read_strlcpyMember_self hlen, read_memset (by decide), List.drop_replicate, h100,
      ← List.replicate_succ, show 100 - (fileName.length + 1) + 1 = 100 - fileName.length by omega]
  · exact read_putBytes_of_length_eq (by simp; rfl)
  · exact read_update_single rfl _
  · exact read_strlcpyMember_of_length_eq (by decide)
  · simp [Member.read, UstarHeader.version, Function.update_apply, List.range_succ]
    decide
  · exact read_memset (by decide) _

theorem Filled.putChksum {h : Nat → UInt8} {fileName : List UInt8} {type : UstarType} {size : Nat}
    (hf : Filled h fileName type size) :
    WellFormed (putBytes h UstarHeader.chksum.ofs (octal 7 (calculateChksum h) ++ [0])) fileName
      type size := by
  have hframe : ∀ m : Member, m.Disjoint UstarHeader.chksum →
      m.read (putBytes h UstarHeader.chksum.ofs (octal 7 (calculateChksum h) ++ [0])) = m.read h :=
    fun m hm => read_putOctal_of_disjoint hm (by decide) _
  have hchk : calculateChksum
      (putBytes h UstarHeader.chksum.ofs (octal 7 (calculateChksum h) ++ [0])) = calculateChksum h :=
    calculateChksum_putBytes (by simp; decide)
  exact ⟨⟨hf.name_length, (hframe _ (by decide)).trans hf.name, (hframe _ (by decide)).trans hf.size,
    (hframe _ (by decide)).trans hf.typeflag, (hframe _ (by decide)).trans hf.magic,
    (hframe _ (by decide)).trans hf.version, (hframe _ (by decide)).trans hf.prefixField⟩,
    by rw [read_putBytes_of_length_eq (by simp; rfl), hchk]⟩

/-- `ustar_make_header` on a name whose stripped form fits, for a regular file or a directory of
fewer than `2 ^ 32` bytes, succeeds with a well-formed header. -/
theorem ustarMakeHeader_wellFormed {fileName s : List UInt8}
    (hstrip : stripAntisocialPrefixes fileName = some s) (hlen : s.length ≤ 99) {type : UstarType}
    (htype : type = .regular ∨ type = .directory) {size : Int} (hsize : 0 ≤ size ∧ size < 2 ^ 32)
    (header : Nat → UInt8) :
    ∃ h, ustarMakeHeader fileName type size header = some (true, h) ∧
      WellFormed h s type size.toNat := by
  obtain ⟨h, hfill, hf⟩ := fillHeader_filled (show s.length < 100 by omega) type hsize header
  have hle := calculateChksum_le h
  have hchk : snprintf UstarHeader.chksum.size (bytes "%07o") [.int (calculateChksum h)] =
      some (octal 7 (calculateChksum h) ++ [0], 7) := by
    have h7 := snprintf_07o
      (show 0 ≤ (calculateChksum h : Int) ∧ (calculateChksum h : Int) < 8 ^ 7 by omega)
    rw [Int.toNat_natCast] at h7
    exact h7
  refine ⟨_, ?_, hf.putChksum⟩
  simp only [ustarMakeHeader, if_pos htype, hstrip, Option.bind_eq_bind, Option.bind_some,
    if_neg (show ¬s.length > 99 by omega), hfill, snprintfMember_of_eq hchk]

theorem isAllZeros_iff (block : Nat → UInt8) :
    ∀ (p cnt : Nat), isAllZeros block p cnt = true ↔ ∀ i < cnt, block (p + i) = 0
  | p, 0 => by simp [isAllZeros]
  | p, cnt + 1 => by
    rw [isAllZeros]
    by_cases hp : block p = 0
    · rw [if_neg (not_not.mpr hp), isAllZeros_iff block (p + 1) cnt]
      constructor
      · intro h i hi
        rcases i with _ | i
        · exact hp
        · rw [show p + (i + 1) = p + 1 + i by omega]
          exact h i (by omega)
      · intro h i hi
        rw [show p + 1 + i = p + (i + 1) by omega]
        exact h (i + 1) (by omega)
    · rw [if_pos hp]
      exact ⟨fun h => absurd h Bool.false_ne_true, fun h => absurd (h 0 (by omega)) hp⟩

/-- `ustar_parse_header` reads back the name, type and size of a well-formed header of a regular
file or directory whose name is a stripped string and whose size fits in an `int`. -/
theorem ustarParseHeader_wellFormed {h : Nat → UInt8} {fileName : List UInt8} {type : UstarType}
    {size : Nat} (hw : WellFormed h fileName type size) (h0 : 0 ∉ fileName)
    (hs : stripAntisocialPrefixes fileName = some fileName)
    (htype : type = .regular ∨ type = .directory) (hsize : size < 2 ^ 31) :
    ustarParseHeader h =
      some (.ok (some fileName, type, if type = .regular then (size : Int) else 0)) := by
  have hbyte : ∀ (m : Member) (i : Nat), i < m.size → h (m.ofs + i) = (m.read h).getD i 0 :=
    fun m i hi => (m.getD_read hi).symm
  have hzeros : isAllZeros h 0 512 = false := by
    apply Bool.eq_false_iff.mpr
    intro hz
    have hu : h 257 = _ := hbyte UstarHeader.magic 0 (by decide)
    have hz257 : h 257 = 0 := (isAllZeros_iff h 0 512).mp hz 257 (by decide)
    rw [hw.magic, hz257] at hu
    exact absurd hu (by decide)
  have hver : h UstarHeader.version.ofs = chr '0' ∧ h (UstarHeader.version.ofs + 1) = chr '0' := by
    have h₀ : h UstarHeader.version.ofs = _ := hbyte UstarHeader.version 0 (by decide)
    have h₁ := hbyte UstarHeader.version 1 (by decide)
    rw [hw.version] at h₀ h₁
    exact ⟨h₀, h₁⟩
  have hchk : parseOctalField (UstarHeader.chksum.read h) = some (calculateChksum h) := by
    have hle := calculateChksum_le h
    rw [hw.chksum]
    exact parseOctalField_octal (by decide) (by omega) (by omega) []
  have hlast : h (UstarHeader.name.ofs + UstarHeader.name.size - 1) = 0 := by
    have hl : fileName.length < 100 := hw.name_length
    have h99 : h (UstarHeader.name.ofs + UstarHeader.name.size - 1) = _ :=
      hbyte UstarHeader.name 99 (by decide)
    rw [h99, hw.name, List.getD_append_right _ _ _ _ (by omega), List.getD_replicate _ (by omega)]
  have hpre : h UstarHeader.prefixField.ofs = 0 := by
    have h₀ : h UstarHeader.prefixField.ofs = _ := hbyte UstarHeader.prefixField 0 (by decide)
    rw [h₀, hw.prefixField]
    rfl
  have htf : h UstarHeader.typeflag.ofs = type.toByte := by
    have h₀ : h UstarHeader.typeflag.ofs = _ := hbyte UstarHeader.typeflag 0 (by decide)
    rw [h₀, hw.typeflag]
    rfl
  have hname : (UstarHeader.name.read h).takeWhile (· ≠ 0) = fileName := by
    have hl : fileName.length < 100 := hw.name_length
    have hpos : ∀ a ∈ fileName, decide (a ≠ 0) = true :=
      fun a ha => decide_eq_true fun ha0 => h0 (ha0 ▸ ha)
    rw [hw.name, List.takeWhile_append_of_pos hpos,
      show 100 - fileName.length = 100 - fileName.length - 1 + 1 by omega, List.replicate_succ,
      List.takeWhile_cons_of_neg (by simp), List.append_nil]
  rw [ustarParseHeader, if_neg (by rw [hzeros]; decide), if_neg (not_not.mpr hw.magic),
    if_neg (by rw [hver.1, hver.2]; simp), hchk]
  simp only [ne_eq, not_true_eq_false, if_false, hlast, hpre, htf, hname, hs, or_self,
    Option.map_eq_map, Option.map_some]
  rcases htype with rfl | rfl
  · have hsz : parseOctalField (UstarHeader.size.read h) = some size := by
      rw [hw.size]
      exact parseOctalField_octal (by decide) (by omega) (by omega) []
    simp only [hsz, if_true, if_neg (show ¬size > 2 ^ 31 - 1 by omega)]
    rfl
  · simp only [if_neg (show UstarType.directory.toByte ≠ UstarType.regular.toByte by decide)]
    rfl

/-- `strip_antisocial_prefixes` returns on every name, and returns its result to itself; and the
header `ustar_make_header` writes for a string whose stripped form fits, a regular file or a
directory and a size in `[0, INT_MAX]` parses back to the stripped name, the type and the size,
`0` for a directory. -/
theorem ustar_header_round_trip :
    (∀ fileName, ∃ s, stripAntisocialPrefixes fileName = some s ∧
      stripAntisocialPrefixes s = some s) ∧
    ∀ (fileName s : List UInt8) (type : UstarType) (size : Int) (header : Nat → UInt8),
      0 ∉ fileName → stripAntisocialPrefixes fileName = some s → s.length ≤ 99 →
      type = .regular ∨ type = .directory → 0 ≤ size → size ≤ 2 ^ 31 - 1 →
      ∃ h, ustarMakeHeader fileName type size header = some (true, h) ∧
        ustarParseHeader h = some (.ok (some s, type, if type = .regular then size else 0)) := by
  refine ⟨stripAntisocialPrefixes_idem,
    fun fileName s type size header h0 hstrip hlen htype hlo hhi => ?_⟩
  obtain ⟨h, hmake, hw⟩ := ustarMakeHeader_wellFormed hstrip hlen htype ⟨hlo, by omega⟩ header
  have hidem : stripAntisocialPrefixes s = some s := by
    obtain ⟨t, ht, htt⟩ := stripAntisocialPrefixes_idem fileName
    rw [hstrip] at ht
    cases ht
    exact htt
  refine ⟨h, hmake, ?_⟩
  rw [ustarParseHeader_wellFormed hw (zero_not_mem_of_strip h0 hstrip) hidem htype (by omega),
    Int.toNat_of_nonneg hlo]

theorem ustar_header_round_trip_dot_slash :
    ∃ h, ustarMakeHeader (bytes "./a") .regular 5 (fun _ => 0) = some (true, h) ∧
      ustarParseHeader h = some (.ok (some (bytes "a"), .regular, 5)) :=
  ustar_header_round_trip.2 (bytes "./a") (bytes "a") .regular 5 (fun _ => 0) (by decide)
    (by decide) (by decide) (.inl rfl) (by decide) (by decide)

end Pintos.Libc
