import Mathlib.Logic.Equiv.Basic
import Mathlib.Data.UInt
import Mathlib.Algebra.Ring.Nat
import Mathlib.Algebra.Ring.Int.Defs

/-! # `lib/random.c`: pseudo-random numbers

RC4: `random_init` is its key schedule and `random_bytes` its output loop, over the table `s` and
the indices `s_i` and `s_j`, all `uint8_t`, so that index arithmetic wraps at 256. The seed's
bytes are read through `seedp` in the machine's little-endian order.

* `random_run_perm`: in every state a run of calls reaches from boot, once the generator is
  initialised its table is a permutation of the bytes.
-/

namespace Pintos.Libc
set_option autoImplicit false

/-- The statics of `random.c`. -/
structure Random where
  s : UInt8 → UInt8
  sI : UInt8
  sJ : UInt8
  inited : Bool

/-- The statics at boot, in the zeroed BSS. -/
def Random.boot : Random := ⟨fun _ => 0, 0, 0, false⟩

/-- `swap_byte (s + i, s + j)`. -/
def swapByte (s : UInt8 → UInt8) (i j : UInt8) : UInt8 → UInt8 :=
  Function.update (Function.update s i (s j)) j (s i)

/-- `seedp[k]`: byte `k` of `seed`. -/
def seedByte (seed : UInt32) (k : Nat) : UInt8 := (seed >>> (8 * k).toUInt32).toUInt8

/-- A round of the key schedule: `j += s[i] + seedp[i % sizeof seed]; swap_byte (s + i, s + j);`. -/
def scheduleStep (seed : UInt32) (st : (UInt8 → UInt8) × UInt8) (i : Nat) : (UInt8 → UInt8) × UInt8 :=
  let j := st.2 + st.1 i.toUInt8 + seedByte seed (i % 4)
  (swapByte st.1 i.toUInt8 j, j)

def randomInit (r : Random) (seed : UInt32) : Random :=
  let s := (List.range 256).foldl (fun s i => Function.update s i.toUInt8 i.toUInt8) r.s
  let s := ((List.range 256).foldl (scheduleStep seed) (s, 0)).1
  { r with s, sI := 0, sJ := 0, inited := true }

/-- A round of the loop of `random_bytes`: the state after it and the byte it stores. -/
def outputStep (r : Random) : Random × UInt8 :=
  let sI := r.sI + 1
  let sJ := r.sJ + r.s sI
  let s := swapByte r.s sI sJ
  let sK := s sI + s sJ
  ({ r with s, sI, sJ }, s sK)

def randomBytesLoop : Nat → Random → Random × List UInt8
  | 0, r => (r, [])
  | size + 1, r =>
    let (r, b) := outputStep r
    let (r, bs) := randomBytesLoop size r
    (r, b :: bs)

/-- `random_bytes (buf, size)`: the state after it and the bytes it stores in `buf`. -/
def randomBytes (r : Random) (size : Nat) : Random × List UInt8 :=
  randomBytesLoop size (if r.inited then r else randomInit r 0)

/-- `random_ulong`, the four bytes of an `unsigned long` in little-endian order. -/
def randomUlong (r : Random) : Random × UInt32 :=
  let (r, bs) := randomBytes r 4
  (r, bs.foldr (fun b acc => b.toUInt32 + 256 * acc) 0)

/-- A call into `random.c`; `random_ulong` is a request for four bytes. -/
inductive RandomCall
  | init (seed : UInt32)
  | bytes (size : Nat)

def RandomCall.apply (r : Random) : RandomCall → Random
  | .init seed => randomInit r seed
  | .bytes size => (randomBytes r size).1

def randomRun (r : Random) (calls : List RandomCall) : Random := calls.foldl RandomCall.apply r

/-! ## The table stays a permutation -/

section Perm
open Function

/-- Once the generator is initialised, its table is a permutation. -/
def Random.Perm (r : Random) : Prop := r.inited = true → Bijective r.s

theorem swapByte_eq (s : UInt8 → UInt8) (i j : UInt8) : swapByte s i j = s ∘ Equiv.swap i j := by
  funext k
  unfold swapByte
  by_cases hj : k = j
  · subst hj
    simp
  · by_cases hi : k = i
    · subst hi
      simp [Function.update_of_ne hj, Equiv.swap_apply_left]
    · simp [Function.update_of_ne hj, Function.update_of_ne hi, Equiv.swap_apply_of_ne_of_ne hi hj]

theorem bijective_swapByte {s : UInt8 → UInt8} (h : Bijective s) (i j : UInt8) :
    Bijective (swapByte s i j) := by
  rw [swapByte_eq]
  exact h.comp (Equiv.swap i j).bijective

theorem foldl_update_self_apply (k : UInt8) :
    ∀ (l : List Nat) (s : UInt8 → UInt8),
      (l.foldl (fun s i => Function.update s i.toUInt8 i.toUInt8) s) k =
        if k ∈ l.map Nat.toUInt8 then k else s k
  | [], s => by simp
  | i :: l, s => by
    rw [List.foldl_cons, foldl_update_self_apply k l]
    by_cases hl : k ∈ l.map Nat.toUInt8
    · simp [hl]
    · by_cases hk : k = i.toUInt8
      · simp [hk]
      · simp [hl, hk]

theorem foldl_update_self (s : UInt8 → UInt8) :
    (List.range 256).foldl (fun s i => Function.update s i.toUInt8 i.toUInt8) s = id := by
  funext k
  rw [foldl_update_self_apply, if_pos]
  · rfl
  · exact List.mem_map.mpr ⟨k.toNat, List.mem_range.mpr k.toNat_lt, UInt8.ofNat_toNat⟩

theorem bijective_foldl_scheduleStep (seed : UInt32) :
    ∀ (l : List Nat) (st : (UInt8 → UInt8) × UInt8), Bijective st.1 →
      Bijective (l.foldl (scheduleStep seed) st).1
  | [], _, h => h
  | _ :: l, _, h => bijective_foldl_scheduleStep seed l _ (bijective_swapByte h _ _)

theorem randomInit_eq (r r' : Random) (seed : UInt32) : randomInit r seed = randomInit r' seed := by
  unfold randomInit
  rw [foldl_update_self, foldl_update_self]

theorem randomInit_perm (r : Random) (seed : UInt32) : Bijective (randomInit r seed).s := by
  unfold randomInit
  rw [foldl_update_self]
  exact bijective_foldl_scheduleStep seed _ _ bijective_id

@[simp] theorem inited_randomInit (r : Random) (seed : UInt32) : (randomInit r seed).inited = true := rfl

@[simp] theorem inited_outputStep (r : Random) : (outputStep r).1.inited = r.inited := rfl

theorem inited_randomBytesLoop : ∀ (size : Nat) (r : Random),
    (randomBytesLoop size r).1.inited = r.inited
  | 0, _ => rfl
  | size + 1, r => (inited_randomBytesLoop size _).trans (inited_outputStep r)

theorem inited_randomBytes (r : Random) (size : Nat) : (randomBytes r size).1.inited = true := by
  unfold randomBytes
  rw [inited_randomBytesLoop]
  split
  · assumption
  · rfl

theorem Random.Perm.outputStep {r : Random} (h : r.Perm) : (outputStep r).1.Perm :=
  fun hi => bijective_swapByte (h hi) _ _

theorem Random.Perm.randomBytesLoop : ∀ (size : Nat) {r : Random}, r.Perm → (randomBytesLoop size r).1.Perm
  | 0, _, h => h
  | size + 1, _, h => Random.Perm.randomBytesLoop size h.outputStep

theorem Random.Perm.apply {r : Random} (h : r.Perm) : ∀ c : RandomCall, (c.apply r).Perm
  | .init seed => fun _ => randomInit_perm r seed
  | .bytes size => by
    apply Random.Perm.randomBytesLoop
    split
    · exact h
    · exact fun _ => randomInit_perm r 0

theorem Random.Perm.run {r : Random} (h : r.Perm) (calls : List RandomCall) : (randomRun r calls).Perm := by
  induction calls generalizing r with
  | nil => exact h
  | cons c calls ih => exact ih (h.apply c)

theorem random_run_perm (calls : List RandomCall) :
    (randomRun Random.boot calls).inited = true → Bijective (randomRun Random.boot calls).s :=
  Random.Perm.run (fun h => absurd h Bool.false_ne_true) calls

theorem random_run_perm_ulong :
    (randomRun Random.boot [.bytes 4]).inited = true ∧ Bijective (randomRun Random.boot [.bytes 4]).s :=
  have h : (randomRun Random.boot [.bytes 4]).inited = true := inited_randomBytes Random.boot 4
  ⟨h, random_run_perm [.bytes 4] h⟩

end Perm

end Pintos.Libc
