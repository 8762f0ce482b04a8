import Pintos.Lib.Bytes
import Mathlib.Data.List.Basic
import Mathlib.Logic.Function.Basic

/-! # `lib/string.c`: the functions argument passing is built from

Memory is a function from addresses to bytes, and a pointer is an address with `0` for `NULL`. A
C string at `p` is the bytes from `p` up to the first `0`. Every loop takes `fuel`; running out
of it is a loop that does not end, which for these functions is a string with no terminator.

* `strtokR`: `strtok_r`, which writes a terminator after each token and keeps its place in
  `*save_ptr`; `strtokCalls` is a first call on a string and the calls with `NULL` after it.
* `tokens d cs`: the maximal runs of bytes of `cs` that are not delimiters, the abstract reading.
* `strtok_r_tokenises`: the calls return the tokens of the string in order, each left terminated
  in place, and `NULL` once they are used up.
* `memmove_spec`: `memmove` copies the original source bytes for every overlap, and returns the
  pointer its copy loop ended at, `dst + size` when `dst < src`.
-/

namespace Pintos.Str
set_option autoImplicit false

/-- Byte memory. -/
abbrev Mem := Nat → UInt8

/-- `strchr (string, c)` on a literal given by its bytes, terminator included: the offset of the
first byte equal to `c`. The terminator itself is found when `c` is `0`. -/
def strchr : List UInt8 → UInt8 → Option Nat
  | [], _ => none
  | b :: bs, c => if b = c then some 0 else if b = 0 then none else (strchr bs c).map (· + 1)

/-- The loop of `strlen`, from `p`: the address of the terminator. -/
def strlenFrom (mem : Mem) : Nat → Nat → Option Nat
  | 0, _ => none
  | fuel + 1, p => if mem p ≠ 0 then strlenFrom mem fuel (p + 1) else some p

def strlen (mem : Mem) (string fuel : Nat) : Option Nat :=
  (strlenFrom mem fuel string).map (· - string)

/-- `memcpy`: `while (size-- > 0) *dst++ = *src++;`. -/
def memcpy (mem : Mem) (dst src : Nat) : Nat → Mem
  | 0 => mem
  | size + 1 => memcpy (Function.update mem dst (mem src)) (dst + 1) (src + 1) size

/-- The forward loop of `memmove`, `while (size-- > 0) *dst++ = *src++;`: the memory and where
`dst` ends. -/
def moveUp (mem : Mem) (dst src : Nat) : Nat → Mem × Nat
  | 0 => (mem, dst)
  | size + 1 => moveUp (Function.update mem dst (mem src)) (dst + 1) (src + 1) size

/-- The backward loop of `memmove` from `dst + size` and `src + size`,
`while (size-- > 0) *--dst = *--src;`. -/
def moveDown (mem : Mem) (dst src : Nat) : Nat → Mem × Nat
  | 0 => (mem, dst)
  | size + 1 => moveDown (Function.update mem (dst - 1) (mem (src - 1))) (dst - 1) (src - 1) size

/-- `memmove (dst, src, size)`: the memory and the pointer it returns. -/
def memmove (mem : Mem) (dst src size : Nat) : Option (Mem × Nat) :=
  if (dst = 0 ∨ src = 0) ∧ size ≠ 0 then none
  else if dst < src then some (moveUp mem dst src size)
  else some (moveDown mem (dst + size) (src + size) size)

/-- `strlcpy`: the new memory and the length of `src`. -/
def strlcpy (mem : Mem) (dst src size fuel : Nat) : Option (Mem × Nat) := do
  let srcLen ← strlen mem src fuel
  if size > 0 then
    let dstLen := min (size - 1) srcLen
    let mem := memcpy mem dst src dstLen
    return (Function.update mem (dst + dstLen) 0, srcLen)
  else return (mem, srcLen)

/-- The loop of `strnlen`, `for (length = 0; string[length] != '\0' && length < maxlen; length++)`,
from `length`. It stops by `maxlen`, so `maxlen + 1` rounds are enough. -/
def strnlenLoop (mem : Mem) (string maxlen : Nat) : Nat → Nat → Nat
  | 0, length => length
  | fuel + 1, length =>
    if mem (string + length) ≠ 0 ∧ length < maxlen then strnlenLoop mem string maxlen fuel (length + 1)
    else length

def strnlen (mem : Mem) (string maxlen : Nat) : Nat := strnlenLoop mem string maxlen (maxlen + 1) 0

/-- The loop of `strcmp (a, b)` from offset `i`, each string given by what its pointer reads
(`a i` for `a[i]`); `none` when `fuel` runs out. -/
def strcmpFrom (a b : Nat → UInt8) : Nat → Nat → Option Int
  | 0, _ => none
  | fuel + 1, i =>
    if a i ≠ 0 ∧ a i = b i then strcmpFrom a b fuel (i + 1)
    else some (if a i < b i then -1 else if a i > b i then 1 else 0)

def strcmp (a b : Nat → UInt8) (fuel : Nat) : Option Int := strcmpFrom a b fuel 0

/-- What a pointer to a string `bs` reads: its bytes, then its terminator. -/
def cstr (bs : List UInt8) : Nat → UInt8 := fun i => bs.getD i 0

/-- The first loop of `strtok_r`: skip delimiters, stopping at the first byte that is not one or
at the terminator. -/
def skipDelims (mem : Mem) (delims : List UInt8) : Nat → Nat → Option Nat
  | 0, _ => none
  | fuel + 1, s =>
    if (strchr delims (mem s)).isSome then
      if mem s = 0 then some s else skipDelims mem delims fuel (s + 1)
    else some s

/-- The second loop of `strtok_r`: skip the bytes of the token. -/
def skipToken (mem : Mem) (delims : List UInt8) : Nat → Nat → Option Nat
  | 0, _ => none
  | fuel + 1, s =>
    if (strchr delims (mem s)).isNone then skipToken mem delims fuel (s + 1) else some s

/-- `strtok_r (s, delimiters, save_ptr)`: the new memory, the token (`0` for `NULL`) and the new
`*save_ptr`. -/
def strtokR (mem : Mem) (s : Nat) (delims : List UInt8) (savePtr fuel : Nat) :
    Option (Mem × Nat × Nat) := do
  let s := if s = 0 then savePtr else s
  if s = 0 then none
  let s ← skipDelims mem delims fuel s
  if mem s = 0 then return (mem, 0, s)
  let token := s
  let s ← skipToken mem delims fuel s
  if mem s ≠ 0 then return (Function.update mem s 0, token, s + 1)
  else return (mem, token, s)

/-- `n` calls `strtok_r (s, delimiters, &save_ptr)`, `strtok_r (NULL, delimiters, &save_ptr)`, …:
the memory after them and what each returned. -/
def strtokCalls (mem : Mem) (s : Nat) (delims : List UInt8) (savePtr fuel : Nat) :
    Nat → Option (Mem × List Nat)
  | 0 => some (mem, [])
  | n + 1 => do
    let (mem, token, savePtr) ← strtokR mem s delims savePtr fuel
    let (mem, ts) ← strtokCalls mem 0 delims savePtr fuel n
    return (mem, token :: ts)

/-! ## The abstract reading -/

/-- The tokens of `cs`: its maximal runs of bytes that are not delimiters. `acc` is the current
run, reversed. -/
def tokensAcc (d : UInt8 → Bool) : List UInt8 → List UInt8 → List (List UInt8)
  | acc, [] => if acc = [] then [] else [acc.reverse]
  | acc, b :: bs =>
    if d b then (if acc = [] then tokensAcc d [] bs else acc.reverse :: tokensAcc d [] bs)
    else tokensAcc d (b :: acc) bs

def tokens (d : UInt8 → Bool) (cs : List UInt8) : List (List UInt8) := tokensAcc d [] cs

/-- The tokens of `cs` with the address of each, `i` being the address of the first byte of `cs`
and `acc` the current run, reversed. -/
def spansAcc (d : UInt8 → Bool) : Nat → List UInt8 → List UInt8 → List (Nat × List UInt8)
  | i, acc, [] => if acc = [] then [] else [(i - acc.length, acc.reverse)]
  | i, acc, b :: bs =>
    if d b then
      (if acc = [] then spansAcc d (i + 1) [] bs
        else (i - acc.length, acc.reverse) :: spansAcc d (i + 1) [] bs)
    else spansAcc d (i + 1) (b :: acc) bs

def spans (d : UInt8 → Bool) (i : Nat) (cs : List UInt8) : List (Nat × List UInt8) :=
  spansAcc d i [] cs

/-- `mem` holds `bs` from `p` on. -/
def Holds (mem : Mem) : Nat → List UInt8 → Prop
  | _, [] => True
  | p, b :: bs => mem p = b ∧ Holds mem (p + 1) bs

section Memory
variable {mem : Mem} {p a : Nat} {v : UInt8}

theorem holds_append : ∀ {p : Nat} {xs ys : List UInt8},
    Holds mem p (xs ++ ys) ↔ Holds mem p xs ∧ Holds mem (p + xs.length) ys
  | _, [], _ => by simp [Holds]
  | p, x :: xs, ys => by
    simp only [List.cons_append, Holds, holds_append, List.length_cons]
    rw [show p + 1 + xs.length = p + (xs.length + 1) by omega, and_assoc]

theorem Holds.update : ∀ {p : Nat} {bs : List UInt8}, Holds mem p bs →
    (a < p ∨ p + bs.length ≤ a) → Holds (Function.update mem a v) p bs
  | _, [], _, _ => trivial
  | p, b :: bs, ⟨hb, hbs⟩, ha => by
    have hne : p ≠ a := by simp only [List.length_cons] at ha; omega
    refine ⟨by rw [Function.update_of_ne hne]; exact hb, hbs.update ?_⟩
    simp only [List.length_cons] at ha
    omega

theorem Holds.congr {mem' : Mem} : ∀ {p : Nat} {bs : List UInt8}, Holds mem p bs →
    (∀ i < bs.length, mem' (p + i) = mem (p + i)) → Holds mem' p bs
  | _, [], _, _ => trivial
  | p, b :: bs, ⟨hb, hbs⟩, he => by
    refine ⟨by rw [← hb]; simpa using he 0 (by simp), hbs.congr fun i hi => ?_⟩
    rw [Nat.add_assoc, Nat.add_comm 1 i]
    exact he (i + 1) (by simp only [List.length_cons]; omega)

theorem Holds.getD : ∀ {p : Nat} {bs : List UInt8}, Holds mem p bs →
    ∀ k < bs.length, mem (p + k) = bs.getD k 0
  | _, [], _, _, hk => absurd hk (Nat.not_lt_zero _)
  | _, _ :: _, ⟨hb, _⟩, 0, _ => hb
  | p, _ :: bs, ⟨_, hbs⟩, k + 1, hk => by
    rw [show p + (k + 1) = p + 1 + k by omega, hbs.getD k (by simpa using hk)]
    rfl

/-- A memory that holds `bs` from `p` on, and zeros elsewhere. -/
def strMem : Nat → List UInt8 → Mem
  | _, [] => fun _ => 0
  | p, b :: bs => Function.update (strMem (p + 1) bs) p b

theorem holds_strMem : ∀ (p : Nat) (bs : List UInt8), Holds (strMem p bs) p bs
  | _, [] => trivial
  | p, _ :: bs =>
    ⟨Function.update_self .., (holds_strMem (p + 1) bs).update (.inl (Nat.lt_succ_self p))⟩

end Memory

/-! ## `strlen`, `memcpy`, `strlcpy` -/

section Copy
variable {mem : Mem}

theorem strlenFrom_run : ∀ (t : List UInt8) {p fuel : Nat}, Holds mem p (t ++ [0]) → 0 ∉ t →
    t.length < fuel → strlenFrom mem fuel p = some (p + t.length)
  | [], p, fuel + 1, ⟨h0, _⟩, _, _ => by simp [strlenFrom, h0]
  | b :: t, p, fuel + 1, ⟨hb, ht⟩, h0, hf => by
    have hb0 : mem p ≠ 0 := fun h => h0 (by rw [← h, hb]; exact List.mem_cons_self ..)
    rw [strlenFrom, if_pos hb0, strlenFrom_run t ht (fun h => h0 (List.mem_cons_of_mem b h))
      (by simp only [List.length_cons] at hf; omega)]
    simp only [List.length_cons]
    congr 1
    omega

theorem strlen_eq {t : List UInt8} {p fuel : Nat} (hm : Holds mem p (t ++ [0])) (h0 : 0 ∉ t)
    (hf : t.length < fuel) : strlen mem p fuel = some t.length := by
  simp [strlen, strlenFrom_run t hm h0 hf]

/-- `memcpy` of bytes that do not overlap their destination copies them and writes nothing
else. -/
theorem memcpy_spec : ∀ (bs : List UInt8) {mem : Mem} (dst : Nat) {src : Nat}, Holds mem src bs →
    (src + bs.length ≤ dst ∨ dst + bs.length ≤ src) →
    Holds (memcpy mem dst src bs.length) dst bs ∧
      ∀ a, a < dst ∨ dst + bs.length ≤ a → memcpy mem dst src bs.length a = mem a
  | [], _, _, _, _, _ => ⟨trivial, fun _ _ => rfl⟩
  | b :: bs, mem, dst, src, ⟨hb, hbs⟩, hov => by
    simp only [List.length_cons] at hov ⊢
    have hov' : dst < src + 1 ∨ src + 1 + bs.length ≤ dst := by omega
    have hbs' : Holds (Function.update mem dst (mem src)) (src + 1) bs := hbs.update hov'
    obtain ⟨hcopy, hframe⟩ := memcpy_spec bs (dst + 1) hbs' (by omega)
    refine ⟨⟨?_, hcopy⟩, fun a ha => ?_⟩
    · rw [memcpy, hframe dst (.inl (Nat.lt_succ_self dst)), Function.update_self, hb]
    · rw [memcpy, hframe a (by omega), Function.update_of_ne (by omega)]

theorem strlcpy_spec {t : List UInt8} {dst src fuel : Nat} (hm : Holds mem src (t ++ [0]))
    (h0 : 0 ∉ t) (hf : t.length < fuel)
    (hov : src + t.length < dst ∨ dst + t.length < src) :
    ∃ mem', strlcpy mem dst src (t.length + 1) fuel = some (mem', t.length) ∧
      Holds mem' dst (t ++ [0]) ∧ ∀ a, a < dst ∨ dst + t.length < a → mem' a = mem a := by
  obtain ⟨hcopy, hframe⟩ := memcpy_spec t dst (holds_append.mp hm).1 (by omega)
  refine ⟨Function.update (memcpy mem dst src t.length) (dst + t.length) 0, ?_,
    holds_append.mpr ⟨hcopy.update (.inr (Nat.le_refl _)), by simp [Holds]⟩, fun a ha => ?_⟩
  · simp [strlcpy, strlen_eq hm h0 hf]
  · rw [Function.update_of_ne (by omega), hframe a (by omega)]

end Copy

/-! ## `memmove` -/

section Move
open Bytes
variable (mem : Mem) {dst src : Nat}

theorem moveUp_copy (h : dst ≤ src) : ∀ (n k : Nat),
    moveUp (copy mem dst mem src k) (dst + k) (src + k) n = (copy mem dst mem src (k + n), dst + k + n)
  | 0, k => rfl
  | n + 1, k => by
    have hread : copy mem dst mem src k (src + k) = mem (src + k) := copy_of_not_mem _ _ (by omega)
    rw [moveUp, hread, update_copy_end, show dst + k + 1 = dst + (k + 1) by omega,
      show src + k + 1 = src + (k + 1) by omega, moveUp_copy h n (k + 1),
      show k + 1 + n = k + (n + 1) by omega, show dst + (k + 1) + n = dst + k + (n + 1) by omega]

theorem moveDown_copy (h : src ≤ dst) : ∀ (n k : Nat),
    moveDown (copy mem (dst + n) mem (src + n) k) (dst + n) (src + n) n = (copy mem dst mem src (n + k), dst)
  | 0, k => by simp [moveDown]
  | n + 1, k => by
    have hread : copy mem (dst + (n + 1)) mem (src + (n + 1)) k (src + n) = mem (src + n) :=
      copy_of_not_mem _ _ (by omega)
    rw [moveDown, show dst + (n + 1) - 1 = dst + n by omega, show src + (n + 1) - 1 = src + n by omega,
      hread, show dst + (n + 1) = dst + n + 1 by omega, show src + (n + 1) = src + n + 1 by omega,
      update_copy_front, moveDown_copy h n (k + 1), show n + (k + 1) = n + 1 + k by omega]

/-- For every overlap, `memmove` leaves the destination holding the original bytes of the
source and writes nothing else; it returns `dst` only when it copies downwards. -/
theorem memmove_spec (size : Nat) (h : (dst ≠ 0 ∧ src ≠ 0) ∨ size = 0) :
    memmove mem dst src size =
      some (copy mem dst mem src size, if dst < src then dst + size else dst) := by
  rw [memmove, if_neg (by omega)]
  by_cases hlt : dst < src
  · rw [if_pos hlt, if_pos hlt]
    simpa using moveUp_copy mem (Nat.le_of_lt hlt) size 0
  · rw [if_neg hlt, if_neg hlt]
    simpa using moveDown_copy mem (Nat.le_of_not_lt hlt) size 0

/-- Moving one byte down by one address returns the address after the destination. -/
theorem memmove_returns_end :
    (memmove (fun _ => 0) 1 2 1).map Prod.snd = some 2 := rfl

end Move

/-! ## Delimiters -/

section Delims
variable {ds : List UInt8}

theorem strchr_isSome (hds : 0 ∉ ds) (b : UInt8) :
    (strchr (ds ++ [0]) b).isSome = true ↔ b = 0 ∨ b ∈ ds := by
  induction ds with
  | nil =>
    by_cases hb : (0 : UInt8) = b
    · simp [strchr, hb]
    · simp [strchr, hb, Ne.symm hb]
  | cons c cs ih =>
    have hc : c ≠ 0 := fun h => hds (h ▸ List.mem_cons_self ..)
    have ih' := ih (fun h => hds (List.mem_cons_of_mem c h))
    by_cases hcb : c = b
    · simp [strchr, hcb]
    · simp only [List.cons_append, strchr, if_neg hcb, if_neg hc, Option.isSome_map, ih',
        List.mem_cons]
      constructor
      · rintro (h | h)
        · exact .inl h
        · exact .inr (.inr h)
      · rintro (h | h | h)
        · exact .inl h
        · exact absurd h.symm hcb
        · exact .inr h

variable {mem : Mem}

theorem skipDelims_run (hds : 0 ∉ ds) : ∀ (pre : List UInt8) {s fuel : Nat},
    Holds mem s pre → (∀ b ∈ pre, b ∈ ds) → (mem (s + pre.length) = 0 ∨ mem (s + pre.length) ∉ ds) →
      pre.length < fuel → skipDelims mem (ds ++ [0]) fuel s = some (s + pre.length)
  | [], s, fuel + 1, _, _, hx, _ => by
    simp only [List.length_nil, Nat.add_zero] at hx ⊢
    by_cases h0 : mem s = 0
    · simp [skipDelims, h0]
    · -- a byte that is neither a delimiter nor the terminator ends the loop
      have hnot : (strchr (ds ++ [0]) (mem s)).isSome = false := by
        cases h : (strchr (ds ++ [0]) (mem s)).isSome
        · rfl
        · rcases (strchr_isSome hds _).mp h with h | h
          · exact absurd h h0
          · exact absurd h (hx.resolve_left h0)
      simp [skipDelims, hnot]
  | b :: pre, s, fuel + 1, ⟨hb, hpre⟩, hall, hx, hlen => by
    have hbd : b ∈ ds := hall b (List.mem_cons_self ..)
    have hb0 : mem s ≠ 0 := fun h => hds (by rw [← h, hb]; exact hbd)
    have hsome : (strchr (ds ++ [0]) (mem s)).isSome = true := (strchr_isSome hds _).mpr (.inr (hb ▸ hbd))
    have ih := skipDelims_run hds pre hpre (fun c hc => hall c (List.mem_cons_of_mem b hc))
      (by rw [show s + 1 + pre.length = s + (b :: pre).length by simp; omega]; exact hx)
      (show pre.length < fuel by simp only [List.length_cons] at hlen; omega)
    rw [skipDelims, if_pos hsome, if_neg hb0, ih]
    simp only [List.length_cons]
    congr 1
    omega

theorem skipToken_run (hds : 0 ∉ ds) : ∀ (tok : List UInt8) {s fuel : Nat},
    Holds mem s tok → (∀ b ∈ tok, b ≠ 0 ∧ b ∉ ds) →
      (mem (s + tok.length) = 0 ∨ mem (s + tok.length) ∈ ds) →
      tok.length < fuel → skipToken mem (ds ++ [0]) fuel s = some (s + tok.length)
  | [], s, fuel + 1, _, _, hx, _ => by
    simp only [List.length_nil, Nat.add_zero] at hx ⊢
    have hsome : (strchr (ds ++ [0]) (mem s)).isSome = true := (strchr_isSome hds _).mpr hx
    cases h : strchr (ds ++ [0]) (mem s) with
    | none => simp [h] at hsome
    | some _ => simp [skipToken, h]
  | b :: tok, s, fuel + 1, ⟨hb, htok⟩, hall, hx, hlen => by
    have hbd := hall b (List.mem_cons_self ..)
    have hnone : (strchr (ds ++ [0]) (mem s)).isNone = true := by
      cases h : (strchr (ds ++ [0]) (mem s)) with
      | none => rfl
      | some _ =>
        have := (strchr_isSome hds (mem s)).mp (by simp [h])
        rw [hb] at this
        exact absurd this (by tauto)
    have ih := skipToken_run hds tok htok (fun c hc => hall c (List.mem_cons_of_mem b hc))
      (by rw [show s + 1 + tok.length = s + (b :: tok).length by simp; omega]; exact hx)
      (show tok.length < fuel by simp only [List.length_cons] at hlen; omega)
    rw [skipToken, if_pos hnone, ih]
    simp only [List.length_cons]
    congr 1
    omega

end Delims

/-! ## One call of `strtok_r` -/

section Strtok
variable {ds : List UInt8} {mem : Mem}

theorem strtokR_start (s savePtr fuel : Nat) :
    strtokR mem s (ds ++ [0]) savePtr fuel =
      strtokR mem 0 (ds ++ [0]) (if s = 0 then savePtr else s) fuel := by
  unfold strtokR
  rw [if_pos rfl]

/-- A run of delimiters, a token and the byte after it: `strtok_r` returns the token, ends it
with a terminator if it is not already ended by one, and saves the place after it. -/
theorem strtokR_token (hds : 0 ∉ ds) (fuel : Nat) {q : Nat} {pre tok : List UInt8} {x : UInt8}
    (hq : q ≠ 0) (hpm : Holds mem q pre) (htm : Holds mem (q + pre.length) tok)
    (hxm : mem (q + pre.length + tok.length) = x) (hpre : ∀ b ∈ pre, b ∈ ds)
    (htok : ∀ b ∈ tok, b ≠ 0 ∧ b ∉ ds) (hne : tok ≠ []) (hx : x = 0 ∨ x ∈ ds)
    (hf : pre.length + tok.length < fuel) :
    strtokR mem 0 (ds ++ [0]) q fuel =
      some (if x = 0 then (mem, q + pre.length, q + pre.length + tok.length)
        else (Function.update mem (q + pre.length + tok.length) 0, q + pre.length,
          q + pre.length + tok.length + 1)) := by
  obtain ⟨b, tok', rfl⟩ := List.exists_cons_of_ne_nil hne
  have hb := htok b (List.mem_cons_self ..)
  have hbm : mem (q + pre.length) = b := htm.1
  have hskip : skipDelims mem (ds ++ [0]) fuel q = some (q + pre.length) :=
    skipDelims_run hds pre hpm hpre (.inr (hbm ▸ hb.2)) (by omega)
  have htoken : skipToken mem (ds ++ [0]) fuel (q + pre.length) =
      some (q + pre.length + (b :: tok').length) :=
    skipToken_run hds (b :: tok') htm htok (by rw [hxm]; exact hx) (by omega)
  rw [List.length_cons] at hxm htoken ⊢
  by_cases h0 : x = 0 <;> simp [strtokR, hq, hskip, htoken, hbm, hb.1, hxm, h0]

/-- The same call seen from its token: a terminated copy of it is left in place, and at most the
byte after it is written. -/
theorem strtokR_token_holds (hds : 0 ∉ ds) (fuel : Nat) {q : Nat} {pre tok : List UInt8}
    {x : UInt8} (hq : q ≠ 0) (hpm : Holds mem q pre) (htm : Holds mem (q + pre.length) tok)
    (hxm : mem (q + pre.length + tok.length) = x) (hpre : ∀ b ∈ pre, b ∈ ds)
    (htok : ∀ b ∈ tok, b ≠ 0 ∧ b ∉ ds) (hne : tok ≠ []) (hx : x = 0 ∨ x ∈ ds)
    (hf : pre.length + tok.length < fuel) :
    ∃ mem' savePtr, strtokR mem 0 (ds ++ [0]) q fuel = some (mem', q + pre.length, savePtr) ∧
      Holds mem' (q + pre.length) (tok ++ [0]) ∧
      ∀ a, a ≠ q + pre.length + tok.length → mem' a = mem a := by
  have hcall := strtokR_token hds fuel hq hpm htm hxm hpre htok hne hx hf
  by_cases h0 : x = 0
  · rw [if_pos h0] at hcall
    exact ⟨mem, _, hcall, holds_append.mpr ⟨htm, by simp [Holds, hxm, h0]⟩, fun _ _ => rfl⟩
  · rw [if_neg h0] at hcall
    exact ⟨_, _, hcall, holds_append.mpr ⟨htm.update (.inr (by omega)), by simp [Holds]⟩,
      fun a ha => Function.update_of_ne ha _ _⟩

theorem strtokR_end (hds : 0 ∉ ds) (fuel : Nat) {q : Nat} {pre : List UInt8} (hq : q ≠ 0)
    (hpm : Holds mem q pre) (hxm : mem (q + pre.length) = 0) (hpre : ∀ b ∈ pre, b ∈ ds)
    (hf : pre.length < fuel) :
    strtokR mem 0 (ds ++ [0]) q fuel = some (mem, 0, q + pre.length) := by
  have hskip : skipDelims mem (ds ++ [0]) fuel q = some (q + pre.length) :=
    skipDelims_run hds pre hpm hpre (.inl hxm) hf
  simp [strtokR, hq, hskip, hxm]

end Strtok

/-! ## The abstract tokens -/

section Tokens
variable {d : UInt8 → Bool}

theorem exists_span (P : UInt8 → Bool) : ∀ cs : List UInt8,
    ∃ xs ys, cs = xs ++ ys ∧ (∀ b ∈ xs, P b = true) ∧ ∀ c ∈ ys.head?, P c = false
  | [] => ⟨[], [], rfl, by simp, by simp⟩
  | b :: bs => by
    cases hb : P b
    · exact ⟨[], b :: bs, rfl, by simp, by simpa using hb⟩
    · obtain ⟨xs, ys, rfl, hxs, hys⟩ := exists_span P bs
      refine ⟨b :: xs, ys, rfl, fun c hc => ?_, hys⟩
      rcases List.mem_cons.mp hc with rfl | hc
      · exact hb
      · exact hxs c hc

theorem tokensAcc_delims (rest : List UInt8) :
    ∀ pre : List UInt8, (∀ b ∈ pre, d b = true) → tokensAcc d [] (pre ++ rest) = tokensAcc d [] rest
  | [], _ => rfl
  | b :: pre, h => by
    rw [List.cons_append, tokensAcc, if_pos (h b (List.mem_cons_self ..)), if_pos rfl]
    exact tokensAcc_delims rest pre fun c hc => h c (List.mem_cons_of_mem b hc)

theorem tokensAcc_token (rest : List UInt8) :
    ∀ (tok acc : List UInt8), (∀ b ∈ tok, d b = false) →
      tokensAcc d acc (tok ++ rest) = tokensAcc d (tok.reverse ++ acc) rest
  | [], _, _ => rfl
  | b :: tok, acc, h => by
    rw [List.cons_append, tokensAcc, if_neg (by simp [h b (List.mem_cons_self ..)]),
      tokensAcc_token rest tok (b :: acc) fun c hc => h c (List.mem_cons_of_mem b hc)]
    simp

theorem exists_chunk (ds cs : List UInt8) : (∀ b ∈ cs, b ∈ ds) ∨
    ∃ pre tok rest, cs = pre ++ tok ++ rest ∧ (∀ b ∈ pre, b ∈ ds) ∧ tok ≠ [] ∧
      (∀ b ∈ tok, b ∉ ds) ∧ ∀ y ∈ rest.head?, y ∈ ds := by
  obtain ⟨pre, rest, rfl, hpre, hrest⟩ := exists_span (fun b => decide (b ∈ ds)) cs
  cases rest with
  | nil => exact .inl fun b hb => by simpa using hpre b (by simpa using hb)
  | cons c rest =>
    obtain ⟨tok', after, rfl, htok, hafter⟩ := exists_span (fun b => !decide (b ∈ ds)) rest
    refine .inr ⟨pre, c :: tok', after, by simp, fun b hb => by simpa using hpre b hb,
      List.cons_ne_nil c tok', fun b hb => ?_, fun y hy => by simpa using hafter y hy⟩
    rcases List.mem_cons.mp hb with rfl | hb
    · simpa using hrest b rfl
    · simpa using htok b hb

theorem tokens_cons {pre tok rest : List UInt8} (hpre : ∀ b ∈ pre, d b = true)
    (htok : ∀ b ∈ tok, d b = false) (hne : tok ≠ []) (hrest : ∀ y ∈ rest.head?, d y = true) :
    tokens d (pre ++ tok ++ rest) = tok :: tokens d rest.tail := by
  have hacc : tok.reverse ≠ [] := by simpa using hne
  unfold tokens
  rw [List.append_assoc, tokensAcc_delims _ pre hpre, tokensAcc_token rest tok [] htok,
    List.append_nil]
  cases rest with
  | nil => simp [tokensAcc, hacc]
  | cons y rest => simp [tokensAcc, hrest y rfl, hacc]

theorem tokens_delims {pre : List UInt8} (hpre : ∀ b ∈ pre, d b = true) : tokens d pre = [] := by
  have := tokensAcc_delims [] pre hpre
  rw [List.append_nil] at this
  rw [tokens, this]
  rfl

theorem spansAcc_delims (rest : List UInt8) : ∀ (pre : List UInt8) (i : Nat),
    (∀ b ∈ pre, d b = true) → spansAcc d i [] (pre ++ rest) = spansAcc d (i + pre.length) [] rest
  | [], i, _ => rfl
  | b :: pre, i, h => by
    rw [List.cons_append, spansAcc, if_pos (h b (List.mem_cons_self ..)), if_pos rfl,
      spansAcc_delims rest pre (i + 1) fun c hc => h c (List.mem_cons_of_mem b hc)]
    simp only [List.length_cons]
    congr 1
    omega

theorem spansAcc_token (rest : List UInt8) : ∀ (tok : List UInt8) (i : Nat) (acc : List UInt8),
    (∀ b ∈ tok, d b = false) →
      spansAcc d i acc (tok ++ rest) = spansAcc d (i + tok.length) (tok.reverse ++ acc) rest
  | [], _, _, _ => rfl
  | b :: tok, i, acc, h => by
    rw [List.cons_append, spansAcc, if_neg (by simp [h b (List.mem_cons_self ..)]),
      spansAcc_token rest tok (i + 1) (b :: acc) fun c hc => h c (List.mem_cons_of_mem b hc)]
    simp only [List.length_cons, List.reverse_cons, List.append_assoc, List.singleton_append]
    congr 1
    omega

/-- A run of delimiters, a token, and a delimiter or the end: the token comes first, at the
address after the delimiters. -/
theorem spans_cons {pre tok rest : List UInt8} (i : Nat) (hpre : ∀ b ∈ pre, d b = true)
    (htok : ∀ b ∈ tok, d b = false) (hne : tok ≠ []) (hrest : ∀ y ∈ rest.head?, d y = true) :
    spans d i (pre ++ tok ++ rest) =
      (i + pre.length, tok) :: spans d (i + pre.length + tok.length + 1) rest.tail := by
  have hacc : tok.reverse ≠ [] := by simpa using hne
  unfold spans
  rw [List.append_assoc, spansAcc_delims _ pre i hpre, spansAcc_token rest tok _ [] htok,
    List.append_nil]
  cases rest with
  | nil => simp [spansAcc, hacc]
  | cons y rest => simp [spansAcc, hrest y rfl, hacc]

theorem spans_delims {pre : List UInt8} (i : Nat) (hpre : ∀ b ∈ pre, d b = true) :
    spans d i pre = [] := by
  have := spansAcc_delims [] pre i hpre
  rw [List.append_nil] at this
  rw [spans, this]
  rfl

end Tokens

/-! ## A sequence of calls -/

section Tokenize
variable {ds : List UInt8}

theorem strtokCalls_start {mem : Mem} {p : Nat} (hp : p ≠ 0) (savePtr fuel n : Nat) :
    strtokCalls mem p (ds ++ [0]) savePtr fuel (n + 1) =
      strtokCalls mem 0 (ds ++ [0]) p fuel (n + 1) := by
  rw [strtokCalls, strtokCalls, strtokR_start, if_neg hp]

/-- The calls after the first, from a save pointer `q` at a string: the `i`-th returns the
address of the `i`-th token, or `NULL` once the tokens are used up, each token is left
terminated in place, and no byte outside the string's is written. -/
theorem strtokCalls_spans (hds : 0 ∉ ds) : ∀ (n fuel : Nat) {mem : Mem} {q : Nat}
    {cs : List UInt8}, q ≠ 0 → 0 ∉ cs → Holds mem q (cs ++ [0]) → cs.length < fuel →
      ∃ mem' ts, strtokCalls mem 0 (ds ++ [0]) q fuel n = some (mem', ts) ∧
        ts = (List.range n).map (fun i => ((spans (· ∈ ds) q cs).map Prod.fst)[i]?.getD 0) ∧
        List.Forall₂ (fun p t => Holds mem' p (t ++ [0]))
          (((spans (· ∈ ds) q cs).map Prod.fst).take n) ((tokens (· ∈ ds) cs).take n) ∧
        ∀ a, a < q ∨ q + cs.length ≤ a → mem' a = mem a
  | 0, _, _, _, _, _, _, _, _ => ⟨_, [], rfl, rfl, by simp, fun _ _ => rfl⟩
  | n + 1, fuel, mem, q, cs, hq, h0, hm, hf => by
    rcases exists_chunk ds cs with hall | ⟨pre, tok, rest, rfl, hpre, hne, htok, hrest⟩
    · -- only delimiters are left: this call and every later one return `NULL`
      obtain ⟨hpm, hxm, -⟩ := holds_append.mp hm
      have hend := strtokR_end hds fuel hq hpm hxm hall hf
      have hd : ∀ b ∈ cs, decide (b ∈ ds) = true := fun b hb => by simpa using hall b hb
      obtain ⟨mem', ts, hrun, hts, -, hframe⟩ := strtokCalls_spans hds n fuel (by omega)
        (List.not_mem_nil) (show Holds mem (q + cs.length) ([] ++ [0]) by simpa [Holds] using hxm)
        (by simp only [List.length_nil]; omega)
      rw [spans_delims _ hd, tokens_delims hd]
      refine ⟨mem', 0 :: ts, by simp [strtokCalls, hend, hrun], ?_, by simp, fun a ha => ?_⟩
      · rw [hts, List.range_succ_eq_map]
        simp [spans, spansAcc, Function.comp_def, List.map_const']
      · exact hframe a (by simp; omega)
    · have hpred : ∀ b ∈ pre, decide (b ∈ ds) = true := fun b hb => by simpa using hpre b hb
      have htokd : ∀ b ∈ tok, decide (b ∈ ds) = false := fun b hb => by simpa using htok b hb
      have htok0 : ∀ b ∈ tok, b ≠ 0 ∧ b ∉ ds := fun b hb =>
        ⟨fun hb0 => h0 (hb0 ▸ List.mem_append_left _ (List.mem_append_right _ hb)), htok b hb⟩
      have hrestd : ∀ y ∈ rest.head?, decide (y ∈ ds) = true := fun y hy => by
        simpa using hrest y hy
      have hspans := spans_cons q hpred htokd hne hrestd
      have htoks := tokens_cons hpred htokd hne hrestd
      rw [List.append_assoc, List.append_assoc, holds_append, holds_append] at hm
      obtain ⟨hpm, htm, hrm⟩ := hm
      simp only [List.length_append] at hf
      rw [hspans, htoks]
      cases rest with
      | nil =>
        obtain ⟨hxm, -⟩ := hrm
        have hcall := strtokR_token hds fuel hq hpm htm hxm (fun b hb => hpre b hb) htok0 hne
          (.inl rfl) (by omega)
        rw [if_pos rfl] at hcall
        obtain ⟨mem', ts, hrun, hts, -, hframe⟩ := strtokCalls_spans hds n fuel (by omega)
          (List.not_mem_nil)
          (show Holds mem (q + pre.length + tok.length) ([] ++ [0]) by simpa [Holds] using hxm)
          (by simp only [List.length_nil]; omega)
        refine ⟨mem', (q + pre.length) :: ts, by simp [strtokCalls, hcall, hrun], ?_, ?_,
          fun a ha => hframe a (by simp; omega)⟩
        · rw [hts, List.range_succ_eq_map]
          simp [spans, spansAcc, Function.comp_def, List.map_const']
        · have hterm : Holds mem (q + pre.length + tok.length) [0] := ⟨hxm, trivial⟩
          have hkeep : Holds mem' (q + pre.length) (tok ++ [0]) :=
            (holds_append.mpr ⟨htm, hterm⟩).congr fun i _ => hframe _ (by simp; omega)
          simpa [spans, spansAcc, tokens, tokensAcc] using hkeep
      | cons y after =>
        obtain ⟨hxm, hafm⟩ := hrm
        have hy : y ∈ ds := hrest y rfl
        have hy0 : y ≠ 0 := fun h => hds (h ▸ hy)
        have hcall := strtokR_token hds fuel hq hpm htm hxm (fun b hb => hpre b hb) htok0 hne
          (.inr hy) (by omega)
        rw [if_neg hy0] at hcall
        have h0' : 0 ∉ after := fun h => h0 (by simp [h])
        -- the rest of the string is read after the terminator written over `y`
        have hafm' : Holds (Function.update mem (q + pre.length + tok.length) 0)
            (q + pre.length + tok.length + 1) (after ++ [0]) :=
          hafm.update (.inl (Nat.lt_succ_self _))
        obtain ⟨mem', ts, hrun, hts, hall, hframe⟩ := strtokCalls_spans hds n fuel (by omega)
          h0' hafm' (by simp at hf; omega)
        refine ⟨mem', (q + pre.length) :: ts, by simp [strtokCalls, hcall, hrun], ?_,
          .cons ?_ hall, fun a ha => ?_⟩
        · rw [hts, List.range_succ_eq_map]
          simp
        · -- the token and its new terminator lie below the rest
          have htm' : Holds (Function.update mem (q + pre.length + tok.length) 0) (q + pre.length)
              (tok ++ [0]) :=
            holds_append.mpr ⟨htm.update (.inr (by omega)), by simp [Holds]⟩
          exact htm'.congr fun i hi => hframe _ (.inl (by simp at hi; omega))
        · simp only [List.length_append, List.length_cons] at ha
          rw [hframe a (by omega), Function.update_of_ne (by omega)]

/-- `strtok_r (s, d, &save_ptr)` and then calls with `NULL`: the `i`-th call returns the address
of the `i`-th maximal run of non-delimiters of the string, each is left terminated in place, and
once they are used up every call returns `NULL`. -/
theorem strtok_r_tokenises (hds : 0 ∉ ds) {mem : Mem} {p : Nat} {cs : List UInt8}
    (savePtr fuel n : Nat) (hp : p ≠ 0) (h0 : 0 ∉ cs) (hm : Holds mem p (cs ++ [0]))
    (hf : cs.length < fuel) :
    ∃ mem' ts, strtokCalls mem p (ds ++ [0]) savePtr fuel n = some (mem', ts) ∧
      ts = (List.range n).map (fun i => ((spans (· ∈ ds) p cs).map Prod.fst)[i]?.getD 0) ∧
      List.Forall₂ (fun q t => Holds mem' q (t ++ [0]))
        (((spans (· ∈ ds) p cs).map Prod.fst).take n) ((tokens (· ∈ ds) cs).take n) := by
  cases n with
  | zero => exact ⟨mem, [], rfl, rfl, by simp⟩
  | succ n =>
    obtain ⟨mem', ts, hrun, hts, hall, -⟩ := strtokCalls_spans hds (n + 1) fuel hp h0 hm hf
    exact ⟨mem', ts, (strtokCalls_start hp savePtr fuel n).trans hrun, hts, hall⟩

theorem strtok_r_tokenises_words :
    (0 : UInt8) ∉ [32] ∧ (1 : Nat) ≠ 0 ∧ (0 : UInt8) ∉ [97, 32, 32, 98] ∧
      Holds (strMem 1 [97, 32, 32, 98, 0]) 1 ([97, 32, 32, 98] ++ [0]) ∧
      [97, 32, 32, 98].length < 10 ∧
      ∃ mem' ts, strtokCalls (strMem 1 [97, 32, 32, 98, 0]) 1 ([32] ++ [0]) 0 10 4 =
          some (mem', ts) ∧
        ts = (List.range 4).map (fun i =>
          ((spans (· ∈ [32]) 1 [97, 32, 32, 98]).map Prod.fst)[i]?.getD 0) ∧
        List.Forall₂ (fun q t => Holds mem' q (t ++ [0]))
          (((spans (· ∈ [32]) 1 [97, 32, 32, 98]).map Prod.fst).take 4)
          ((tokens (· ∈ [32]) [97, 32, 32, 98]).take 4) :=
  ⟨by decide, by decide, by decide, holds_strMem 1 _, by decide,
    strtok_r_tokenises (by decide) 0 10 4 (by decide) (by decide) (holds_strMem 1 _) (by decide)⟩

example : (List.range 4).map (fun i =>
    ((spans (· ∈ ([32] : List UInt8)) 1 [97, 32, 32, 98]).map Prod.fst)[i]?.getD 0) = [1, 4, 0, 0] := by
  decide

end Tokenize

/-! ## `strnlen` and `strcmp` -/

section Compare
variable {mem : Mem}

theorem strnlenLoop_run {p maxlen : Nat} (t : List UInt8) (hm : Holds mem p (t ++ [0])) (h0 : 0 ∉ t)
    (hmax : t.length ≤ maxlen) :
    ∀ (fuel k : Nat), k ≤ t.length → t.length - k < fuel → strnlenLoop mem p maxlen fuel k = t.length := by
  have hbyte : ∀ k, k ≤ t.length → mem (p + k) = (t ++ [0]).getD k 0 := fun k hk => by
    exact hm.getD k (by simp; omega)
  intro fuel
  induction fuel with
  | zero => intro k _ hf; omega
  | succ fuel ih =>
    intro k hk hf
    rw [strnlenLoop]
    by_cases hend : k = t.length
    · -- the terminator stops the loop
      rw [if_neg (by rw [hbyte k hk, hend]; simp)]
      exact hend
    · have hk' : k < t.length := by omega
      have hne : mem (p + k) ≠ 0 := by
        rw [hbyte k hk, List.getD_eq_getElem?_getD, List.getElem?_append_left hk',
          List.getElem?_eq_getElem hk', Option.getD_some]
        exact fun h => h0 (h ▸ List.getElem_mem hk')
      rw [if_pos ⟨hne, by omega⟩]
      exact ih (k + 1) (by omega) (by omega)

theorem strnlen_eq {p maxlen : Nat} {t : List UInt8} (hm : Holds mem p (t ++ [0])) (h0 : 0 ∉ t)
    (hmax : t.length ≤ maxlen) : strnlen mem p maxlen = t.length :=
  strnlenLoop_run t hm h0 hmax _ 0 (Nat.zero_le _) (by omega)

theorem strcmpFrom_shift (a b : Nat → UInt8) : ∀ (fuel i : Nat),
    strcmpFrom a b fuel (i + 1) = strcmpFrom (fun k => a (k + 1)) (fun k => b (k + 1)) fuel i
  | 0, _ => rfl
  | fuel + 1, i => by
    rw [strcmpFrom, strcmpFrom, strcmpFrom_shift a b fuel (i + 1)]

theorem strcmp_eq_zero_iff : ∀ {a b : List UInt8} {fuel : Nat}, 0 ∉ a → 0 ∉ b → a.length < fuel →
    (strcmp (cstr a) (cstr b) fuel = some 0 ↔ a = b)
  | [], [], _ + 1, _, _, _ => by simp [strcmp, strcmpFrom, cstr]
  | [], y :: b, _ + 1, _, hb, _ => by
    have hy : y ≠ 0 := fun h => hb (h ▸ List.mem_cons_self ..)
    have hpos : (0 : UInt8) < y := UInt8.pos_iff_ne_zero.mpr hy
    simp [strcmp, strcmpFrom, cstr, hpos]
  | x :: a, [], _ + 1, ha, _, _ => by
    have hx : x ≠ 0 := fun h => ha (h ▸ List.mem_cons_self ..)
    have hpos : ¬ x < 0 := UInt8.not_lt_zero
    simp [strcmp, strcmpFrom, cstr, hx, hpos]
  | x :: a, y :: b, fuel + 1, ha, hb, hf => by
    have hx : x ≠ 0 := fun h => ha (h ▸ List.mem_cons_self ..)
    unfold strcmp
    rw [strcmpFrom]
    by_cases hxy : x = y
    · -- equal first bytes: the comparison goes on with the rest
      subst hxy
      rw [if_pos ⟨hx, rfl⟩, strcmpFrom_shift]
      have ih := @strcmp_eq_zero_iff a b fuel (fun h => ha (List.mem_cons_of_mem x h))
        (fun h => hb (List.mem_cons_of_mem x h)) (by simp only [List.length_cons] at hf; omega)
      have hshift : ∀ l : List UInt8, (fun k => cstr (x :: l) (k + 1)) = cstr l := fun _ => rfl
      rw [hshift, hshift]
      exact ih.trans (by simp)
    · have hne : ¬ (cstr (x :: a) 0 ≠ 0 ∧ cstr (x :: a) 0 = cstr (y :: b) 0) := fun h => hxy h.2
      rw [if_neg hne]
      simp only [cstr, List.getD_cons_zero, List.cons.injEq, hxy, false_and, iff_false]
      split_ifs <;> simp
      exact hxy (UInt8.le_antisymm (UInt8.not_lt.mp ‹¬y < x›) (UInt8.not_lt.mp ‹¬x < y›))

end Compare

end Pintos.Str
