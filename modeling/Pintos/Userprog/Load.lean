import Pintos.Str.String
import Pintos.Userprog.Syscall

/-! # `load`: the program name and the argument stack

The part of `load` in `userprog/process.c` that splits the command line and builds the stack
the program starts with. `input_cmd` is a page holding the command line, and `esp` points to
the cell of the interrupt frame that becomes the user's stack pointer; `setup_stack` stores
`PHYS_BASE` there.

* `argLoop`: the loop over the tokens, each pushed as a copy below `sp`.
* `loadArgs`: the whole of it, with the pushes of the pointers, `argc` and the return address.
* `loadArgs_program_only`: for every command line, the loop is given only the program name, and
  the cell `*esp` still holds `PHYS_BASE`, because `sp` starts at `esp` itself and the code ends
  with `esp = sp`, which changes the parameter and not the cell.
-/

namespace Pintos.Userprog
open Pintos.Str
set_option autoImplicit false

/-- `const int arg_limit`. -/
def argLimit : Nat := 256

/-- The literal `" "`, with its terminator. -/
def spaceLit : List UInt8 := [32] ++ [0]

/-- A 32-bit pointer stored at `a`, little-endian. -/
def writeWord (mem : Mem) (a w : Nat) : Mem :=
  Function.update (Function.update (Function.update (Function.update mem
    a (w % 256).toUInt8) (a + 1) (w / 256 % 256).toUInt8) (a + 2) (w / 65536 % 256).toUInt8)
    (a + 3) (w / 16777216 % 256).toUInt8

def readWord (mem : Mem) (a : Nat) : Nat :=
  (mem a).toNat + 256 * (mem (a + 1)).toNat + 65536 * (mem (a + 2)).toNat +
    16777216 * (mem (a + 3)).toNat

/-- `*sp = v` with `sp` a `char *`: one byte, the low one of `v`. -/
def storeChar (mem : Mem) (sp v : Nat) : Mem := Function.update mem sp (v % 256).toUInt8

/-- The `for` loop over the tokens: check the limits, copy the token below `sp`, record it in
`argv`, and ask `strtok_r` for the next one. `strlen (token)` is read three times in the body,
each time before the copy, so once here. -/
def argLoop (fuel : Nat) : Nat → Mem → (sp argc size : Nat) → List Nat → (token savePtr : Nat) →
    Option (Mem × Nat × Nat × List Nat)
  | 0, _, _, _, _, _, _, _ => none
  | k + 1, mem, sp, argc, size, argv, token, savePtr =>
    if token = 0 then some (mem, sp, argc, argv)
    else do
      let len ← strlen mem token fuel
      let size := size + len + 1 + 4
      if argc + 1 = argLimit ∨ size > PGSIZE then none
      let sp := sp - (len + 1)
      let (mem, _) ← strlcpy mem sp token (len + 1) fuel
      let (mem, token, savePtr) ← strtokR mem 0 spaceLit savePtr fuel
      argLoop fuel k mem sp (argc + 1) size (argv ++ [sp]) token savePtr

/-- `while ((int) sp % 4 != 0) sp--;` -/
def alignDown : Nat → Nat → Nat
  | 0, sp => sp
  | k + 1, sp => if sp % 4 ≠ 0 then alignDown k (sp - 1) else sp

/-- `for (i = argc - 1; i >= 0; i--) { sp -= 4; *sp = argv[i]; }`, over `argv` reversed. -/
def pushArgv (mem : Mem) (sp : Nat) : List Nat → Mem × Nat
  | [] => (mem, sp)
  | a :: as => pushArgv (storeChar mem (sp - 4) a) (sp - 4) as

/-- What `load` leaves: the memory, and `argc` and `argv` as the loop counted them. -/
structure Loaded where
  mem : Mem
  argc : Nat
  argv : List Nat

/-- The argument part of `load`, on the path where the executable loads. -/
def loadArgs (mem : Mem) (inputCmd esp fuel : Nat) : Option Loaded := do
  let (mem, fileName, savePtr) ← strtokR mem inputCmd spaceLit 0 fuel
  -- `filesys_open (NULL)` does not open a file
  if fileName = 0 then none
  -- `setup_stack (esp)`
  let mem := writeWord mem esp PHYS_BASE.toNat
  let sp := esp
  let (mem, token, savePtr) ← strtokR mem fileName spaceLit savePtr fuel
  let (mem, sp, argc, argv) ← argLoop fuel fuel mem sp 0 16 [] token savePtr
  let sp := alignDown 4 sp
  let sp := sp - 4
  let mem := storeChar mem sp 0
  let (mem, sp) := pushArgv mem sp argv.reverse
  let sp := sp - 4
  let mem := storeChar mem sp (sp + 4)
  let sp := sp - 4
  let mem := storeChar mem sp argc
  let sp := sp - 4
  let mem := storeChar mem sp 0
  -- `esp = sp;` assigns the parameter
  return ⟨mem, argc, argv⟩

/-! ## The words and the pushes -/

section Frame
variable {mem : Mem}

theorem readWord_writeWord (a : Nat) {w : Nat} (hw : w < 2 ^ 32) :
    readWord (writeWord mem a w) a = w := by
  simp only [readWord, writeWord, Function.update_self,
    Function.update_of_ne (show a + 2 ≠ a + 3 by omega), Function.update_of_ne (show a + 1 ≠ a + 3 by omega),
    Function.update_of_ne (show a + 1 ≠ a + 2 by omega), Function.update_of_ne (show a ≠ a + 3 by omega),
    Function.update_of_ne (show a ≠ a + 2 by omega), Function.update_of_ne (show a ≠ a + 1 by omega),
    Nat.toUInt8_eq, UInt8.toNat_ofNat', Nat.reducePow]
  omega

theorem writeWord_of_ne {a w b : Nat} (h : b < a ∨ a + 4 ≤ b) : writeWord mem a w b = mem b := by
  simp only [writeWord]
  rw [Function.update_of_ne (by omega), Function.update_of_ne (by omega),
    Function.update_of_ne (by omega), Function.update_of_ne (by omega)]

theorem readWord_congr {mem' : Mem} {a : Nat} (h : ∀ i < 4, mem' (a + i) = mem (a + i)) :
    readWord mem' a = readWord mem a := by
  have h0 := h 0 (by omega)
  rw [Nat.add_zero] at h0
  simp only [readWord, h0, h 1 (by omega), h 2 (by omega), h 3 (by omega)]

theorem storeChar_of_lt {sp v a : Nat} (h : sp < a) : storeChar mem sp v a = mem a :=
  Function.update_of_ne (Nat.ne_of_gt h) _ _

theorem alignDown_le : ∀ k sp, alignDown k sp ≤ sp
  | 0, _ => Nat.le_refl _
  | k + 1, sp => by
    unfold alignDown
    split
    · exact Nat.le_trans (alignDown_le k (sp - 1)) (Nat.sub_le sp 1)
    · exact Nat.le_refl _

end Frame

/-! ## The loop -/

section Loop
variable {fuel : Nat} {mem : Mem} {sp argc size : Nat} {argv : List Nat}

theorem argLoop_null (k savePtr : Nat) :
    argLoop fuel (k + 1) mem sp argc size argv 0 savePtr = some (mem, sp, argc, argv) := by
  simp [argLoop]

theorem argLoop_step {k token savePtr len n token' savePtr' : Nat} {mem' mem'' : Mem}
    (htok : token ≠ 0) (hlen : strlen mem token fuel = some len)
    (hfit : ¬(argc + 1 = argLimit ∨ size + len + 1 + 4 > PGSIZE))
    (hcopy : strlcpy mem (sp - (len + 1)) token (len + 1) fuel = some (mem', n))
    (hnext : strtokR mem' 0 spaceLit savePtr fuel = some (mem'', token', savePtr')) :
    argLoop fuel (k + 1) mem sp argc size argv token savePtr =
      argLoop fuel k mem'' (sp - (len + 1)) (argc + 1) (size + len + 1 + 4)
        (argv ++ [sp - (len + 1)]) token' savePtr' := by
  simp only [argLoop, if_neg htok, hlen, Option.bind_eq_bind, Option.bind_some, if_neg hfit,
    hcopy, hnext]

end Loop

/-! ## Only the program name is pushed -/

section Program

/-- For every command line with a first token `t` that fits the page, and a page for the command
line apart from the stack words: `load` copies only `t`, just below the cell `esp`, counts one
argument, and leaves `PHYS_BASE` in `*esp`. -/
theorem loadArgs_program_only {mem : Mem} {inputCmd esp fuel : Nat} {cs t : List UInt8}
    {ts : List (List UInt8)} (hcmd : inputCmd ≠ 0) (h0 : 0 ∉ cs)
    (hm : Holds mem inputCmd (cs ++ [0])) (htoks : tokens (· ∈ [32]) cs = t :: ts)
    (hf : cs.length < fuel) (hlen : t.length + 21 ≤ PGSIZE) (hesp : PGSIZE ≤ esp)
    (hdisj : inputCmd + cs.length < esp - PGSIZE ∨ esp + 4 ≤ inputCmd) :
    ∃ r, loadArgs mem inputCmd esp fuel = some r ∧ r.argc = 1 ∧
      r.argv = [esp - (t.length + 1)] ∧ Holds r.mem (esp - (t.length + 1)) (t ++ [0]) ∧
      readWord r.mem esp = PHYS_BASE.toNat := by
  have hds : (0 : UInt8) ∉ [32] := by decide
  unfold PGSIZE at hlen hesp hdisj
  rcases exists_chunk [32] cs with hall | ⟨pre, tok, rest, rfl, hpre, hne, htok, hrest⟩
  · rw [tokens_delims (by simpa using hall)] at htoks
    exact absurd htoks.symm (List.cons_ne_nil _ _)
  have hpred : ∀ b ∈ pre, decide (b ∈ [32]) = true := fun b hb => by simpa using hpre b hb
  have htokd : ∀ b ∈ tok, decide (b ∈ [32]) = false := fun b hb => by simpa using htok b hb
  have htt : t = tok :=
    (List.cons.inj ((tokens_cons hpred htokd hne (by simpa using hrest)).symm.trans htoks)).1.symm
  subst htt
  have ht0 : ∀ b ∈ t, b ≠ 0 ∧ b ∉ [32] := fun b hb =>
    ⟨fun hb0 => h0 (by rw [← hb0]; simp [hb]), htok b hb⟩
  have h0t : 0 ∉ t := fun h => (ht0 0 h).1 rfl
  simp only [List.length_append] at hf hdisj
  rw [List.append_assoc, List.append_assoc, holds_append, holds_append] at hm
  obtain ⟨hpm, htm, hrm⟩ := hm
  have hx : mem (inputCmd + pre.length + t.length) = 0 ∨
      mem (inputCmd + pre.length + t.length) ∈ [32] := by
    cases rest with
    | nil => exact .inl hrm.1
    | cons y after => exact .inr (hrm.1 ▸ hrest y rfl)
  obtain ⟨mem1, save1, hcall1, hheld1, -⟩ :=
    strtokR_token_holds hds fuel hcmd hpm htm rfl hpre ht0 hne hx (by omega)
  have hfirst : strtokR mem inputCmd spaceLit 0 fuel = some (mem1, inputCmd + pre.length, save1) := by
    rw [spaceLit, strtokR_start, if_neg hcmd]
    exact hcall1
  have hfn : inputCmd + pre.length ≠ 0 := by omega
  have hheld2 : Holds (writeWord mem1 esp PHYS_BASE.toNat) (inputCmd + pre.length) (t ++ [0]) := by
    refine hheld1.congr fun i hi => writeWord_of_ne ?_
    simp only [List.length_append, List.length_cons, List.length_nil] at hi
    omega
  obtain ⟨htm2, hxm2, -⟩ := holds_append.mp hheld2
  -- the loop restarts at the program name, which the first call has already terminated
  have hsecond : strtokR (writeWord mem1 esp PHYS_BASE.toNat) (inputCmd + pre.length) spaceLit
      save1 fuel = some (writeWord mem1 esp PHYS_BASE.toNat, inputCmd + pre.length,
        inputCmd + pre.length + t.length) := by
    rw [spaceLit, strtokR_start, if_neg hfn, strtokR_token hds fuel hfn (show Holds _ _ [] from trivial)
      (by simpa using htm2) (by simpa using hxm2) (by simp) ht0 hne (.inl rfl) (by simp; omega)]
    simp
  obtain ⟨f, rfl⟩ : ∃ f, fuel = f + 2 := ⟨fuel - 2, by have := List.length_pos_of_ne_nil hne; omega⟩
  have hov : inputCmd + pre.length + t.length < esp - (t.length + 1) ∨
      esp - (t.length + 1) + t.length < inputCmd + pre.length := by omega
  obtain ⟨mem3, hcopy, hheld3, hframe3⟩ := strlcpy_spec hheld2 h0t (show t.length < f + 2 by omega) hov
  have hend : strtokR mem3 0 spaceLit (inputCmd + pre.length + t.length) (f + 2) =
      some (mem3, 0, inputCmd + pre.length + t.length) := by
    have hz : mem3 (inputCmd + pre.length + t.length) = 0 := by
      rw [hframe3 _ (by omega)]
      exact hxm2
    rw [spaceLit]
    simpa using strtokR_end hds (f + 2) (by omega) (show Holds _ _ [] from trivial)
      (by simpa using hz) (by simp) (by simp)
  have hloop : argLoop (f + 2) (f + 2) (writeWord mem1 esp PHYS_BASE.toNat) esp 0 16 []
      (inputCmd + pre.length) (inputCmd + pre.length + t.length) =
      some (mem3, esp - (t.length + 1), 1, [esp - (t.length + 1)]) := by
    have hfit : ¬(0 + 1 = argLimit ∨ 16 + t.length + 1 + 4 > PGSIZE) := by
      simp only [argLimit, PGSIZE]
      omega
    rw [argLoop_step hfn (strlen_eq hheld2 h0t (by omega)) hfit hcopy hend, argLoop_null]
    simp
  simp only [loadArgs, hfirst, Option.bind_eq_bind, Option.bind_some, if_neg hfn, hsecond, hloop,
    List.reverse_singleton, pushArgv]
  have hal := alignDown_le 4 (esp - (t.length + 1))
  refine ⟨_, rfl, rfl, rfl, hheld3.congr fun i _ => ?_, ?_⟩
  · simp (disch := omega) only [storeChar_of_lt]
  · calc readWord _ esp = readWord (writeWord mem1 esp PHYS_BASE.toNat) esp :=
          readWord_congr fun i _ => by
            simp (disch := omega) only [storeChar_of_lt]
            exact hframe3 _ (by omega)
      _ = PHYS_BASE.toNat := readWord_writeWord esp (UInt32.toNat_lt _)

/-- `prog a` has two tokens, and `load` counts one. -/
theorem loadArgs_program_only_prog_a :
    (tokens (· ∈ [32]) [112, 114, 111, 103, 32, 97]).length = 2 ∧
      ∃ r, loadArgs (strMem 100 ([112, 114, 111, 103, 32, 97] ++ [0])) 100 8192 10 = some r ∧
        r.argc = 1 ∧ readWord r.mem 8192 = PHYS_BASE.toNat := by
  have htoks : tokens (· ∈ [32]) [112, 114, 111, 103, 32, 97] = [[112, 114, 111, 103], [97]] := by
    decide
  have h : ∃ r, loadArgs (strMem 100 ([112, 114, 111, 103, 32, 97] ++ [0])) 100 8192 10 = some r ∧
      r.argc = 1 ∧ r.argv = [8192 - (([112, 114, 111, 103] : List UInt8).length + 1)] ∧
      Holds r.mem (8192 - (([112, 114, 111, 103] : List UInt8).length + 1))
        ([112, 114, 111, 103] ++ [0]) ∧ readWord r.mem 8192 = PHYS_BASE.toNat :=
    loadArgs_program_only (by decide) (by decide) (holds_strMem 100 _) htoks (by decide) (by decide)
      (by decide) (by decide)
  obtain ⟨r, hr, hargc, -, -, hesp⟩ := h
  exact ⟨by rw [htoks]; rfl, r, hr, hargc, hesp⟩

end Program

end Pintos.Userprog
