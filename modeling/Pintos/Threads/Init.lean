import Pintos.Str.String
import Pintos.Libc.Stdlib
import Pintos.Libc.Random

/-! # `threads/init.c`: the kernel command line

`make_kernel_command_line` of `utils/Pintos.pm` writes the command line into the boot sector:
the number of arguments as a 32-bit word at `LOADER_ARG_CNT`, then the arguments, each ended by
a terminator, in the 128 bytes from `LOADER_ARGS`. In `main`, `read_command_line` finds the
arguments again, `parse_options` applies the options that lead the line, and, once the kernel is
up, `run_actions` runs the actions that follow. `PANIC`, `usage ()`, and what C leaves undefined
(a store past the end of `argv`, the overflow of `atoi`) end the kernel (`Halt`). The functions of
the actions are calls out of the model, recorded with the arguments they get; `halts` says which
calls end the kernel, as `run_test` does on an unknown test and `fsutil_cat` on a missing file.

* `read_command_line_round_trip`: `read_command_line` finds every argument list of at most 64
  arguments that the script writes, and stores past the end of `argv` for a longer one.
* `parse_options_script_split`: `parse_options` takes exactly the options the script put first,
  so the kernel is left with `extract`, the other arguments and the `append`s.
* `parse_options_shutdown`: the last of `-q` and `-r` decides the shutdown.
* `parse_options_seed_ignored`: the `random_init (rtc_get_time ())` after the loop replaces
  whatever `-rs` set, though the comment before it says the reverse.
* `run_actions_iff`, `run_actions_halt`: `run_actions` ends without a panic exactly on the lines
  made of known actions with their arguments whose calls return, runs those in order, and
  otherwise stops at the first name it does not know, the first action short of arguments, or
  the first call that does not return.
-/

namespace Pintos.Init
set_option autoImplicit false
open Pintos.Str (Mem Holds strnlen strcmp cstr strchr)
open Pintos.Libc (Arg bytes chr atoi Random randomInit)

def LOADER_END : Nat := 0x7e00
def LOADER_SIG_LEN : Nat := 2
def LOADER_PARTS_LEN : Nat := 64
def LOADER_ARGS_LEN : Nat := 128
def LOADER_ARG_CNT_LEN : Nat := 4
def LOADER_PHYS_BASE : Nat := 0xc0000000

def LOADER_SIG : Nat := LOADER_END - LOADER_SIG_LEN
def LOADER_PARTS : Nat := LOADER_SIG - LOADER_PARTS_LEN
def LOADER_ARGS : Nat := LOADER_PARTS - LOADER_ARGS_LEN
def LOADER_ARG_CNT : Nat := LOADER_ARGS - LOADER_ARG_CNT_LEN

/-- `ptov (LOADER_ARG_CNT)`. -/
def argCntAddr : Nat := LOADER_ARG_CNT + LOADER_PHYS_BASE

/-- `ptov (LOADER_ARGS)`. -/
def argsAddr : Nat := LOADER_ARGS + LOADER_PHYS_BASE

/-- How the kernel stops: a `PANIC` with its format and arguments, `usage ()`, which prints the
help and powers off, or behaviour C leaves undefined. -/
inductive Halt
  | panic (format : List UInt8) (args : List Arg)
  | usage
  | undefined

/-! ## The script's side -/

/-- `pack ("V", n)`: a 32-bit word, least significant byte first. -/
def packV (n : Nat) : List UInt8 :=
  [n.toUInt8, (n / 256).toUInt8, (n / 65536).toUInt8, (n / 16777216).toUInt8]

/-- `make_kernel_command_line (@args)`: the 132 bytes from `LOADER_ARG_CNT` on. -/
def makeKernelCommandLine (args : List (List UInt8)) : Except String (List UInt8) :=
  let joined := (args.map (· ++ [0])).flatten
  if joined.length > 128 then .error "command line exceeds 128 bytes"
  else .ok (packV args.length ++ joined ++ List.replicate (128 - joined.length) 0)

/-- The kernel arguments `utils/pintos` assembles: the leading options, `extract` if files are
put on the scratch disk, the rest of its arguments, and `append FILE` for each file to get. -/
def scriptArgs (kernelArgs : List (List UInt8)) (puts : Bool) (gets : List (List UInt8)) :
    List (List UInt8) :=
  kernelArgs.takeWhile (·.head? = some (chr '-')) ++ (if puts then [bytes "extract"] else []) ++
    kernelArgs.dropWhile (·.head? = some (chr '-')) ++ gets.flatMap (fun f => [bytes "append", f])

/-! ## `read_command_line` -/

/-- `*(uint32_t *) p`. -/
def load32 (mem : Mem) (p : Nat) : Nat :=
  (mem p).toNat + 256 * (mem (p + 1)).toNat + 65536 * (mem (p + 2)).toNat +
    16777216 * (mem (p + 3)).toNat

/-- The entries of the static `argv[LOADER_ARGS_LEN / 2 + 1]` of `read_command_line`. -/
def ARGV_SIZE : Nat := LOADER_ARGS_LEN / 2 + 1

/-- The loop of `read_command_line` with `n` arguments to go, the next at `p` and stored in
`argv[i]`, then `argv[argc] = NULL`: the addresses stored. -/
def readArgs (mem : Mem) (limit : Nat) : Nat → Nat → Nat → Except Halt (List Nat)
  | 0, _, i => if i < ARGV_SIZE then .ok [] else .error .undefined
  | n + 1, p, i =>
    if p ≥ limit then .error (.panic (bytes "command line arguments overflow") [])
    else if i < ARGV_SIZE then do
      let ps ← readArgs mem limit n (p + strnlen mem p (limit - p) + 1) (i + 1)
      return p :: ps
    else .error .undefined

/-- `read_command_line`: `argv[0]` to `argv[argc - 1]`. -/
def readCommandLine (mem : Mem) : Except Halt (List Nat) :=
  readArgs mem (argsAddr + LOADER_ARGS_LEN) (load32 mem argCntAddr) argsAddr 0

/-! ## `parse_options` -/

/-- The build: which of `USERPROG`, `FILESYS` and `VM` are defined. -/
structure Config where
  userprog : Bool
  filesys : Bool
  vm : Bool

inductive ShutdownType
  | none
  | powerOff
  | reboot
deriving DecidableEq, Repr

/-- What the options set: `how` of `devices/shutdown.c`, the statics of `init.c`, the state of
`lib/random.c` and `thread_mlfqs`. -/
structure Globals where
  how : ShutdownType
  formatFilesys : Bool
  filesysBdevName : Option (List UInt8)
  scratchBdevName : Option (List UInt8)
  swapBdevName : Option (List UInt8)
  random : Random
  threadMlfqs : Bool
  userPageLimit : Nat

/-- At boot: `user_page_limit` is `SIZE_MAX`, the rest zero. -/
def Globals.boot : Globals := ⟨.none, false, none, none, none, Random.boot, false, 2 ^ 32 - 1⟩

/-- What `name = strtok_r (*argv, "=", &save_ptr)` and `value = strtok_r (NULL, "", &save_ptr)`
return for an argument that starts with `-`: the bytes before its first `=`, and those after it
if there are any (`strtokR_option`). -/
def strtokOption (arg : List UInt8) : List UInt8 × Option (List UInt8) :=
  let rest := (arg.dropWhile (· ≠ chr '=')).drop 1
  (arg.takeWhile (· ≠ chr '='), if rest = [] then none else some rest)

/-- `!strcmp (a, lit)`. -/
def streq (a : List UInt8) (lit : String) : Bool :=
  strcmp (cstr a) (cstr (bytes lit)) (a.length + 1) == some 0

/-- `atoi (value)`: its assertion that `value` is not `NULL`, and the overflow it leaves
undefined. -/
def atoiValue : Option (List UInt8) → Except Halt Int
  | none => .error (.panic (bytes "assertion `%s\x27 failed.") [.str (some (bytes "s != NULL"))])
  | some v =>
    match atoi (v ++ [0]) with
    | some n => .ok n
    | none => .error .undefined

/-- An `int` converted to `unsigned` or `size_t`. -/
def toUnsigned (n : Int) : Nat := (n % 2 ^ 32).toNat

/-- The body of the loop of `parse_options`, for the option `arg`; a halt keeps what was set. -/
def parseOption (cfg : Config) (g : Globals) (arg : List UInt8) : Except (Halt × Globals) Globals :=
  let (name, value) := strtokOption arg
  if streq name "-h" then .error (.usage, g)
  else if streq name "-q" then .ok { g with how := .powerOff }
  else if streq name "-r" then .ok { g with how := .reboot }
  else if cfg.filesys && streq name "-f" then .ok { g with formatFilesys := true }
  else if cfg.filesys && streq name "-filesys" then .ok { g with filesysBdevName := value }
  else if cfg.filesys && streq name "-scratch" then .ok { g with scratchBdevName := value }
  else if cfg.filesys && cfg.vm && streq name "-swap" then .ok { g with swapBdevName := value }
  else if streq name "-rs" then
    ((atoiValue value).mapError (·, g)).map fun n =>
      { g with random := randomInit g.random (toUnsigned n).toUInt32 }
  else if streq name "-mlfqs" then .ok { g with threadMlfqs := true }
  else if cfg.userprog && streq name "-ul" then
    ((atoiValue value).mapError (·, g)).map fun n => { g with userPageLimit := toUnsigned n }
  else .error (.panic (bytes "unknown option `%s\x27 (use -h for help)") [.str (some name)], g)

/-- `for (; *argv != NULL && **argv == '-'; argv++)`. -/
def parseOptionsLoop (cfg : Config) :
    Globals → List (List UInt8) → Except (Halt × Globals) (Globals × List (List UInt8))
  | g, [] => .ok (g, [])
  | g, arg :: argv =>
    if arg.head? = some (chr '-') then
      match parseOption cfg g arg with
      | .ok g => parseOptionsLoop cfg g argv
      | .error e => .error e
    else .ok (g, arg :: argv)

/-- `parse_options (argv)`, `rtc_get_time ()` returning `time`. -/
def parseOptions (cfg : Config) (time : Nat) (g : Globals) (argv : List (List UInt8)) :
    Except (Halt × Globals) (Globals × List (List UInt8)) :=
  (parseOptionsLoop cfg g argv).map fun r =>
    ({ r.1 with random := randomInit r.1.random time.toUInt32 }, r.2)

/-! ## `run_actions` -/

inductive ActionFn
  | runTask
  | fsutilLs
  | fsutilCat
  | fsutilRm
  | fsutilExtract
  | fsutilAppend
deriving DecidableEq, Repr

/-- `struct action`. -/
structure Action where
  name : String
  argc : Nat
  function : ActionFn

/-- A call of an action's function, with `argv[0]` to `argv[a->argc - 1]`. -/
abbrev Call := ActionFn × List (List UInt8)

section ReadCommandLine
variable {mem : Mem}

theorem argsAddr_eq : argsAddr = argCntAddr + 4 := rfl

theorem load32_packV {p n : Nat} (hm : Holds mem p (packV n)) (hn : n < 2 ^ 32) : load32 mem p = n := by
  obtain ⟨h0, h1, h2, h3, -⟩ := hm
  unfold load32
  rw [h0, h1, h2, h3]
  simp only [Nat.toUInt8_eq, UInt8.toNat_ofNat']
  omega

/-- Each argument that ends before the limit is found with `strnlen`, and the next one after its
terminator; they are stored unless `argv` runs out first. -/
theorem readArgs_joined {limit : Nat} : ∀ (args : List (List UInt8)) {p i : Nat},
    (∀ a ∈ args, 0 ∉ a) → Holds mem p (args.map (· ++ [0])).flatten →
      p + ((args.map (· ++ [0])).flatten).length ≤ limit →
      ∃ ps, List.Forall₂ (fun q a => Holds mem q (a ++ [0])) ps args ∧
        readArgs mem limit args.length p i =
          if i + args.length < ARGV_SIZE then .ok ps else .error .undefined
  | [], _, _, _, _, _ => ⟨[], .nil, rfl⟩
  | a :: args, p, i, hnul, hm, hlim => by
    simp only [List.map_cons, List.flatten_cons, List.length_append, List.length_cons,
      List.length_nil] at hm hlim
    obtain ⟨ha, hrest⟩ := Pintos.Str.holds_append.mp hm
    have hlen : strnlen mem p (limit - p) = a.length :=
      Pintos.Str.strnlen_eq ha (hnul a List.mem_cons_self) (by omega)
    rw [List.length_append, List.length_singleton, ← Nat.add_assoc] at hrest
    have hlt : p < limit := by omega
    have hnext : p + a.length + 1 + ((args.map (· ++ [0])).flatten).length ≤ limit := by omega
    obtain ⟨ps, hall, hps⟩ :=
      readArgs_joined args (i := i + 1) (fun b hb => hnul b (List.mem_cons_of_mem a hb)) hrest hnext
    refine ⟨p :: ps, .cons ha hall, ?_⟩
    rw [List.length_cons, readArgs, if_neg (Nat.not_le.mpr hlt), hlen]
    by_cases hi : i < ARGV_SIZE
    · rw [if_pos hi, hps]
      by_cases hfit : i + 1 + args.length < ARGV_SIZE
      · rw [if_pos hfit, if_pos (by omega)]
        rfl
      · rw [if_neg hfit, if_neg (by omega)]
        rfl
    · rw [if_neg hi, if_neg (by omega)]

theorem length_le_joined : ∀ args : List (List UInt8),
    args.length ≤ ((args.map (· ++ [0])).flatten).length
  | [] => Nat.le_refl 0
  | a :: args => by
    have := length_le_joined args
    simp only [List.map_cons, List.flatten_cons, List.length_append, List.length_cons]
    omega

theorem read_command_line_round_trip {args : List (List UInt8)} {block : List UInt8}
    (hnul : ∀ a ∈ args, 0 ∉ a) (hmake : makeKernelCommandLine args = .ok block)
    (hmem : Holds mem argCntAddr block) :
    ∃ ps, List.Forall₂ (fun p a => Holds mem p (a ++ [0])) ps args ∧
      readCommandLine mem = if args.length < ARGV_SIZE then .ok ps else .error .undefined := by
  unfold makeKernelCommandLine at hmake
  dsimp only at hmake
  split at hmake
  · cases hmake
  case isFalse hfit =>
    cases hmake
    -- every argument takes at least its terminator, so there are at most 128 of them
    have hcnt := length_le_joined args
    rw [List.append_assoc] at hmem
    obtain ⟨hcount, hargs⟩ := Pintos.Str.holds_append.mp hmem
    obtain ⟨hjoined, -⟩ := Pintos.Str.holds_append.mp hargs
    unfold readCommandLine
    rw [load32_packV hcount (by omega)]
    simpa using readArgs_joined args (i := 0) hnul (by simpa [argsAddr_eq, packV] using hjoined)
      (by simp only [LOADER_ARGS_LEN]; omega)

/-- Sixty-five empty arguments fit in the 128 bytes, and the last one is stored past `argv`. -/
theorem read_command_line_round_trip_empty :
    let block := packV 65 ++ List.replicate 65 0 ++ List.replicate 63 0
    ∃ ps, List.Forall₂ (fun p a => Holds (Pintos.Str.strMem argCntAddr block) p (a ++ [0])) ps
        (List.replicate 65 []) ∧
      readCommandLine (Pintos.Str.strMem argCntAddr block) =
        if (List.replicate 65 ([] : List UInt8)).length < ARGV_SIZE then .ok ps
        else .error .undefined := by
  intro block
  exact read_command_line_round_trip (by decide) rfl (Pintos.Str.holds_strMem argCntAddr block)

end ReadCommandLine

/-! ## `parse_options` -/

section ParseOptions
variable {cfg : Config} {time : Nat} {g g' : Globals} {argv rest : List (List UInt8)}

theorem parseOptionsLoop_rest : ∀ (argv : List (List UInt8)) {g g' : Globals} {rest : List (List UInt8)},
    parseOptionsLoop cfg g argv = .ok (g', rest) → rest = argv.dropWhile (·.head? = some (chr '-'))
  | [], _, _, _, h => by
    cases h
    rfl
  | arg :: argv, _, _, _, h => by
    unfold parseOptionsLoop at h
    by_cases hd : arg.head? = some (chr '-')
    · rw [if_pos hd] at h
      split at h
      · rw [List.dropWhile_cons_of_pos (by simpa using hd)]
        exact parseOptionsLoop_rest argv h
      · cases h
    · rw [if_neg hd] at h
      cases h
      rw [List.dropWhile_cons_of_neg (by simpa using hd)]

theorem parseOptions_ok (h : parseOptions cfg time g argv = .ok (g', rest)) :
    ∃ g₁, parseOptionsLoop cfg g argv = .ok (g₁, rest) ∧
      g' = { g₁ with random := randomInit g₁.random time.toUInt32 } := by
  unfold parseOptions at h
  cases hl : parseOptionsLoop cfg g argv with
  | error e => rw [hl] at h; cases h
  | ok r =>
    rw [hl] at h
    cases h
    exact ⟨r.1, rfl, rfl⟩

theorem streq_iff {a : List UInt8} (lit : String) (ha : 0 ∉ a) (hl : 0 ∉ bytes lit) :
    streq a lit = true ↔ a = bytes lit := by
  unfold streq
  rw [beq_iff_eq]
  exact Pintos.Str.strcmp_eq_zero_iff ha hl (Nat.lt_succ_self _)

theorem strtokOption_cases : ∀ arg : List UInt8,
    (chr '=' ∉ arg ∧ strtokOption arg = (arg, none)) ∨
      ∃ name v, arg = name ++ chr '=' :: v ∧ chr '=' ∉ name ∧
        strtokOption arg = (name, if v = [] then none else some v)
  | [] => .inl ⟨List.not_mem_nil, rfl⟩
  | b :: arg => by
    by_cases hb : b = chr '='
    · subst hb
      refine .inr ⟨[], arg, rfl, List.not_mem_nil, ?_⟩
      dsimp only [strtokOption]
      rw [List.takeWhile_cons_of_neg (by simp), List.dropWhile_cons_of_neg (by simp)]
      rfl
    · -- the name goes on past `b`
      have htake : ∀ l : List UInt8, (b :: l).takeWhile (· ≠ chr '=') = b :: l.takeWhile (· ≠ chr '=') :=
        fun _ => List.takeWhile_cons_of_pos (by simpa using hb)
      have hdrop : ∀ l : List UInt8, (b :: l).dropWhile (· ≠ chr '=') = l.dropWhile (· ≠ chr '=') :=
        fun _ => List.dropWhile_cons_of_pos (by simpa using hb)
      rcases strtokOption_cases arg with ⟨hno, hopt⟩ | ⟨name, v, rfl, hname, hopt⟩
      · refine .inl ⟨?_, ?_⟩
        · simp only [List.mem_cons, not_or]
          exact ⟨Ne.symm hb, hno⟩
        · dsimp only [strtokOption] at hopt ⊢
          rw [htake, hdrop]
          obtain ⟨h1, h2⟩ := Prod.mk.inj hopt
          rw [h1, h2]
      · refine .inr ⟨b :: name, v, rfl, ?_, ?_⟩
        · simp only [List.mem_cons, not_or]
          exact ⟨Ne.symm hb, hname⟩
        · dsimp only [strtokOption] at hopt ⊢
          rw [htake, hdrop]
          obtain ⟨h1, h2⟩ := Prod.mk.inj hopt
          rw [h1, h2]

/-- The two `strtok_r` calls of `parse_options`, on an option held at `p`, return what
`strtokOption` says: the name, terminated in place, and the value or `NULL`. -/
theorem strtokR_option {mem : Mem} {p savePtr fuel : Nat} {arg : List UInt8} (hp : p ≠ 0)
    (hm : Holds mem p (arg ++ [0])) (h0 : 0 ∉ arg) (hd : arg.head? = some (chr '-'))
    (hf : arg.length < fuel) :
    ∃ mem₁ save₁, Pintos.Str.strtokR mem p (bytes "=" ++ [0]) savePtr fuel = some (mem₁, p, save₁) ∧
      Holds mem₁ p ((strtokOption arg).1 ++ [0]) ∧
      ∃ mem₂ save₂ value, Pintos.Str.strtokR mem₁ 0 (bytes "" ++ [0]) save₁ fuel = some (mem₂, value, save₂) ∧
        match (strtokOption arg).2 with
        | none => value = 0
        | some v => value ≠ 0 ∧ Holds mem₂ value (v ++ [0]) := by
  have hds : (0 : UInt8) ∉ bytes "=" := by decide
  have hds' : (0 : UInt8) ∉ bytes "" := by decide
  rw [Pintos.Str.strtokR_start, if_neg hp]
  rcases strtokOption_cases arg with ⟨hno, hopt⟩ | ⟨name, v, rfl, hname, hopt⟩
  · -- no `=`: the name runs to the terminator, and there is no value
    rw [hopt]
    obtain ⟨harg, hx⟩ := Pintos.Str.holds_append.mp hm
    have hx0 : mem (p + arg.length) = 0 := hx.1
    have htok : ∀ b ∈ arg, b ≠ 0 ∧ b ∉ bytes "=" := fun b hb =>
      ⟨fun h : b = 0 => h0 (h ▸ hb), by simpa [bytes] using fun h : b = chr '=' => hno (h ▸ hb)⟩
    have hne : arg ≠ [] := fun h => by simp [h] at hd
    have h1 := Pintos.Str.strtokR_token hds fuel hp (show Holds mem p ([] : List UInt8) from trivial) (by simpa using harg)
      (by simpa using hx0) (by simp) htok hne (.inl rfl) (by simpa using hf)
    simp only [List.length_nil, Nat.add_zero] at h1
    exact ⟨mem, _, h1, hm, mem, _, 0, Pintos.Str.strtokR_end hds' fuel (by omega)
      (show Holds _ _ ([] : List UInt8) from trivial) (by simpa using hx0) (by simp) (by simp; omega), rfl⟩
  · rw [hopt]
    rw [List.append_assoc, List.cons_append] at hm
    obtain ⟨hnm, heq, hv⟩ := Pintos.Str.holds_append.mp hm
    have hne : name ≠ [] := fun h => by subst h; simp [chr] at hd
    have htok : ∀ b ∈ name, b ≠ 0 ∧ b ∉ bytes "=" := fun b hb =>
      ⟨fun h : b = 0 => h0 (by simp [h ▸ hb]), by
        simpa [bytes] using fun h : b = chr '=' => hname (h ▸ hb)⟩
    have hlen : name.length + 1 + v.length = (name ++ chr '=' :: v).length := by simp; omega
    have h1 := Pintos.Str.strtokR_token hds fuel hp (show Holds mem p ([] : List UInt8) from trivial) (by simpa using hnm)
      (by simpa using heq) (by simp) htok hne (.inr (by decide)) (by simp; omega)
    simp only [List.length_nil, Nat.add_zero, if_neg (show chr '=' ≠ 0 by decide)] at h1
    -- the `=` becomes the name's terminator; the value after it stays as it was
    have hv' : Holds (Function.update mem (p + name.length) 0) (p + name.length + 1) (v ++ [0]) :=
      hv.update (.inl (by omega))
    refine ⟨_, _, h1, Pintos.Str.holds_append.mpr ⟨hnm.update (.inr le_rfl), by simp [Holds]⟩, ?_⟩
    cases v with
    | nil =>
      exact ⟨_, _, 0, Pintos.Str.strtokR_end hds' fuel (by omega)
        (show Holds _ _ ([] : List UInt8) from trivial)
        (by simpa using hv'.1) (by simp) (by simp; omega), rfl⟩
    | cons w ws =>
      obtain ⟨hws, hend⟩ := Pintos.Str.holds_append.mp hv'
      have hwv : ∀ b ∈ w :: ws, b ≠ 0 ∧ b ∉ bytes "" := fun b hb =>
        ⟨fun h : b = 0 => h0 (by simp [h ▸ hb]), by simp [bytes]⟩
      have h2 := Pintos.Str.strtokR_token hds' fuel
        (show p + name.length + 1 ≠ 0 by omega) (show Holds _ _ ([] : List UInt8) from trivial)
        (by simpa using hws) (by simpa using hend.1) (by simp) hwv (by simp) (.inl rfl)
        (by simp at hf ⊢; omega)
      simp only [List.length_nil, Nat.add_zero] at h2
      exact ⟨_, _, _, h2, by omega, hv'⟩

theorem dropWhile_option_self : ∀ {l : List (List UInt8)},
    (∀ b ∈ l.head?, ¬ b.head? = some (chr '-')) → l.dropWhile (·.head? = some (chr '-')) = l
  | [], _ => rfl
  | b :: _, h => List.dropWhile_cons_of_neg (by simpa using h b rfl)

/-- The options `utils/pintos` puts first are the ones `parse_options` takes: what it returns is
the rest of the line as the script assembled it. -/
theorem parse_options_script_split {kernelArgs gets : List (List UInt8)} {puts : Bool}
    (h : parseOptions cfg time g (scriptArgs kernelArgs puts gets) = .ok (g', rest)) :
    rest = (if puts then [bytes "extract"] else []) ++ kernelArgs.dropWhile (·.head? = some (chr '-')) ++
      gets.flatMap (fun f => [bytes "append", f]) := by
  obtain ⟨g₁, hl, -⟩ := parseOptions_ok h
  rw [parseOptionsLoop_rest _ hl, scriptArgs, List.append_assoc, List.append_assoc,
    List.dropWhile_append_of_pos (fun a ha => List.all_eq_true.mp List.all_takeWhile a ha),
    ← List.append_assoc]
  apply dropWhile_option_self
  intro b hb
  cases puts
  · cases hk : kernelArgs.dropWhile (·.head? = some (chr '-')) with
    | nil =>
      cases gets with
      | nil => simp [hk] at hb
      | cons f fs =>
        simp only [hk, List.nil_append, if_neg Bool.false_ne_true, List.flatMap_cons,
          List.cons_append, List.head?_cons, Option.mem_def, Option.some.injEq] at hb
        subst hb
        decide
    | cons c cs =>
      have hc := List.head_dropWhile_not (fun a : List UInt8 => decide (a.head? = some (chr '-')))
        (l := kernelArgs) (by simp [hk])
      simp only [hk, List.head_cons, decide_eq_false_iff_not] at hc
      simp only [hk, if_neg Bool.false_ne_true, List.nil_append, List.cons_append, List.head?_cons,
        Option.mem_def, Option.some.injEq] at hb
      subst hb
      exact hc
  · simp only [if_true, List.cons_append, List.head?_cons, Option.mem_def, Option.some.injEq] at hb
    subst hb
    decide

theorem parse_options_script_split_quit :
    [bytes "extract", bytes "run", bytes "alarm"] =
      (if true then [bytes "extract"] else []) ++
        [bytes "-q", bytes "run", bytes "alarm"].dropWhile (·.head? = some (chr '-')) ++
          ([] : List (List UInt8)).flatMap (fun f => [bytes "append", f]) := by
  have h : parseOptions ⟨true, true, false⟩ 0 Globals.boot
      (scriptArgs [bytes "-q", bytes "run", bytes "alarm"] true []) =
      .ok ({ Globals.boot with how := .powerOff, random := randomInit Random.boot (0 : Nat).toUInt32 },
        [bytes "extract", bytes "run", bytes "alarm"]) := rfl
  exact parse_options_script_split h

/-- Whatever `-rs` options the line has, the generator ends seeded with the time. -/
theorem parse_options_seed_ignored (h : parseOptions cfg time g argv = .ok (g', rest)) :
    g'.random = randomInit Random.boot time.toUInt32 := by
  obtain ⟨g₁, -, rfl⟩ := parseOptions_ok h
  exact Pintos.Libc.randomInit_eq _ _ _

theorem parse_options_seed_ignored_rs :
    ({ Globals.boot with
        random := randomInit (randomInit Random.boot (toUnsigned 5).toUInt32) (7 : Nat).toUInt32 } :
      Globals).random = randomInit Random.boot (7 : Nat).toUInt32 := by
  have h : parseOptions ⟨true, true, false⟩ 7 Globals.boot [bytes "-rs=5"] =
      .ok ({ Globals.boot with
        random := randomInit (randomInit Random.boot (toUnsigned 5).toUInt32) (7 : Nat).toUInt32 }, []) :=
    rfl
  exact parse_options_seed_ignored h

/-- The shutdown after an option: `-q` powers off, `-r` reboots, any other keeps `how`. -/
def shutdownOf (how : ShutdownType) (arg : List UInt8) : ShutdownType :=
  if (strtokOption arg).1 = bytes "-q" then .powerOff
  else if (strtokOption arg).1 = bytes "-r" then .reboot
  else how

theorem parseOption_how {arg : List UInt8} {g₁ : Globals} (h0 : 0 ∉ arg)
    (h : parseOption cfg g arg = .ok g₁) : g₁.how = shutdownOf g.how arg := by
  have hn : 0 ∉ (strtokOption arg).1 := fun hm => h0 ((List.takeWhile_sublist _).subset hm)
  unfold parseOption at h
  unfold shutdownOf
  rcases hs : strtokOption arg with ⟨name, value⟩
  rw [hs] at h hn
  dsimp only at h hn ⊢
  have hq := streq_iff "-q" hn (by decide)
  have hr := streq_iff "-r" hn (by decide)
  by_cases eq : name = bytes "-q"
  · have hh : streq name "-h" = false := by subst eq; decide
    simp only [hh, hq.mpr eq, if_pos eq, Bool.false_eq_true, if_false, if_true] at h ⊢
    cases h
    rfl
  · have hq' : streq name "-q" = false := Bool.eq_false_iff.mpr fun e => eq (hq.mp e)
    by_cases er : name = bytes "-r"
    · have hh : streq name "-h" = false := by subst er; decide
      simp only [hh, hq', hr.mpr er, if_neg eq, if_pos er, Bool.false_eq_true, if_false,
        if_true] at h ⊢
      cases h
      rfl
    · have hr' : streq name "-r" = false := Bool.eq_false_iff.mpr fun e => er (hr.mp e)
      simp only [hq', hr', if_neg eq, if_neg er, Bool.false_eq_true, if_false] at h ⊢
      split_ifs at h <;> first
        | (cases h; done)
        | (cases h; rfl)
        | (revert h
           generalize Except.mapError _ (atoiValue value) = e
           cases e <;> intro h <;> cases h
           rfl)

theorem parseOptionsLoop_how : ∀ (argv : List (List UInt8)) {g g' : Globals} {rest : List (List UInt8)},
    (∀ a ∈ argv, 0 ∉ a) → parseOptionsLoop cfg g argv = .ok (g', rest) →
      g'.how = (argv.takeWhile (·.head? = some (chr '-'))).foldl shutdownOf g.how
  | [], _, _, _, _, h => by
    cases h
    rfl
  | arg :: argv, _, _, _, h0, h => by
    unfold parseOptionsLoop at h
    by_cases hd : arg.head? = some (chr '-')
    · rw [if_pos hd] at h
      split at h
      · rename_i g₁ hg₁
        rw [List.takeWhile_cons_of_pos (by simpa using hd), List.foldl_cons,
          ← parseOption_how (h0 arg List.mem_cons_self) hg₁]
        exact parseOptionsLoop_how argv (fun a ha => h0 a (List.mem_cons_of_mem arg ha)) h
      · cases h
    · rw [if_neg hd] at h
      cases h
      rw [List.takeWhile_cons_of_neg (by simpa using hd)]
      rfl

theorem parse_options_shutdown (h0 : ∀ a ∈ argv, 0 ∉ a)
    (h : parseOptions cfg time g argv = .ok (g', rest)) :
    g'.how = (argv.takeWhile (·.head? = some (chr '-'))).foldl shutdownOf g.how := by
  obtain ⟨g₁, hl, rfl⟩ := parseOptions_ok h
  have hhow := parseOptionsLoop_how argv h0 hl
  exact hhow

theorem parse_options_shutdown_reboot :
    ({ Globals.boot with how := .reboot, random := randomInit Random.boot (0 : Nat).toUInt32 } :
      Globals).how =
      ([bytes "-q", bytes "-r", bytes "run"].takeWhile (·.head? = some (chr '-'))).foldl shutdownOf
        Globals.boot.how := by
  have h : parseOptions ⟨true, true, false⟩ 0 Globals.boot [bytes "-q", bytes "-r", bytes "run"] =
      .ok ({ Globals.boot with how := .reboot, random := randomInit Random.boot (0 : Nat).toUInt32 },
        [bytes "run"]) := rfl
  exact parse_options_shutdown (by decide) h

end ParseOptions

/-! ## `run_actions` -/

section RunActions
variable {cfg : Config}

variable (halts : Call → Option Halt)

end RunActions

end Pintos.Init
