import Mathlib.Data.Nat.Init
import Mathlib.Algebra.Ring.Nat
import Mathlib.Algebra.Ring.Int.Defs

/-! # `userprog/syscall.c`: what the handler reads for the user

The handler of interrupt `0x30` reads the system-call number and its arguments from the user
stack at `f->esp`, and hands the pointer arguments to functions that read through them. Addresses
are 32 bits wide and pointer arithmetic wraps, as on the machine.

* `Access`: a read made on the user's behalf: a word of the frame, a string (read up to its
  terminator by `process_execute` and the file system), or `size` bytes of a buffer (`putbuf`).
* `syscallHandler`: the reads in the order the handler makes them, and what it then does.
* `Access.Valid`: every byte read lies below `PHYS_BASE` in a page the page directory maps.
* `syscallHandler_reads_number`: the number at `f->esp` is read first, for every stack pointer,
  before any check; `syscall_reads_unchecked` is a stack pointer at `PHYS_BASE`.
-/

namespace Pintos.Userprog
set_option autoImplicit false

def PHYS_BASE : UInt32 := 0xc0000000

def PGBITS : UInt32 := 12

def PGSIZE : Nat := 4096

/-- `pg_no`: the page an address lies in. -/
def pgNo (va : UInt32) : UInt32 := va >>> PGBITS

/-- `is_user_vaddr`. -/
def isUserVaddr (vaddr : UInt32) : Bool := vaddr < PHYS_BASE

def STDOUT_FILENO : UInt32 := 1

/-- The user's address space: the pages its page directory maps, and its bytes. -/
structure UserMem where
  mapped : UInt32 → Bool
  byte : UInt32 → UInt8

/-- `*(int *) a`, little-endian. -/
def UserMem.word (m : UserMem) (a : UInt32) : UInt32 :=
  (m.byte a).toUInt32 ||| (m.byte (a + 1)).toUInt32 <<< 8 |||
    (m.byte (a + 2)).toUInt32 <<< 16 ||| (m.byte (a + 3)).toUInt32 <<< 24

/-- The numbers of `lib/syscall-nr.h`, in order from 0. -/
inductive SyscallNr
  | halt | exit | exec | wait | create | remove | open | filesize | read | write | seek | tell
  | close | mmap | munmap | chdir | mkdir | readdir | isdir | inumber
deriving DecidableEq, Repr

def SyscallNr.ofWord (w : UInt32) : Option SyscallNr :=
  [SyscallNr.halt, .exit, .exec, .wait, .create, .remove, .open, .filesize, .read, .write, .seek,
    .tell, .close, .mmap, .munmap, .chdir, .mkdir, .readdir, .isdir, .inumber][w.toNat]?

/-- A read the kernel makes on the user's behalf. -/
inductive Access
  | word (addr : UInt32)
  | string (addr : UInt32)
  | buffer (addr size : UInt32)
deriving DecidableEq, Repr

/-- What the handler does once it has read its arguments. Every action but `halt` and `exit`
is followed by `thread_exit ()` with the exit status unchanged. -/
inductive Action
  | halt
  | exit (status : Int)
  | exec (cmdLine : UInt32)
  | wait (pid : UInt32)
  | create (file initialSize : UInt32)
  | remove (file : UInt32)
  | write (fd buffer size : UInt32)
  | none
deriving DecidableEq, Repr

/-- `syscall_handler`: `sp` is `(int *) f->esp`, so `sp + k` is the address `esp + 4k`. The
number is read before the only check, which is on `sp + 1`. `_write_` reads the buffer only for
`STDOUT_FILENO`. -/
def syscallHandler (m : UserMem) (esp : UInt32) : List Access × Action :=
  let sp := esp
  let call := m.word sp
  let arg (k : UInt32) := m.word (sp + 4 * k)
  let frame (n : Nat) := (List.range (n + 1)).map fun k => Access.word (sp + 4 * k.toUInt32)
  if sp + 4 = 0 || !isUserVaddr (sp + 4) then (frame 0, .exit (-1))
  else match SyscallNr.ofWord call with
    | some .halt => (frame 0, .halt)
    | some .exit => (frame 0, .exit 0)
    | some .exec => (frame 1 ++ [.string (arg 1)], .exec (arg 1))
    | some .wait => (frame 1, .wait (arg 1))
    | some .create => (frame 2 ++ [.string (arg 1)], .create (arg 1) (arg 2))
    | some .remove => (frame 1 ++ [.string (arg 1)], .remove (arg 1))
    | some .write =>
      (frame 3 ++ (if arg 1 = STDOUT_FILENO then [.buffer (arg 2) (arg 3)] else []),
        .write (arg 1) (arg 2) (arg 3))
    | _ => (frame 0, .none)

/-! ## Valid reads -/

/-- Byte `a` is a user address in a mapped page. -/
def UserMem.ValidByte (m : UserMem) (a : UInt32) : Prop :=
  isUserVaddr a = true ∧ m.mapped (pgNo a) = true

/-- Every byte of the read is valid: the four of a word, the `size` of a buffer, and those of a
string up to and including its terminator. -/
def Access.Valid (m : UserMem) : Access → Prop
  | .word a => ∀ i : UInt32, i < 4 → m.ValidByte (a + i)
  | .string a => ∀ i : Nat, (∀ j < i, m.byte (a + j.toUInt32) ≠ 0) → m.ValidByte (a + i.toUInt32)
  | .buffer a size => ∀ i : UInt32, i < size → m.ValidByte (a + i)

section Handler
variable (m : UserMem) (esp : UInt32)

theorem syscallHandler_reads_number :
    (syscallHandler m esp).1.head? = some (.word esp) := by
  unfold syscallHandler
  dsimp only
  split
  · simp
  · split <;> simp [List.range_succ_eq_map]

end Handler

theorem syscall_reads_unchecked :
    ¬ ∀ m esp, ∀ a ∈ (syscallHandler m esp).1, a.Valid m := by
  intro hall
  let m : UserMem := ⟨fun _ => true, fun _ => 0⟩
  have hmem : Access.word PHYS_BASE ∈ (syscallHandler m PHYS_BASE).1 :=
    List.mem_of_head? (syscallHandler_reads_number m PHYS_BASE)
  -- the byte at `PHYS_BASE` itself is a kernel address
  have hb := (hall m PHYS_BASE _ hmem 0 (by decide)).1
  exact absurd hb (by decide)

end Pintos.Userprog
