import Pintos.Lib.Ring
import Pintos.Lib.Except
import Mathlib.Logic.Relation
import Mathlib.Data.List.Basic

/-! # `devices/intq.c`: the interrupt queue

A ring buffer of 64 bytes shared by kernel threads and interrupt handlers. All of its code runs
with interrupts off, so a kernel thread runs it without interruption from one call of
`thread_block` to the next; a run is an interleaving of such pieces, of the calls of the
handlers, and of the calls by threads outside the queue's code. `q->lock` is its holder, its
semaphore and its waiters; threads of equal priority are assumed, so that `sema_up` wakes them
in order and no priority is donated.

* `intq_fifo`: in every reachable state the bytes `intq_putc` stored are those `intq_getc`
  returned followed by the contents of the buffer, and there are at most 63 of them.
* `intq_second_reader`: a second thread in `intq_getc` blocks on `q->lock`, where no `intq_putc`
  wakes it, and once the lock passes to it after a byte has arrived, the assertion of `wait`
  that the queue is empty fails.
-/

namespace Pintos.Devices
set_option autoImplicit false

def INTQ_BUFSIZE : Nat := 64

def next (pos : Nat) : Nat := (pos + 1) % INTQ_BUFSIZE

/-- `struct intq`, with `q->lock` as its holder, the value of its semaphore and its waiters. -/
structure Intq where
  lockHolder : Option Nat
  lockValue : Nat
  lockWaiters : List Nat
  notFull : Option Nat
  notEmpty : Option Nat
  buf : Nat → UInt8
  head : Nat
  tail : Nat

def intqInit : Intq := ⟨none, 1, [], none, none, fun _ => 0, 0, 0⟩

def intqEmpty (q : Intq) : Bool := q.head == q.tail

def intqFull (q : Intq) : Bool := next q.head == q.tail

inductive IntqFault
  | disabled
  | assertion
deriving DecidableEq, Repr

/-- The two members a thread may wait on. -/
inductive Waiter
  | notFull
  | notEmpty
deriving DecidableEq, Repr

/-- Where a kernel thread is in the queue's code: outside it, at the test of the loop of
`intq_getc` or `intq_putc`, or blocked in its `lock_acquire` or its `wait`. -/
inductive Pc
  | outside
  | getcLock
  | getcWait
  | putcLock (byte : UInt8)
  | putcWait (byte : UInt8)
deriving DecidableEq, Repr

structure KThread where
  pc : Pc
  blocked : Bool
deriving DecidableEq, Repr

/-- The queue, the kernel threads, and the bytes stored by `intq_putc` and returned by
`intq_getc` so far. -/
structure Sys where
  q : Intq
  threads : Nat → KThread
  put : List UInt8
  got : List UInt8

def Sys.init : Sys := ⟨intqInit, fun _ => ⟨.outside, false⟩, [], []⟩

def Sys.setQ (s : Sys) (q : Intq) : Sys := { s with q := q }

def Sys.setThread (s : Sys) (t : Nat) (th : KThread) : Sys :=
  { s with threads := Function.update s.threads t th }

def Intq.waiter (q : Intq) : Waiter → Option Nat
  | .notFull => q.notFull
  | .notEmpty => q.notEmpty

def Intq.setWaiter (q : Intq) (w : Waiter) (t : Option Nat) : Intq :=
  match w with
  | .notFull => { q with notFull := t }
  | .notEmpty => { q with notEmpty := t }

/-! ## The functions, from one `thread_block` to the next -/

def threadUnblock (s : Sys) (t : Nat) : Except IntqFault Sys :=
  if (s.threads t).blocked then .ok (s.setThread t { s.threads t with blocked := false })
  else .error .assertion

/-- The condition `wait` and `signal` assert of a waiter. -/
def Waiter.holds (q : Intq) : Waiter → Bool
  | .notFull => intqFull q
  | .notEmpty => intqEmpty q

def signal (s : Sys) (w : Waiter) : Except IntqFault Sys := do
  if w.holds s.q then throw .assertion
  match s.q.waiter w with
  | some t =>
    let s ← threadUnblock s t
    return s.setQ (s.q.setWaiter w none)
  | none => return s

/-- `wait`: record the thread in the member and block it at `pc`. -/
def wait (s : Sys) (t : Nat) (w : Waiter) (pc : Pc) : Except IntqFault Sys := do
  if !w.holds s.q then throw .assertion
  return (s.setQ (s.q.setWaiter w (some t))).setThread t ⟨pc, true⟩

/-- `lock_acquire (&q->lock)` and, once it holds the lock, `wait`; `lockPc` and `waitPc` are
where the thread blocks. -/
def acquireAndWait (s : Sys) (t : Nat) (w : Waiter) (lockPc waitPc : Pc) :
    Except IntqFault Sys :=
  if s.q.lockValue = 0 then
    .ok ((s.setQ { s.q with lockWaiters := s.q.lockWaiters ++ [t] }).setThread t ⟨lockPc, true⟩)
  else
    wait (s.setQ { s.q with lockValue := s.q.lockValue - 1, lockHolder := some t }) t w waitPc

def lockRelease (s : Sys) (t : Nat) : Except IntqFault Sys := do
  if s.q.lockHolder ≠ some t then throw .assertion
  let s := s.setQ { s.q with lockHolder := none }
  match s.q.lockWaiters with
  | u :: us =>
    let s ← threadUnblock (s.setQ { s.q with lockWaiters := us }) u
    return s.setQ { s.q with lockValue := s.q.lockValue + 1 }
  | [] => return s.setQ { s.q with lockValue := s.q.lockValue + 1 }

/-- The end of `intq_getc`: take the byte at `tail` and signal `not_full`. -/
def getcTake (s : Sys) : Except IntqFault Sys := do
  let byte := s.q.buf s.q.tail
  let s := { s.setQ { s.q with tail := next s.q.tail } with got := s.got ++ [byte] }
  signal s .notFull

/-- The end of `intq_putc`: store the byte at `head` and signal `not_empty`. -/
def putcStore (s : Sys) (byte : UInt8) : Except IntqFault Sys := do
  let s := { s.setQ { s.q with buf := Function.update s.q.buf s.q.head byte,
                               head := next s.q.head } with put := s.put ++ [byte] }
  signal s .notEmpty

/-- The loop of `intq_getc` from its test, run by thread `t`. -/
def getcLoop (s : Sys) (t : Nat) : Except IntqFault Sys :=
  if intqEmpty s.q then acquireAndWait s t .notEmpty .getcLock .getcWait
  else do
    let s ← getcTake s
    return s.setThread t ⟨.outside, false⟩

def putcLoop (s : Sys) (t : Nat) (byte : UInt8) : Except IntqFault Sys :=
  if intqFull s.q then acquireAndWait s t .notFull (.putcLock byte) (.putcWait byte)
  else do
    let s ← putcStore s byte
    return s.setThread t ⟨.outside, false⟩

/-! ## Runs -/

inductive Event
  | getc (t : Nat)
  | putc (t : Nat) (byte : UInt8)
  | run (t : Nat)
  | irqGetc
  | irqPutc (byte : UInt8)
deriving DecidableEq, Repr

/-- A call by a thread outside the queue's code, the next piece of a thread woken in it, or a
call by an interrupt handler, which may read only a queue that is not empty and write only one
that is not full. A thread woken in `lock_acquire` runs the loop of `sema_down` again. -/
def step (s : Sys) : Event → Except IntqFault Sys
  | .getc t =>
    if s.threads t = ⟨.outside, false⟩ then getcLoop s t else .error .disabled
  | .putc t byte =>
    if s.threads t = ⟨.outside, false⟩ then putcLoop s t byte else .error .disabled
  | .run t =>
    if (s.threads t).blocked then .error .disabled
    else match (s.threads t).pc with
      | .outside => .error .disabled
      | .getcLock => acquireAndWait s t .notEmpty .getcLock .getcWait
      | .putcLock byte => acquireAndWait s t .notFull (.putcLock byte) (.putcWait byte)
      | .getcWait => do getcLoop (← lockRelease s t) t
      | .putcWait byte => do putcLoop (← lockRelease s t) t byte
  | .irqGetc => if intqEmpty s.q then .error .disabled else getcTake s
  | .irqPutc byte => if intqFull s.q then .error .disabled else putcStore s byte

def Step (s s' : Sys) : Prop := ∃ e, step s e = .ok s'

def Reachable (s : Sys) : Prop := Relation.ReflTransGen Step Sys.init s

/-! ## The bytes in the queue -/

/-- The number of bytes between `tail` and `head`. -/
def count (q : Intq) : Nat := (q.head + INTQ_BUFSIZE - q.tail) % INTQ_BUFSIZE

/-- The bytes in the queue, oldest first. -/
def contents (q : Intq) : List UInt8 := Ring.contents q.buf INTQ_BUFSIZE q.tail (count q)

/-- The part of the state that the byte sequences depend on. -/
def Sys.data (s : Sys) : (Nat → UInt8) × Nat × Nat × List UInt8 × List UInt8 :=
  (s.q.buf, s.q.head, s.q.tail, s.put, s.got)

structure Inv (s : Sys) : Prop where
  head_lt : s.q.head < INTQ_BUFSIZE
  tail_lt : s.q.tail < INTQ_BUFSIZE
  fifo : s.put = s.got ++ contents s.q

section Data
open Except

theorem Inv.of_data {s s' : Sys} (h : Inv s) (hd : s'.data = s.data) : Inv s' := by
  simp only [Sys.data, Prod.mk.injEq] at hd
  obtain ⟨hb, hh, ht, hp, hg⟩ := hd
  refine ⟨hh ▸ h.head_lt, ht ▸ h.tail_lt, ?_⟩
  rw [hp, hg, contents, count, hb, hh, ht]
  exact h.fifo

@[simp] theorem setThread_data {s : Sys} (t : Nat) (th : KThread) :
    (s.setThread t th).data = s.data := rfl

@[simp] theorem setWaiter_data {s : Sys} (w : Waiter) (x : Option Nat) :
    (s.setQ (s.q.setWaiter w x)).data = s.data := by
  cases w <;> rfl

theorem threadUnblock_data {s s' : Sys} {t : Nat} (h : threadUnblock s t = .ok s') : s'.data = s.data := by
  unfold threadUnblock at h
  split at h
  · cases h
    rfl
  · cases h

theorem signal_data {s s' : Sys} {w : Waiter} (h : signal s w = .ok s') : s'.data = s.data := by
  unfold signal at h
  cases hw : w.holds s.q
  · simp only [hw, Bool.false_eq_true, if_false] at h
    split at h
    · obtain ⟨s₁, h₁, h₂⟩ := bind_eq_ok.mp h
      cases h₂
      rw [setWaiter_data, threadUnblock_data h₁]
    · cases h
      rfl
  · simp [hw] at h
    cases h

theorem wait_data {s s' : Sys} {t : Nat} {w : Waiter} {pc : Pc} (h : wait s t w pc = .ok s') :
    s'.data = s.data := by
  unfold wait at h
  cases hw : w.holds s.q
  · simp [hw] at h
    cases h
  · simp only [hw, Bool.not_true, Bool.false_eq_true, if_false] at h
    cases h
    rw [setThread_data, setWaiter_data]

theorem acquireAndWait_data {s s' : Sys} {t : Nat} {w : Waiter} {lockPc waitPc : Pc}
    (h : acquireAndWait s t w lockPc waitPc = .ok s') : s'.data = s.data := by
  unfold acquireAndWait at h
  split at h
  · cases h
    rfl
  · exact (wait_data h).trans rfl

theorem lockRelease_data {s s' : Sys} {t : Nat} (h : lockRelease s t = .ok s') : s'.data = s.data := by
  unfold lockRelease at h
  by_cases hh : s.q.lockHolder ≠ some t
  · simp [hh] at h
    cases h
  · simp only [hh, if_false] at h
    split at h
    · obtain ⟨s₁, h₁, h₂⟩ := bind_eq_ok.mp h
      cases h₂
      exact (threadUnblock_data h₁).trans rfl
    · cases h
      rfl

end Data

section Bytes

theorem Inv.count_ne_zero {s : Sys} (h : Inv s) (he : intqEmpty s.q = false) : count s.q ≠ 0 := by
  have := h.head_lt
  have := h.tail_lt
  simp only [intqEmpty, beq_eq_false_iff_ne] at he
  simp only [count, INTQ_BUFSIZE] at *
  omega

theorem Inv.count_lt {s : Sys} (h : Inv s) (hf : intqFull s.q = false) : count s.q + 1 < INTQ_BUFSIZE := by
  have := h.head_lt
  have := h.tail_lt
  simp only [intqFull, next, beq_eq_false_iff_ne] at hf
  simp only [count, INTQ_BUFSIZE] at *
  omega

theorem contents_take {q : Intq} (ht : q.tail < INTQ_BUFSIZE) (hh : q.head < INTQ_BUFSIZE)
    (hc : count q ≠ 0) : contents q = q.buf q.tail :: contents { q with tail := next q.tail } := by
  obtain ⟨c, hc'⟩ : ∃ c, count { q with tail := next q.tail } = c := ⟨_, rfl⟩
  have hcq : count q = c + 1 := by
    subst hc'
    simp only [count, next, INTQ_BUFSIZE] at *
    omega
  have hhead : (Ring.contents q.buf INTQ_BUFSIZE q.tail (count q)).head? =
      some (q.buf (q.tail % INTQ_BUFSIZE)) := Ring.head_contents hc
  rw [Nat.mod_eq_of_lt ht] at hhead
  simp only [contents]
  rw [hc', hcq, next, Ring.contents_pop]
  rw [hcq] at hhead
  exact List.eq_cons_of_mem_head? hhead

theorem Inv.of_getcTake {s s' : Sys} (h : Inv s) (he : intqEmpty s.q = false) (hs : getcTake s = .ok s') :
    Inv s' := by
  unfold Devices.getcTake at hs
  dsimp only at hs
  have hcontents := contents_take h.tail_lt h.head_lt (h.count_ne_zero he)
  refine Inv.of_data ?_ (signal_data hs)
  refine ⟨h.head_lt, Nat.mod_lt _ (by decide), ?_⟩
  show s.put = (s.got ++ [s.q.buf s.q.tail]) ++ contents { s.q with tail := next s.q.tail }
  rw [h.fifo, hcontents, List.append_assoc]
  rfl

theorem contents_store {q : Intq} (ht : q.tail < INTQ_BUFSIZE) (hh : q.head < INTQ_BUFSIZE)
    (hf : intqFull q = false) (byte : UInt8) :
    contents { q with buf := Function.update q.buf q.head byte, head := next q.head } =
      contents q ++ [byte] := by
  have hcnt : count { q with buf := Function.update q.buf q.head byte, head := next q.head } =
      count q + 1 := by
    simp only [intqFull, next, beq_eq_false_iff_ne] at hf
    simp only [count, next, INTQ_BUFSIZE] at *
    omega
  have hc : count q < INTQ_BUFSIZE := by
    simp only [count]
    exact Nat.mod_lt _ (by decide)
  have hhead : q.head = (q.tail + count q) % INTQ_BUFSIZE := by
    simp only [count, INTQ_BUFSIZE] at *
    omega
  simp only [contents]
  rw [hcnt, hhead]
  exact Ring.contents_push hc byte

theorem Inv.of_putcStore {s s' : Sys} (h : Inv s) (hf : intqFull s.q = false) {byte : UInt8}
    (hs : putcStore s byte = .ok s') : Inv s' := by
  unfold Devices.putcStore at hs
  dsimp only at hs
  refine Inv.of_data ?_ (signal_data hs)
  refine ⟨Nat.mod_lt _ (by decide), h.tail_lt, ?_⟩
  show s.put ++ [byte] = s.got ++
    contents { s.q with buf := Function.update s.q.buf s.q.head byte, head := next s.q.head }
  rw [contents_store h.tail_lt h.head_lt hf, h.fifo, List.append_assoc]

end Bytes

section Runs
open Except

theorem Inv.getcLoop {s s' : Sys} {t : Nat} (h : Inv s) (hs : getcLoop s t = .ok s') : Inv s' := by
  unfold Devices.getcLoop at hs
  cases he : intqEmpty s.q
  · simp only [he, Bool.false_eq_true, if_false] at hs
    obtain ⟨s₁, h₁, h₂⟩ := bind_eq_ok.mp hs
    cases h₂
    exact Inv.of_data (h.of_getcTake he h₁) (setThread_data _ _)
  · simp only [he, if_true] at hs
    exact h.of_data (acquireAndWait_data hs)

theorem Inv.putcLoop {s s' : Sys} {t : Nat} {byte : UInt8} (h : Inv s)
    (hs : putcLoop s t byte = .ok s') : Inv s' := by
  unfold Devices.putcLoop at hs
  cases hf : intqFull s.q
  · simp only [hf, Bool.false_eq_true, if_false] at hs
    obtain ⟨s₁, h₁, h₂⟩ := bind_eq_ok.mp hs
    cases h₂
    exact Inv.of_data (h.of_putcStore hf h₁) (setThread_data _ _)
  · simp only [hf, if_true] at hs
    exact h.of_data (acquireAndWait_data hs)

theorem Inv.init : Inv Sys.init := ⟨by decide, by decide, rfl⟩

/-- Every event keeps the invariant: the handlers by their guards, a thread by the test of its
loop. -/
theorem Inv.step {s s' : Sys} {e : Event} (h : Inv s) (hs : step s e = .ok s') : Inv s' := by
  cases e with
  | getc t =>
    simp only [Devices.step] at hs
    split at hs
    · exact h.getcLoop hs
    · cases hs
  | putc t byte =>
    simp only [Devices.step] at hs
    split at hs
    · exact h.putcLoop hs
    · cases hs
  | run t =>
    simp only [Devices.step] at hs
    split at hs
    · cases hs
    · split at hs
      · cases hs
      · exact h.of_data (acquireAndWait_data hs)
      · exact h.of_data (acquireAndWait_data hs)
      · obtain ⟨s₁, h₁, h₂⟩ := bind_eq_ok.mp hs
        exact (h.of_data (lockRelease_data h₁)).getcLoop h₂
      · obtain ⟨s₁, h₁, h₂⟩ := bind_eq_ok.mp hs
        exact (h.of_data (lockRelease_data h₁)).putcLoop h₂
  | irqGetc =>
    simp only [Devices.step] at hs
    cases he : intqEmpty s.q
    · simp only [he, Bool.false_eq_true, if_false] at hs
      exact h.of_getcTake he hs
    · simp only [he, if_true] at hs
      cases hs
  | irqPutc byte =>
    simp only [Devices.step] at hs
    cases hf : intqFull s.q
    · simp only [hf, Bool.false_eq_true, if_false] at hs
      exact h.of_putcStore hf hs
    · simp only [hf, if_true] at hs
      cases hs

theorem Inv.of_reachable {s : Sys} (h : Reachable s) : Inv s := by
  induction h with
  | refl => exact Inv.init
  | tail _ hst ih =>
    obtain ⟨e, he⟩ := hst
    exact ih.step he

/-- The run of a list of events, stopping at the first that does not succeed. -/
def runSteps (s : Sys) : List Event → Except IntqFault Sys
  | [] => .ok s
  | e :: es => do runSteps (← step s e) es

theorem runSteps_reachable : ∀ {es : List Event} {s s' : Sys}, Reachable s →
    runSteps s es = .ok s' → Reachable s'
  | [], s, s', hs, h => by
    cases h
    exact hs
  | e :: es, s, s', hs, h => by
    obtain ⟨s₁, h₁, h₂⟩ := bind_eq_ok.mp h
    exact runSteps_reachable (hs.tail ⟨e, h₁⟩) h₂

theorem exists_reachable_of_runSteps (es : List Event) {p : Sys → Bool}
    (h : (runSteps Sys.init es).toOption.any p = true) : ∃ s, Reachable s ∧ p s = true := by
  cases hr : runSteps Sys.init es with
  | error f => simp [hr, Except.toOption] at h
  | ok s =>
    rw [hr] at h
    exact ⟨s, runSteps_reachable .refl hr, by simpa [Except.toOption] using h⟩

theorem intq_fifo {s : Sys} (h : Reachable s) :
    s.put = s.got ++ contents s.q ∧ (contents s.q).length ≤ INTQ_BUFSIZE - 1 := by
  have hinv := Inv.of_reachable h
  refine ⟨hinv.fifo, ?_⟩
  have hlt : count s.q < INTQ_BUFSIZE := Nat.mod_lt _ (by decide)
  rw [contents, Ring.length_contents]
  omega

/-- A handler stores two bytes, and thread 1 takes the first. -/
theorem intq_fifo_take :
    ∃ s, Reachable s ∧ s.got = [97] ∧ s.put = s.got ++ contents s.q ∧
      (contents s.q).length ≤ INTQ_BUFSIZE - 1 := by
  obtain ⟨s, hs, hp⟩ : ∃ s, Reachable s ∧ (s.got == [97]) = true :=
    exists_reachable_of_runSteps [.irqPutc 97, .irqPutc 98, .getc 1] (by decide +kernel)
  exact ⟨s, hs, beq_iff_eq.mp hp, intq_fifo hs⟩

end Runs

/-! ## A second reader -/

section SecondReader
open Except

/-- Thread 1 waits on `not_empty` holding `q->lock`, and thread 2 blocks on the lock. -/
def twoReadersRun : List Event := [.getc 1, .getc 2]

/-- A byte wakes thread 1, whose `lock_release` readies thread 2; thread 1 takes the byte
and a second byte arrives before thread 2 runs. -/
def lateReaderRun : List Event := twoReadersRun ++ [.irqPutc 97, .run 1, .irqPutc 98]

theorem intq_second_reader :
    (∃ s, Reachable s ∧ s.threads 2 = ⟨.getcLock, true⟩ ∧ s.q.notEmpty = some 1 ∧
      ∃ s', step s (.irqPutc 97) = .ok s' ∧ (s'.threads 2).blocked = true) ∧
    ∃ s, Reachable s ∧ step s (.run 2) = .error .assertion := by
  constructor
  · obtain ⟨s, hs, hp⟩ : ∃ s, Reachable s ∧ (s.threads 2 == ⟨.getcLock, true⟩ &&
        s.q.notEmpty == some 1 &&
        (step s (.irqPutc 97)).toOption.any fun s' => (s'.threads 2).blocked) = true :=
      exists_reachable_of_runSteps twoReadersRun (by decide +kernel)
    simp only [Bool.and_eq_true, beq_iff_eq] at hp
    obtain ⟨⟨h2, hne⟩, hput⟩ := hp
    refine ⟨s, hs, h2, hne, ?_⟩
    cases hst : step s (.irqPutc 97) with
    | error f => simp [hst, Except.toOption] at hput
    | ok s' =>
      rw [hst] at hput
      exact ⟨s', rfl, by simpa [Except.toOption] using hput⟩
  · obtain ⟨s, hs, hp⟩ : ∃ s, Reachable s ∧ (match step s (.run 2) with
        | .error f => f == .assertion
        | .ok _ => false) = true :=
      exists_reachable_of_runSteps lateReaderRun (by decide +kernel)
    refine ⟨s, hs, ?_⟩
    cases hst : step s (.run 2) with
    | error f =>
      rw [hst, beq_iff_eq] at hp
      rw [hp]
    | ok _ => simp [hst] at hp

end SecondReader

end Pintos.Devices
