import Pintos.List.Model

/-! # The threads subsystem: kernel state

The state of `threads/thread.c`, `threads/synch.c` and the alarm part of `devices/timer.c` as one
record. Its lists (the ready list, the alarm list, every semaphore's waiters, every condition's
waiters) live in a single `Heap Node` and are changed only through the `list.c` model, so a
`list_remove` of an element that is in no list rewrites whatever its stale pointers name, as in C.

* `Node`: every `struct list_elem` the subsystem uses: the two headers of each list, and the
  `elem`, `alarm_elem` of each thread and the `semaphore_elem` on its stack in `cond_wait`.
* `Thread`: `struct thread` with the fields these files read, plus `pc`, the kernel code the
  thread still has to run (its continuation), and the ghost `basePriority` (not in the source: the
  creation priority or the last argument of `thread_set_priority`).
* `Instr`: one atomic section of kernel code, from one point where interrupts may be enabled to
  the next, or to a `thread_block`; a call of the API is a list of them.
* `Fault`: how a step can go wrong: a failed `ASSERT`, a null dereference, an index outside the
  30-entry donation arrays, or a failure inside a `list.c` function.
-/

namespace Pintos.Threads
open LinkHeap KList
set_option autoImplicit false

/-- A thread, named by its page. -/
abbrev Tid := Nat
abbrev LockId := Nat
abbrev CondId := Nat

/-- The lock of `allocate_tid`. -/
def tidLock : LockId := 0

inductive SemaId
  | lock (l : LockId)
  | plain (n : Nat)
  | waiter (t : Tid)
deriving DecidableEq, Repr

inductive ListName
  | ready
  | alarm
  | waiters (s : SemaId)
  | cond (c : CondId)
deriving DecidableEq, Repr

inductive Node
  | head (l : ListName)
  | tail (l : ListName)
  | elem (t : Tid)
  | alarmElem (t : Tid)
  | semaElem (t : Tid)
deriving DecidableEq, Repr

/-- The `struct list` named `l`. -/
def theList (l : ListName) : DList Node := ⟨.head l, .tail l⟩

/-- `ready_list`. -/
abbrev readyList : DList Node := theList .ready
/-- `alarm_list`. -/
abbrev alarmList : DList Node := theList .alarm

/-- `PRI_MIN`, `PRI_DEFAULT`, `PRI_MAX`. -/
def PRI_MIN : Int := 0
def PRI_DEFAULT : Int := 31
def PRI_MAX : Int := 63

/-- `TIME_SLICE`. -/
def TIME_SLICE : Nat := 4
/-- `TIMER_FREQ`. -/
def TIMER_FREQ : Int := 100
/-- The length of `stored_priority` and `stored_lock_master`. -/
def STORED_MAX : Int := 30
/-- `F` of `fixed-point.h`: `1 << 14`. -/
def FP_F : Int := 16384

/-- Fuel of every list walk: more steps than there are `list_elem`s in 4 MB, so a walk that uses
it up never ends. -/
def listFuel : Nat := 2 ^ 20

inductive ThreadStatus
  | running
  | ready
  | blocked
  | dying
deriving DecidableEq, Repr

inductive Instr
  | semaInit (s : SemaId) (v : Nat)
  | semaDown (s : SemaId) (resumed : Bool)
  | semaTryDown (s : SemaId)
  | semaUp (s : SemaId)
  | yield (intrOn : Bool)
  | lockInit (l : LockId)
  | lockAcquire (l : LockId) (resumed : Bool)
  | lockTryAcquire (l : LockId)
  | lockTrySetHolder (l : LockId)
  | lockRelease (l : LockId)
  | condInit (c : CondId)
  | condWaitEnqueue (c : CondId) (l : LockId)
  | condSignal (c : CondId) (l : LockId)
  | condBroadcast (c : CondId) (l : LockId)
  | setPriority (p : Int)
  | setNice (n : Int)
  | createInit (p : Int)
  | createUnblock (t : Tid)
  | createYieldCheck (t : Tid)
  | exit
  | timerSleep (n : Int)
  | sleepBlock (start n : Int)
  | sleepResume
  | idleLoop
deriving DecidableEq, Repr

/-- Interrupts are on just before this section runs: at the entry of an API function, between
the two halves of `lock_try_acquire` and of `timer_sleep`, before a `thread_yield` that follows
`intr_set_level` to an enabled level, and in the idle loop. A thread resumes from
`thread_block` with interrupts off. -/
def Instr.intrOn : Instr → Bool
  | .semaDown _ resumed => !resumed
  | .lockAcquire _ resumed => !resumed
  | .yield on => on
  | .createUnblock _ => true
  | .createYieldCheck _ => true
  | .sleepResume => false
  | .lockTrySetHolder _ => true
  | .sleepBlock _ _ => true
  | _ => true

structure Thread where
  status : ThreadStatus
  priority : Int
  priorityLockMaster : Option LockId
  storedPriority : Nat → Int
  storedLockMaster : Nat → Option LockId
  storedIndex : Int
  wakeUpTime : Int
  nice : Int
  recentCpu : Int
  pc : List Instr
  basePriority : Int

inductive Fault
  | assertion
  | nullDeref
  | outOfBounds
  | list
  | notAThread
  | disabled
deriving DecidableEq, Repr

structure KState where
  threads : Tid → Option Thread
  heap : Heap Node
  semaValue : SemaId → Nat
  lockHolder : LockId → Option Tid
  cur : Tid
  idleThread : Tid
  initialThread : Tid
  ticks : Int
  threadTicks : Nat
  loadAvg : Int
  threadMlfqs : Bool
  allList : List Tid
  nextPage : Tid

/-! ## Reading and writing the state -/

/-- A `list.c` result as a step of the kernel. -/
def liftList {β : Type} : Option β → Except Fault β
  | some b => .ok b
  | none => .error .list

def getThread (s : KState) (t : Tid) : Except Fault Thread :=
  match s.threads t with
  | some th => .ok th
  | none => .error .notAThread

def KState.setThread (s : KState) (t : Tid) (th : Thread) : KState :=
  { s with threads := Function.update s.threads t (some th) }

def KState.setPc (s : KState) (t : Tid) (pc : List Instr) : KState :=
  match s.threads t with
  | some th => s.setThread t { th with pc := pc }
  | none => s

/-- `list_entry (e, struct thread, elem)`, defined only on a thread's `elem`. -/
def threadOfElem : Node → Except Fault Tid
  | .elem t => .ok t
  | _ => .error .notAThread

/-- The priority `list_entry (e, struct thread, elem)->priority` reads. -/
def elemPriority (s : KState) : Node → Option Int
  | .elem t => (s.threads t).map Thread.priority
  | _ => none

/-- `thread_priority_large_func`. -/
def threadPriorityLargeFunc (s : KState) (a b : Node) : Option Bool := do
  let pa ← elemPriority s a
  let pb ← elemPriority s b
  return decide (pa > pb)

/-- `alarm_less_func`. -/
def alarmLessFunc (s : KState) : Node → Node → Option Bool
  | .alarmElem a, .alarmElem b => do
    let ta ← s.threads a
    let tb ← s.threads b
    return decide (ta.wakeUpTime < tb.wakeUpTime)
  | _, _ => none

/-- `cond_thread_priority_large_func`: the priority of the front waiter of each `semaphore_elem`'s
semaphore; `list_front` asserts that list is not empty. -/
def condThreadPriorityLargeFunc (s : KState) : Node → Node → Option Bool
  | .semaElem a, .semaElem b => do
    let fa ← listFront s.heap (theList (.waiters (.waiter a)))
    let fb ← listFront s.heap (theList (.waiters (.waiter b)))
    threadPriorityLargeFunc s fa fb
  | _, _ => none

@[simp] theorem setThread_threads (s : KState) (t u : Tid) (th : Thread) :
    (s.setThread t th).threads u = if u = t then some th else s.threads u := by
  by_cases hu : u = t
  · subst hu; simp [KState.setThread]
  · simp [KState.setThread, hu]

@[simp] theorem setThread_heap (s : KState) (t : Tid) (th : Thread) :
    (s.setThread t th).heap = s.heap := rfl

@[simp] theorem setThread_lockHolder (s : KState) (t : Tid) (th : Thread) :
    (s.setThread t th).lockHolder = s.lockHolder := rfl

@[simp] theorem setThread_semaValue (s : KState) (t : Tid) (th : Thread) :
    (s.setThread t th).semaValue = s.semaValue := rfl

@[simp] theorem setThread_cur (s : KState) (t : Tid) (th : Thread) :
    (s.setThread t th).cur = s.cur := rfl

@[simp] theorem setThread_nextPage (s : KState) (t : Tid) (th : Thread) :
    (s.setThread t th).nextPage = s.nextPage := rfl

@[simp] theorem setThread_threadMlfqs (s : KState) (t : Tid) (th : Thread) :
    (s.setThread t th).threadMlfqs = s.threadMlfqs := rfl

end Pintos.Threads
