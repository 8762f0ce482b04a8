import Pintos.Threads.State

/-! # The threads subsystem: its functions, one atomic section at a time

`thread.c`, `synch.c` and `timer_sleep`/`timer_interrupt` of `timer.c`, translated over `KState`.
Each function runs the current thread `s.cur` through one atomic section and sets its
continuation: `pc := rest` when the section returns, a resume instruction when it blocks.

* `schedule` is `schedule` with `next_thread_to_run` and `thread_schedule_tail`; `threadBlock`,
  `threadUnblock` and `threadYield` are the three ways a thread leaves or enters `ready_list`.
* `lockAcquireLoop` is one pass of the `while (sema->value == 0)` loop of `lock_acquire`,
  donation included; a thread woken inside the loop (by `sema_up`, or by a donation that moved its
  `elem` to `ready_list`) runs the same pass again.
* `releaseDonations` is the array code of `lock_release`: the marking loop, the compaction with its
  `-1` holes, and the pop, each index checked against the 30 entries.
* `timerInterrupt` is the handler with `thread_tick`; `stepEvent .tick` adds the
  `thread_yield` of `intr_handler` when `yield_on_return` is set.
-/

namespace Pintos.Threads
open LinkHeap KList
set_option autoImplicit false

/-- The waiters list of a semaphore. -/
def waitersOf (sid : SemaId) : DList Node := theList (.waiters sid)

/-- `list_insert_ordered (&LIST, e, thread_priority_large_func)` in the state `s`. -/
def insertByPriority (s : KState) (l : DList Node) (e : Node) : Except Fault (Heap Node) :=
  liftList (listInsertOrdered s.heap l e (threadPriorityLargeFunc s) listFuel)

/-! ## Scheduling -/

def nextThreadToRun (s : KState) : Except Fault (KState × Tid) :=
  if listEmpty s.heap readyList then .ok (s, s.idleThread)
  else do
    let (h, e) ← liftList (listPopFront s.heap readyList)
    let t ← threadOfElem e
    return ({ s with heap := h }, t)

/-- `schedule` and `thread_schedule_tail`: the current thread has left the running state. -/
def schedule (s : KState) : Except Fault KState := do
  let c ← getThread s s.cur
  if c.status = .running then throw .assertion
  let (s, next) ← nextThreadToRun s
  let n ← getThread s next
  let s := s.setThread next { n with status := .running }
  return { s with cur := next, threadTicks := 0 }

/-- `thread_block` by the current thread, which will resume at `pc`. -/
def threadBlock (s : KState) (pc : List Instr) : Except Fault KState := do
  let c ← getThread s s.cur
  schedule (s.setThread s.cur { c with status := .blocked, pc := pc })

def threadUnblock (s : KState) (t : Tid) : Except Fault KState := do
  let th ← getThread s t
  if th.status ≠ .blocked then throw .assertion
  let h ← insertByPriority s readyList (.elem t)
  return { s with heap := h }.setThread t { th with status := .ready }

/-- `thread_yield` by the current thread, which will resume at `pc`. -/
def threadYield (s : KState) (pc : List Instr) : Except Fault KState := do
  let c ← getThread s s.cur
  let h ← if s.cur ≠ s.idleThread then insertByPriority s readyList (.elem s.cur) else pure s.heap
  schedule ({ s with heap := h }.setThread s.cur { c with status := .ready, pc := pc })

/-! ## Semaphores -/

def semaInit (s : KState) (sid : SemaId) (v : Nat) : KState :=
  { s with semaValue := Function.update s.semaValue sid v, heap := listInit s.heap (waitersOf sid) }

/-- One pass of the loop of `sema_down`. -/
def semaDown (s : KState) (sid : SemaId) (rest : List Instr) : Except Fault KState :=
  if s.semaValue sid = 0 then do
    let h ← insertByPriority s (waitersOf sid) (.elem s.cur)
    threadBlock { s with heap := h } (.semaDown sid true :: rest)
  else
    .ok (({ s with semaValue := Function.update s.semaValue sid (s.semaValue sid - 1) } :
      KState).setPc s.cur rest)

def semaTryDown (s : KState) (sid : SemaId) : KState × Bool :=
  if s.semaValue sid > 0 then
    ({ s with semaValue := Function.update s.semaValue sid (s.semaValue sid - 1) }, true)
  else (s, false)

/-- The atomic part of `sema_up`: wake the front waiter, if any, and tell whether it outranks the
current thread (`yield_if_necessary`). -/
def semaUpCore (s : KState) (sid : SemaId) : Except Fault (KState × Bool) := do
  let (s, yieldIfNecessary) ← if listEmpty s.heap (waitersOf sid) then pure (s, false)
    else do
      let (h, e) ← liftList (listPopFront s.heap (waitersOf sid))
      let t ← threadOfElem e
      let s := { s with heap := h }
      let nt ← getThread s t
      let c ← getThread s s.cur
      let s ← threadUnblock s t
      pure (s, decide (nt.priority > c.priority))
  return ({ s with semaValue := Function.update s.semaValue sid (s.semaValue sid + 1) },
    yieldIfNecessary)

/-! ## The donation arrays -/

/-- `a[i]` for one of the 30-entry arrays of `struct thread`. -/
def arrayGet {β : Type} (a : Nat → β) (i : Int) : Except Fault β :=
  if 0 ≤ i ∧ i < STORED_MAX then .ok (a i.toNat) else .error .outOfBounds

/-- `a[i] = v` for one of the 30-entry arrays of `struct thread`. -/
def arraySet {β : Type} (a : Nat → β) (i : Int) (v : β) : Except Fault (Nat → β) :=
  if 0 ≤ i ∧ i < STORED_MAX then .ok (Function.update a i.toNat v) else .error .outOfBounds

/-- The donation of `lock_acquire` to holder `H`: its current pair is stored at `stored_index`,
which is then incremented, and it takes priority `p` and lock `l`. -/
def donate (H : Thread) (p : Int) (l : LockId) : Except Fault Thread := do
  let sp ← arraySet H.storedPriority H.storedIndex H.priority
  let sm ← arraySet H.storedLockMaster H.storedIndex H.priorityLockMaster
  return { H with storedPriority := sp, storedLockMaster := sm, storedIndex := H.storedIndex + 1,
                  priority := p, priorityLockMaster := some l }

/-- The marking loop of `lock_release`, from index `i` on: entries of lock `l` become `NULL`
and `-1`, and are counted in `co`. -/
def releaseMark (l : LockId) (n : Int) :
    Nat → Nat → (Nat → Int) → (Nat → Option LockId) → Int →
      Except Fault ((Nat → Int) × (Nat → Option LockId) × Int)
  | 0, _, sp, sm, co => .ok (sp, sm, co)
  | k + 1, i, sp, sm, co =>
    if (i : Int) < n then do
      let m ← arrayGet sm i
      if m = some l then
        let sm ← arraySet sm i none
        let sp ← arraySet sp i (-1)
        releaseMark l n k (i + 1) sp sm (co + 1)
      else releaseMark l n k (i + 1) sp sm co
    else .ok (sp, sm, co)

/-- The inner loop of the compaction: the first `j` in `[j, n)` whose priority is not `-1` moves
into the hole at `i` (the `continue` and the `break` of the C loop). -/
def compactInner (n : Int) (i : Nat) :
    Nat → Nat → (Nat → Int) → (Nat → Option LockId) →
      Except Fault ((Nat → Int) × (Nat → Option LockId))
  | 0, _, sp, sm => .ok (sp, sm)
  | k + 1, j, sp, sm =>
    if (j : Int) < n then do
      let pj ← arrayGet sp j
      if pj = -1 then compactInner n i k (j + 1) sp sm
      else
        let mj ← arrayGet sm j
        let sm ← arraySet sm i mj
        let sp ← arraySet sp i pj
        let sm ← arraySet sm j none
        let sp ← arraySet sp j (-1)
        .ok (sp, sm)
    else .ok (sp, sm)

/-- The outer loop of the compaction, from index `i` on. -/
def compactOuter (n : Int) :
    Nat → Nat → (Nat → Int) → (Nat → Option LockId) →
      Except Fault ((Nat → Int) × (Nat → Option LockId))
  | 0, _, sp, sm => .ok (sp, sm)
  | k + 1, i, sp, sm =>
    if (i : Int) < n then do
      let p ← arrayGet sp i
      let (sp, sm) ← if p = -1 then compactInner n i n.toNat (i + 1) sp sm else pure (sp, sm)
      compactOuter n k (i + 1) sp sm
    else .ok (sp, sm)

/-- The donation part of `lock_release` for the current thread `C` releasing `l`. -/
def releaseDonations (C : Thread) (l : LockId) : Except Fault Thread := do
  if C.storedIndex = 0 then return C
  let n := C.storedIndex
  let (sp, sm, co) ← releaseMark l n n.toNat 0 C.storedPriority C.storedLockMaster 0
  let (sp, sm, idx) ← if co ≠ 0 then do
      let (sp, sm) ← compactOuter n n.toNat 0 sp sm
      pure (sp, sm, n - co)
    else pure (sp, sm, n)
  if C.priorityLockMaster = some l then
    let idx := idx - 1
    let p ← arrayGet sp idx
    let m ← arrayGet sm idx
    return { C with storedPriority := sp, storedLockMaster := sm, storedIndex := idx,
                    priority := p, priorityLockMaster := m }
  else return { C with storedPriority := sp, storedLockMaster := sm, storedIndex := idx }

/-! ## Locks -/

def lockInit (s : KState) (l : LockId) : KState :=
  semaInit { s with lockHolder := Function.update s.lockHolder l none } (.lock l) 1

/-- One pass of the loop of `lock_acquire`. -/
def lockAcquireLoop (s : KState) (l : LockId) (rest : List Instr) : Except Fault KState :=
  if s.semaValue (.lock l) = 0 then do
    let ht ← match s.lockHolder l with
      | some t => pure t
      | none => throw .nullDeref
    let H ← getThread s ht
    let C ← getThread s s.cur
    let s ← if H.priority < C.priority then do
        let s := s.setThread ht (← donate H C.priority l)
        -- the holder's `elem` is unlinked from wherever it is and queued on `ready_list`
        let (h, _) ← liftList (listRemove s.heap (.elem ht))
        let h ← insertByPriority { s with heap := h } readyList (.elem ht)
        pure { s with heap := h }
      else pure s
    let h ← insertByPriority s (waitersOf (.lock l)) (.elem s.cur)
    threadBlock { s with heap := h } (.lockAcquire l true :: rest)
  else
    .ok (({ s with semaValue := Function.update s.semaValue (.lock l) (s.semaValue (.lock l) - 1),
                   lockHolder := Function.update s.lockHolder l (some s.cur) } : KState).setPc
      s.cur rest)

def lockRelease (s : KState) (l : LockId) (rest : List Instr) : Except Fault KState := do
  if s.lockHolder l ≠ some s.cur then throw .assertion
  let C ← releaseDonations (← getThread s s.cur) l
  let s := { s.setThread s.cur C with lockHolder := Function.update s.lockHolder l none }
  let (s, y) ← semaUpCore s (.lock l)
  return s.setPc s.cur ((if y then [.yield false] else []) ++ rest)

/-! ## Condition variables -/

/-- `sema_init (&waiter.semaphore, 0)` and `list_push_front (&cond->waiters, &waiter.elem)`. -/
def condWaitEnqueue (s : KState) (c : CondId) (l : LockId) (rest : List Instr) :
    Except Fault KState := do
  if s.lockHolder l ≠ some s.cur then throw .assertion
  let s := semaInit s (.waiter s.cur) 0
  let h ← liftList (listPushFront s.heap (theList (.cond c)) (.semaElem s.cur))
  return ({ s with heap := h } : KState).setPc s.cur
    (.lockRelease l :: .semaDown (.waiter s.cur) false :: .lockAcquire l false :: rest)

/-- `cond_signal` up to its `sema_up`, which it leaves as the next section. -/
def condSignal (s : KState) (c : CondId) (l : LockId) (rest : List Instr) :
    Except Fault KState := do
  if s.lockHolder l ≠ some s.cur then throw .assertion
  let cl := theList (.cond c)
  if listEmpty s.heap cl then return s.setPc s.cur rest
  let h ← liftList (listSort s.heap cl (condThreadPriorityLargeFunc s) listFuel)
  let (h, e) ← liftList (listPopFront h cl)
  let w ← match e with
    | .semaElem w => pure w
    | _ => throw .notAThread
  return ({ s with heap := h } : KState).setPc s.cur (.semaUp (.waiter w) :: rest)

/-! ## Priorities -/

def threadSetPriority (s : KState) (p : Int) (rest : List Instr) : Except Fault KState := do
  if s.threadMlfqs then return s.setPc s.cur rest
  let C ← getThread s s.cur
  if C.storedIndex ≠ 0 then
    -- a donated thread only records its new base priority
    return s.setThread s.cur { C with storedPriority := Function.update C.storedPriority 0 p,
                                      basePriority := p, pc := rest }
  else
    return s.setThread s.cur { C with priority := p, basePriority := p, pc := .yield true :: rest }

/-- `thread_update_priority_with_nice`. -/
def updatePriorityWithNice (s : KState) (t : Tid) : Except Fault KState := do
  if !s.threadMlfqs then throw .assertion
  if t = s.idleThread then return s
  let th ← getThread s t
  let p := PRI_MAX - (th.recentCpu.tdiv 4).tdiv FP_F - th.nice * 2
  let p := if p > PRI_MAX then PRI_MAX else p
  let p := if p < PRI_MIN then PRI_MIN else p
  return s.setThread t { th with priority := p }

/-- `thread_set_nice`, with the yield check that follows it. -/
def threadSetNice (s : KState) (n : Int) (rest : List Instr) : Except Fault KState := do
  if !s.threadMlfqs then throw .assertion
  let C ← getThread s s.cur
  let s ← updatePriorityWithNice (s.setThread s.cur { C with nice := n }) s.cur
  let C ← getThread s s.cur
  if listEmpty s.heap readyList then return s.setPc s.cur rest
  let f ← liftList (listFront s.heap readyList)
  let fp ← match elemPriority s f with
    | some p => pure p
    | none => throw .notAThread
  return s.setPc s.cur (if fp > C.priority then .yield true :: rest else rest)

/-! ## Thread life cycle -/

/-- The record `init_thread` gives a thread of priority `p`, `thread_create` having left it
blocked. -/
def initThread (p : Int) : Thread :=
  { status := .blocked, priority := p, priorityLockMaster := none,
    storedPriority := fun _ => 0, storedLockMaster := fun _ => none, storedIndex := 0,
    wakeUpTime := 0, nice := 0, recentCpu := 0, pc := [], basePriority := p }

/-- `palloc_get_page` and `init_thread` of `thread_create`: a fresh page becomes a blocked thread
of priority `p`; `allocate_tid`, `thread_unblock` and the yield check follow. -/
def createInit (s : KState) (p : Int) (rest : List Instr) : Except Fault KState := do
  if ¬ (PRI_MIN ≤ p ∧ p ≤ PRI_MAX) then throw .assertion
  let t := s.nextPage
  let s := ({ s with nextPage := t + 1, allList := s.allList ++ [t] } : KState).setThread t
    (initThread p)
  return s.setPc s.cur (.lockAcquire tidLock false :: .lockRelease tidLock :: .createUnblock t ::
    .createYieldCheck t :: rest)

/-- `if (thread_current ()->priority < t->priority) thread_yield ();` -/
def createYieldCheck (s : KState) (t : Tid) (rest : List Instr) : Except Fault KState := do
  let C ← getThread s s.cur
  let T ← getThread s t
  return s.setPc s.cur (if C.priority < T.priority then .yield true :: rest else rest)

def threadExit (s : KState) : Except Fault KState := do
  let C ← getThread s s.cur
  schedule (({ s with allList := s.allList.erase s.cur } : KState).setThread s.cur
    { C with status := .dying, pc := [] })

/-! ## The alarm clock -/

/-- `timer_sleep` from its `intr_disable` on: the wake-up time, the alarm list, the block. -/
def sleepBlock (s : KState) (start n : Int) (rest : List Instr) : Except Fault KState := do
  let C ← getThread s s.cur
  let s := s.setThread s.cur { C with wakeUpTime := n + start }
  let h ← liftList (listInsertOrdered s.heap alarmList (.alarmElem s.cur) (alarmLessFunc s) listFuel)
  threadBlock { s with heap := h } (.sleepResume :: rest)

/-- The wake-up loop of `timer_interrupt`. -/
def alarmWake : Nat → KState → Except Fault KState
  | 0, _ => .error .list
  | k + 1, s =>
    if listEmpty s.heap alarmList then .ok s
    else do
      let front ← liftList (listFront s.heap alarmList)
      let t ← match front with
        | .alarmElem t => pure t
        | _ => throw .notAThread
      let th ← getThread s t
      if th.wakeUpTime > s.ticks then return s
      let s ← threadUnblock s t
      let (h, _) ← liftList (listPopFront s.heap alarmList)
      alarmWake k { s with heap := h }

/-! ## The advanced scheduler (`fixed-point.h` arithmetic, exact in `Int` with C's truncating
division) -/

/-- `thread_ins_recent_cpu`. -/
def threadInsRecentCpu (s : KState) : Except Fault KState := do
  if s.cur = s.idleThread then return s
  let C ← getThread s s.cur
  return s.setThread s.cur { C with recentCpu := C.recentCpu + 1 * FP_F }

/-- `update_load_avg`. -/
def updateLoadAvg (s : KState) : Except Fault KState := do
  let co ← liftList (listSize s.heap readyList listFuel)
  let co : Int := if s.cur ≠ s.idleThread then co + 1 else co
  let a := ((59 * FP_F).tdiv 60 * s.loadAvg).tdiv FP_F
  let b := (1 * FP_F).tdiv 60 * co
  return { s with loadAvg := a + b }

/-- `thread_update_recent_cpu`. -/
def updateRecentCpu (s : KState) (t : Tid) : Except Fault KState := do
  if t = s.idleThread then return s
  let th ← getThread s t
  let a := s.loadAvg * 2
  if a + 1 * FP_F = 0 then throw .assertion
  let b := (a * FP_F).tdiv (a + 1 * FP_F)
  return s.setThread t { th with recentCpu := (b * th.recentCpu).tdiv FP_F + th.nice * FP_F }

/-- `thread_foreach`. -/
def threadForeach (f : KState → Tid → Except Fault KState) (s : KState) :
    Except Fault KState :=
  s.allList.foldlM f s

/-- `thread_update_recent_cpu_all`. -/
def updateRecentCpuAll (s : KState) : Except Fault KState := do
  let s ← threadForeach updateRecentCpu s
  let s ← threadForeach updatePriorityWithNice s
  let h ← liftList (listSort s.heap readyList (threadPriorityLargeFunc s) listFuel)
  return { s with heap := h }

/-- The `thread_mlfqs` part of `timer_interrupt`. -/
def mlfqsTick (s : KState) : Except Fault KState := do
  let s ← threadInsRecentCpu s
  let s ← if s.ticks % TIMER_FREQ = 0 then updateRecentCpuAll (← updateLoadAvg s) else pure s
  if s.ticks % 4 = 0 then updatePriorityWithNice s s.cur else return s

/-- `timer_interrupt` with `thread_tick`; the flag is `yield_on_return`. -/
def timerInterrupt (s : KState) : Except Fault (KState × Bool) := do
  let s := { s with ticks := s.ticks + 1, threadTicks := s.threadTicks + 1 }
  let yieldOnReturn := decide (TIME_SLICE ≤ s.threadTicks)
  let s ← alarmWake listFuel s
  let s ← if s.threadMlfqs then mlfqsTick s else pure s
  return (s, yieldOnReturn)

end Pintos.Threads
