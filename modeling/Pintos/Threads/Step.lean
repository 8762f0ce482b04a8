import Pintos.Threads.Ops

/-! # The threads subsystem as a transition system

A step is one of three events: the running thread, in its own code, calls an API function
(`call`); it runs the next atomic section of the kernel code it is in (`exec`); or the timer
interrupts it (`tick`), which is possible only where interrupts are enabled. A run is any
sequence of enabled events from the state `thread_start` leaves.

* `Call.body`: the sections each API function is made of.
* `execInstr`: one section; `stepEvent`: one event (`Fault.disabled` when it cannot happen).
* `initState`: `main` running at `PRI_DEFAULT`, the idle thread ready to block, every list empty,
  every lock free, every semaphore of thread code at 0.
* `Reachable ok`: reached by events whose calls satisfy `ok`, so that runs of a subset of the API
  are those of one `ok`.
-/

namespace Pintos.Threads
open LinkHeap KList
set_option autoImplicit false

/-- The API functions thread code calls, with their arguments. -/
inductive Call
  | threadCreate (p : Int)
  | threadSetPriority (p : Int)
  | threadSetNice (n : Int)
  | threadYield
  | threadExit
  | semaInit (n v : Nat)
  | semaDown (n : Nat)
  | semaTryDown (n : Nat)
  | semaUp (n : Nat)
  | lockInit (l : LockId)
  | lockAcquire (l : LockId)
  | lockTryAcquire (l : LockId)
  | lockRelease (l : LockId)
  | condInit (c : CondId)
  | condWait (c : CondId) (l : LockId)
  | condSignal (c : CondId) (l : LockId)
  | condBroadcast (c : CondId) (l : LockId)
  | timerSleep (n : Int)
deriving DecidableEq, Repr

def Call.body : Call → List Instr
  | .threadCreate p => [.createInit p]
  | .threadSetPriority p => [.setPriority p]
  | .threadSetNice n => [.setNice n]
  | .threadYield => [.yield true]
  | .threadExit => [.exit]
  | .semaInit n v => [.semaInit (.plain n) v]
  | .semaDown n => [.semaDown (.plain n) false]
  | .semaTryDown n => [.semaTryDown (.plain n)]
  | .semaUp n => [.semaUp (.plain n)]
  | .lockInit l => [.lockInit l]
  | .lockAcquire l => [.lockAcquire l false]
  | .lockTryAcquire l => [.lockTryAcquire l]
  | .lockRelease l => [.lockRelease l]
  | .condInit c => [.condInit c]
  | .condWait c l => [.condWaitEnqueue c l]
  | .condSignal c l => [.condSignal c l]
  | .condBroadcast c l => [.condBroadcast c l]
  | .timerSleep n => [.timerSleep n]

inductive Event
  | call (c : Call)
  | exec
  | tick
deriving DecidableEq, Repr

/-- Run section `i` of the current thread, whose code after it is `rest`. -/
def execInstr (s : KState) (i : Instr) (rest : List Instr) : Except Fault KState :=
  match i with
  | .semaInit sid v => .ok ((semaInit s sid v).setPc s.cur rest)
  | .semaDown sid _ => semaDown s sid rest
  | .semaTryDown sid => .ok ((semaTryDown s sid).1.setPc s.cur rest)
  | .semaUp sid => do
    let (s, y) ← semaUpCore s sid
    return s.setPc s.cur (if y then .yield true :: rest else rest)
  | .yield _ => threadYield s rest
  | .lockInit l => .ok ((lockInit s l).setPc s.cur rest)
  | .lockAcquire l resumed =>
    if !resumed && s.lockHolder l = some s.cur then .error .assertion
    else lockAcquireLoop s l rest
  | .lockTryAcquire l =>
    if s.lockHolder l = some s.cur then .error .assertion
    else
      let (s, success) := semaTryDown s (.lock l)
      .ok (s.setPc s.cur (if success then .lockTrySetHolder l :: rest else rest))
  | .lockTrySetHolder l =>
    .ok (({ s with lockHolder := Function.update s.lockHolder l (some s.cur) } : KState).setPc
      s.cur rest)
  | .lockRelease l => lockRelease s l rest
  | .condInit c => .ok (({ s with heap := listInit s.heap (theList (.cond c)) } : KState).setPc
      s.cur rest)
  | .condWaitEnqueue c l => condWaitEnqueue s c l rest
  | .condSignal c l => condSignal s c l rest
  | .condBroadcast c l =>
    .ok (s.setPc s.cur (if listEmpty s.heap (theList (.cond c)) then rest
      else .condSignal c l :: .condBroadcast c l :: rest))
  | .setPriority p => threadSetPriority s p rest
  | .setNice n => threadSetNice s n rest
  | .createInit p => createInit s p rest
  | .createUnblock t => do
    let s ← threadUnblock s t
    return s.setPc s.cur rest
  | .createYieldCheck t => createYieldCheck s t rest
  | .exit => threadExit s
  | .timerSleep n =>
    .ok (s.setPc s.cur (if n ≤ 0 then rest else .sleepBlock s.ticks n :: rest))
  | .sleepBlock start n => sleepBlock s start n rest
  | .sleepResume => .ok (s.setPc s.cur rest)
  | .idleLoop => threadBlock s [.idleLoop]

/-- Interrupts are enabled where the running thread stands. -/
def intrOnAt : List Instr → Bool
  | [] => true
  | i :: _ => i.intrOn

def stepEvent (s : KState) : Event → Except Fault KState
  | .call c => do
    let C ← getThread s s.cur
    if C.pc ≠ [] then throw .disabled
    return s.setPc s.cur c.body
  | .exec => do
    let C ← getThread s s.cur
    match C.pc with
    | [] => throw .disabled
    | i :: rest => execInstr s i rest
  | .tick => do
    let C ← getThread s s.cur
    if !intrOnAt C.pc then throw .disabled
    let (s, yieldOnReturn) ← timerInterrupt s
    if yieldOnReturn then
      let C ← getThread s s.cur
      threadYield s C.pc
    else return s

/-- The events a run may contain when the calls are restricted to `ok`. -/
def Event.allowed (ok : Call → Prop) : Event → Prop
  | .call c => ok c
  | _ => True

instance (ok : Call → Prop) [DecidablePred ok] : DecidablePred (Event.allowed ok)
  | .call c => inferInstanceAs (Decidable (ok c))
  | .exec => isTrue trivial
  | .tick => isTrue trivial

/-- The run of a list of events, stopping at the first that does not succeed. -/
def runEvents (s : KState) : List Event → Except Fault KState
  | [] => .ok s
  | e :: es => do runEvents (← stepEvent s e) es

/-! ## The state after `thread_start` -/

def mainTid : Tid := 1
def idleTid : Tid := 2

/-- A thread record as `init_thread` leaves it. -/
def freshThread (status : ThreadStatus) (p : Int) (pc : List Instr) : Thread :=
  { status := status, priority := p, priorityLockMaster := none,
    storedPriority := fun _ => 0, storedLockMaster := fun _ => none, storedIndex := 0,
    wakeUpTime := 0, nice := 0, recentCpu := 0, pc := pc, basePriority := p }

/-- Every list initialized; `main` and the idle thread were each last taken off `ready_list` when
it held only them, so their `elem`s still point at its two headers. -/
def initHeap : Heap Node where
  link
  | .head l => ⟨none, some (.tail l)⟩
  | .tail l => ⟨some (.head l), none⟩
  | .elem t => if t = mainTid ∨ t = idleTid then ⟨some (.head .ready), some (.tail .ready)⟩
      else ⟨none, none⟩
  | _ => ⟨none, none⟩

def initState (mlfqs : Bool) : KState where
  threads t :=
    if t = mainTid then some (freshThread .running PRI_DEFAULT [])
    else if t = idleTid then some (freshThread .ready PRI_MIN [.idleLoop])
    else none
  heap := initHeap
  semaValue
    | .lock _ => 1
    | _ => 0
  lockHolder _ := none
  cur := mainTid
  idleThread := idleTid
  initialThread := mainTid
  ticks := 0
  threadTicks := 0
  loadAvg := 0
  threadMlfqs := mlfqs
  allList := [mainTid, idleTid]
  nextPage := 3

/-- One step by an allowed event. -/
def Step (ok : Call → Prop) (s s' : KState) : Prop :=
  ∃ e, e.allowed ok ∧ stepEvent s e = .ok s'

/-- Reached from `initState mlfqs` by allowed events. -/
def Reachable (ok : Call → Prop) (mlfqs : Bool) (s : KState) : Prop :=
  Relation.ReflTransGen (Step ok) (initState mlfqs) s

theorem runEvents_reachable {ok : Call → Prop} {mlfqs : Bool} :
    ∀ {es : List Event} {s s' : KState}, Reachable ok mlfqs s → (∀ e ∈ es, e.allowed ok) →
      runEvents s es = .ok s' → Reachable ok mlfqs s'
  | [], s, s', hs, _, h => by
    simp only [runEvents, Except.ok.injEq] at h
    exact h ▸ hs
  | e :: es, s, s', hs, hok, h => by
    simp only [runEvents] at h
    cases hst : stepEvent s e with
    | error f => simp [hst, bind, Except.bind] at h
    | ok s₁ =>
      simp only [hst, bind, Except.bind] at h
      exact runEvents_reachable (hs.tail ⟨e, hok e (by simp), hst⟩)
        (fun e' he' => hok e' (List.mem_cons_of_mem e he')) h

/-- Interrupts are enabled where the running thread stands: the timer may preempt it. -/
def KState.interruptsOn (s : KState) : Bool := (s.threads s.cur).any (fun th => intrOnAt th.pc)

theorem exists_reachable_of_run {ok : Call → Prop} {mlfqs : Bool} (es : List Event)
    {p : KState → Bool} (hok : ∀ e ∈ es, e.allowed ok)
    (h : (runEvents (initState mlfqs) es).toOption.any p = true) :
    ∃ s, Reachable ok mlfqs s ∧ p s = true := by
  cases hr : runEvents (initState mlfqs) es with
  | error f => simp [hr, Except.toOption] at h
  | ok s =>
    rw [hr] at h
    exact ⟨s, runEvents_reachable .refl hok hr, by simpa [Except.toOption] using h⟩

/-- The fault a run stops at, if it stops at one. -/
def runFault (s : KState) (es : List Event) : Option Fault :=
  match runEvents s es with
  | .error f => some f
  | .ok _ => none

/-- A run from a reachable state that stops at a fault has a reachable state whose next step
faults. -/
theorem exists_faulting_step {ok : Call → Prop} {mlfqs : Bool} :
    ∀ (es : List Event) {s : KState} {f : Fault}, Reachable ok mlfqs s → (∀ e ∈ es, e.allowed ok) →
      runFault s es = some f → ∃ s' e, Reachable ok mlfqs s' ∧ e.allowed ok ∧ stepEvent s' e = .error f
  | [], _, _, _, _, h => by simp [runFault, runEvents] at h
  | e :: es, s, f, hs, hok, h => by
    have he := hok e (List.mem_cons_self ..)
    cases hst : stepEvent s e with
    | error f' =>
      simp only [runFault, runEvents, hst] at h
      cases h
      exact ⟨s, e, hs, he, hst⟩
    | ok s₁ =>
      have h₁ : runFault s₁ es = some f := by
        simp only [runFault, runEvents, hst] at h
        exact h
      exact exists_faulting_step es (hs.tail ⟨e, he, hst⟩)
        (fun e' he' => hok e' (List.mem_cons_of_mem e he')) h₁

end Pintos.Threads
