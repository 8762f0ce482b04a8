import Pintos.Threads.Step

/-! # The threads subsystem seen from its locks

The lock and donation invariants read little of the kernel state: each thread's priority record
and continuation, the semaphore counts, the lock holders and the next fresh page. `KView` is that
part, and `AbsStep` is what one step of any thread can do to it. Scheduling is invisible here:
which thread runs, the lists and the statuses are all abstracted away, so a step may be taken by
any thread whose continuation allows it, and wherever the kernel's choice depends on what is
abstracted away (the thread `sema_up` wakes, whether it yields) every choice is allowed.

* `KState.view` forgets the scheduler: the lists, `cur`, the clock, and in each thread record the
  status and the timing fields (`Thread.erase`).
* `AbsExec v t i rest v'`: thread `t`, about to run section `i` and then `rest`, runs `i`. The
  donation code reads and writes only what the view keeps of a record, so it is run on any full
  record that the view's record is the erasure of.
* `AbsStep ok`: a call allowed by `ok`, a section, or the advanced scheduler's recomputation of
  priorities.
-/

namespace Pintos.Threads
set_option autoImplicit false

/-- A thread record without what only the scheduler and the clock read. -/
def Thread.erase (th : Thread) : Thread :=
  { th with status := .running, wakeUpTime := 0, nice := 0, recentCpu := 0 }

@[ext] structure KView where
  threads : Tid → Option Thread
  semaValue : SemaId → Nat
  lockHolder : LockId → Option Tid
  nextPage : Tid
  threadMlfqs : Bool

def KState.view (s : KState) : KView where
  threads t := (s.threads t).map Thread.erase
  semaValue := s.semaValue
  lockHolder := s.lockHolder
  nextPage := s.nextPage
  threadMlfqs := s.threadMlfqs

namespace KView

def setThread (v : KView) (t : Tid) (th : Thread) : KView :=
  { v with threads := Function.update v.threads t (some th) }

def setPc (v : KView) (t : Tid) (pc : List Instr) : KView :=
  match v.threads t with
  | some th => v.setThread t { th with pc := pc }
  | none => v

def setSema (v : KView) (sid : SemaId) (n : Nat) : KView :=
  { v with semaValue := Function.update v.semaValue sid n }

def setHolder (v : KView) (l : LockId) (o : Option Tid) : KView :=
  { v with lockHolder := Function.update v.lockHolder l o }

section Simp
variable (v : KView) (t u : Tid) (th : Thread) (pc : List Instr) (sid : SemaId) (n : Nat)
  (l : LockId) (o : Option Tid)

@[simp] theorem setThread_threads :
    (v.setThread t th).threads u = if u = t then some th else v.threads u := by
  by_cases hu : u = t
  · subst hu; simp [setThread]
  · simp [setThread, hu]

@[simp] theorem setPc_threads :
    (v.setPc t pc).threads u = if u = t then (v.threads t).map ({ · with pc := pc }) else v.threads u := by
  unfold setPc
  split <;> by_cases hu : u = t <;> simp_all

@[simp] theorem setPc_semaValue : (v.setPc t pc).semaValue = v.semaValue := by
  unfold setPc; split <;> rfl

@[simp] theorem setPc_lockHolder : (v.setPc t pc).lockHolder = v.lockHolder := by
  unfold setPc; split <;> rfl

@[simp] theorem setPc_nextPage : (v.setPc t pc).nextPage = v.nextPage := by
  unfold setPc; split <;> rfl

@[simp] theorem setPc_threadMlfqs : (v.setPc t pc).threadMlfqs = v.threadMlfqs := by
  unfold setPc; split <;> rfl

@[simp] theorem setThread_semaValue : (v.setThread t th).semaValue = v.semaValue := rfl
@[simp] theorem setThread_lockHolder : (v.setThread t th).lockHolder = v.lockHolder := rfl
@[simp] theorem setThread_nextPage : (v.setThread t th).nextPage = v.nextPage := rfl
@[simp] theorem setThread_threadMlfqs : (v.setThread t th).threadMlfqs = v.threadMlfqs := rfl
@[simp] theorem setSema_threads : (v.setSema sid n).threads = v.threads := rfl
@[simp] theorem setSema_semaValue :
    (v.setSema sid n).semaValue = Function.update v.semaValue sid n := rfl
@[simp] theorem setSema_lockHolder : (v.setSema sid n).lockHolder = v.lockHolder := rfl
@[simp] theorem setSema_nextPage : (v.setSema sid n).nextPage = v.nextPage := rfl
@[simp] theorem setSema_threadMlfqs : (v.setSema sid n).threadMlfqs = v.threadMlfqs := rfl
@[simp] theorem setHolder_threads : (v.setHolder l o).threads = v.threads := rfl
@[simp] theorem setHolder_semaValue : (v.setHolder l o).semaValue = v.semaValue := rfl
@[simp] theorem setHolder_lockHolder :
    (v.setHolder l o).lockHolder = Function.update v.lockHolder l o := rfl
@[simp] theorem setHolder_nextPage : (v.setHolder l o).nextPage = v.nextPage := rfl
@[simp] theorem setHolder_threadMlfqs : (v.setHolder l o).threadMlfqs = v.threadMlfqs := rfl

@[simp] theorem setThread_setThread (th' : Thread) :
    (v.setThread t th).setThread t th' = v.setThread t th' := by
  simp [setThread]

@[simp] theorem setPc_setThread : (v.setThread t th).setPc t pc = v.setThread t { th with pc := pc } := by
  simp [setPc]

end Simp

section Comm
variable (v : KView) (t : Tid) (pc : List Instr)

theorem setPc_setThread_comm {u : Tid} (th : Thread) (hne : u ≠ t) :
    (v.setThread u th).setPc t pc = (v.setPc t pc).setThread u th := by
  ext w : 2 <;> simp
  by_cases hw : w = u
  · subst hw; simp [hne]
  · simp [hw, Ne.symm hne]

theorem setPc_setSema_comm (sid : SemaId) (n : Nat) :
    (v.setSema sid n).setPc t pc = (v.setPc t pc).setSema sid n := by
  ext w : 2 <;> simp

theorem setPc_setHolder_comm (l : LockId) (o : Option Tid) :
    (v.setHolder l o).setPc t pc = (v.setPc t pc).setHolder l o := by
  ext w : 2 <;> simp

end Comm

end KView

/-- Section `i` run by thread `t`, whose code after it is `rest`. -/
inductive AbsExec : KView → Tid → Instr → List Instr → KView → Prop
  | semaInit {v t sid n rest} :
    AbsExec v t (.semaInit sid n) rest ((v.setSema sid n).setPc t rest)
  | semaDownWait {v t sid r rest} : v.semaValue sid = 0 →
    AbsExec v t (.semaDown sid r) rest (v.setPc t (.semaDown sid true :: rest))
  | semaDownTake {v t sid r rest} : v.semaValue sid ≠ 0 →
    AbsExec v t (.semaDown sid r) rest ((v.setSema sid (v.semaValue sid - 1)).setPc t rest)
  | semaTryDownTake {v t sid rest} : v.semaValue sid ≠ 0 →
    AbsExec v t (.semaTryDown sid) rest ((v.setSema sid (v.semaValue sid - 1)).setPc t rest)
  | semaTryDownFail {v t sid rest} : v.semaValue sid = 0 →
    AbsExec v t (.semaTryDown sid) rest (v.setPc t rest)
  | semaUp {v t sid rest} (y : Bool) :
    AbsExec v t (.semaUp sid) rest
      ((v.setSema sid (v.semaValue sid + 1)).setPc t (if y then .yield true :: rest else rest))
  | yield {v t b rest} : AbsExec v t (.yield b) rest (v.setPc t rest)
  | lockInit {v t l rest} :
    AbsExec v t (.lockInit l) rest (((v.setHolder l none).setSema (.lock l) 1).setPc t rest)
  /-- `lock_acquire` finds the lock taken and gives the holder its priority. -/
  | lockAcquireDonate {v t l r rest H th hth hth'} : (r = false → v.lockHolder l ≠ some t) →
    v.semaValue (.lock l) = 0 → v.lockHolder l = some H → v.threads H = some hth.erase →
    v.threads t = some th → hth.priority < th.priority → donate hth th.priority l = .ok hth' →
    AbsExec v t (.lockAcquire l r) rest
      ((v.setThread H hth'.erase).setPc t (.lockAcquire l true :: rest))
  /-- `lock_acquire` finds the lock taken by a thread of no lower priority. -/
  | lockAcquireWait {v t l r rest H th hth} : (r = false → v.lockHolder l ≠ some t) →
    v.semaValue (.lock l) = 0 → v.lockHolder l = some H → v.threads H = some hth →
    v.threads t = some th → ¬ hth.priority < th.priority →
    AbsExec v t (.lockAcquire l r) rest (v.setPc t (.lockAcquire l true :: rest))
  | lockAcquireTake {v t l r rest} : (r = false → v.lockHolder l ≠ some t) →
    v.semaValue (.lock l) ≠ 0 →
    AbsExec v t (.lockAcquire l r) rest
      (((v.setSema (.lock l) (v.semaValue (.lock l) - 1)).setHolder l (some t)).setPc t rest)
  | lockTryAcquireTake {v t l rest} : v.lockHolder l ≠ some t → v.semaValue (.lock l) ≠ 0 →
    AbsExec v t (.lockTryAcquire l) rest
      ((v.setSema (.lock l) (v.semaValue (.lock l) - 1)).setPc t (.lockTrySetHolder l :: rest))
  | lockTryAcquireFail {v t l rest} : v.lockHolder l ≠ some t → v.semaValue (.lock l) = 0 →
    AbsExec v t (.lockTryAcquire l) rest (v.setPc t rest)
  | lockTrySetHolder {v t l rest} :
    AbsExec v t (.lockTrySetHolder l) rest ((v.setHolder l (some t)).setPc t rest)
  | lockRelease {v t l rest th th'} (y : Bool) : v.lockHolder l = some t →
    v.threads t = some th.erase → releaseDonations th l = .ok th' →
    AbsExec v t (.lockRelease l) rest
      ((((v.setThread t th'.erase).setHolder l none).setSema (.lock l)
        (v.semaValue (.lock l) + 1)).setPc t ((if y then [.yield false] else []) ++ rest))
  | condInit {v t c rest} : AbsExec v t (.condInit c) rest (v.setPc t rest)
  | condWaitEnqueue {v t c l rest} : v.lockHolder l = some t →
    AbsExec v t (.condWaitEnqueue c l) rest ((v.setSema (.waiter t) 0).setPc t
      (.lockRelease l :: .semaDown (.waiter t) false :: .lockAcquire l false :: rest))
  | condSignalEmpty {v t c l rest} : v.lockHolder l = some t →
    AbsExec v t (.condSignal c l) rest (v.setPc t rest)
  | condSignal {v t c l rest} (w : Tid) : v.lockHolder l = some t →
    AbsExec v t (.condSignal c l) rest (v.setPc t (.semaUp (.waiter w) :: rest))
  | condBroadcast {v t c l rest} (b : Bool) :
    AbsExec v t (.condBroadcast c l) rest
      (v.setPc t (if b then rest else .condSignal c l :: .condBroadcast c l :: rest))
  | setPriorityMlfqs {v t p rest} : v.threadMlfqs = true →
    AbsExec v t (.setPriority p) rest (v.setPc t rest)
  /-- A thread with donations only records its new base priority. -/
  | setPriorityDonated {v t p rest th} : v.threadMlfqs = false → v.threads t = some th →
    th.storedIndex ≠ 0 →
    AbsExec v t (.setPriority p) rest (v.setThread t
      { th with storedPriority := Function.update th.storedPriority 0 p, basePriority := p,
                pc := rest })
  | setPriorityPlain {v t p rest th} : v.threadMlfqs = false → v.threads t = some th →
    th.storedIndex = 0 →
    AbsExec v t (.setPriority p) rest (v.setThread t
      { th with priority := p, basePriority := p, pc := .yield true :: rest })
  /-- `thread_set_nice`: some new priority, and a yield or not. -/
  | setNice {v t n rest th} (q : Int) (y : Bool) : v.threadMlfqs = true → v.threads t = some th →
    AbsExec v t (.setNice n) rest
      (v.setThread t { th with priority := q, pc := if y then .yield true :: rest else rest })
  | createInit {v t p rest} : PRI_MIN ≤ p → p ≤ PRI_MAX →
    AbsExec v t (.createInit p) rest
      (({ v with nextPage := v.nextPage + 1 }.setThread v.nextPage (initThread p).erase).setPc t
        (.lockAcquire tidLock false :: .lockRelease tidLock :: .createUnblock v.nextPage ::
          .createYieldCheck v.nextPage :: rest))
  | createUnblock {v t u rest} : AbsExec v t (.createUnblock u) rest (v.setPc t rest)
  | createYieldCheck {v t u rest} (y : Bool) :
    AbsExec v t (.createYieldCheck u) rest (v.setPc t (if y then .yield true :: rest else rest))
  | exit {v t rest} : AbsExec v t .exit rest (v.setPc t [])
  | timerSleep {v t n rest} (start : Int) :
    AbsExec v t (.timerSleep n) rest (v.setPc t (if n ≤ 0 then rest else .sleepBlock start n :: rest))
  | sleepBlock {v t start n rest} :
    AbsExec v t (.sleepBlock start n) rest (v.setPc t (.sleepResume :: rest))
  | sleepResume {v t rest} : AbsExec v t .sleepResume rest (v.setPc t rest)
  | idleLoop {v t rest} : AbsExec v t .idleLoop rest (v.setPc t [.idleLoop])

/-- Two views that differ at most in the priorities of existing threads. -/
def KView.PrioritiesOnly (v v' : KView) : Prop :=
  (∀ t, (v'.threads t).map (fun th => { th with priority := 0 }) =
    (v.threads t).map (fun th => { th with priority := 0 })) ∧
  v'.semaValue = v.semaValue ∧ v'.lockHolder = v.lockHolder ∧ v'.nextPage = v.nextPage ∧
  v'.threadMlfqs = v.threadMlfqs

namespace KView.PrioritiesOnly

theorem refl (v : KView) : v.PrioritiesOnly v := ⟨fun _ => rfl, rfl, rfl, rfl, rfl⟩

theorem trans {v v' v'' : KView} (h : v.PrioritiesOnly v') (h' : v'.PrioritiesOnly v'') :
    v.PrioritiesOnly v'' :=
  ⟨fun t => (h'.1 t).trans (h.1 t), h'.2.1.trans h.2.1, h'.2.2.1.trans h.2.2.1,
    h'.2.2.2.1.trans h.2.2.2.1, h'.2.2.2.2.trans h.2.2.2.2⟩

theorem of_setPriority {v : KView} {t : Tid} {th : Thread} (h : v.threads t = some th) (q : Int) :
    v.PrioritiesOnly (v.setThread t { th with priority := q }) := by
  refine ⟨fun u => ?_, rfl, rfl, rfl, rfl⟩
  by_cases hu : u = t
  · subst hu; simp [h]
  · simp [hu]

end KView.PrioritiesOnly

/-- One step of some thread, with calls restricted to `ok`. -/
inductive AbsStep (ok : Call → Prop) : KView → KView → Prop
  | call {v t th c} : ok c → v.threads t = some th → th.pc = [] →
    AbsStep ok v (v.setPc t c.body)
  | exec {v v' t th i rest} : v.threads t = some th → th.pc = i :: rest → AbsExec v t i rest v' →
    AbsStep ok v v'
  /-- The advanced scheduler's recomputation of priorities at a tick. -/
  | recompute {v v'} : v.threadMlfqs = true → v.PrioritiesOnly v' → AbsStep ok v v'

theorem AbsExec.of_eq {v w w' : KView} {t : Tid} {i : Instr} {rest : List Instr}
    (h : AbsExec v t i rest w) (e : w = w') : AbsExec v t i rest w' := e ▸ h

/-- Views reached from the view of `initState mlfqs`. -/
def AbsReach (ok : Call → Prop) (mlfqs : Bool) (v : KView) : Prop :=
  Relation.ReflTransGen (AbsStep ok) (initState mlfqs).view v

end Pintos.Threads
