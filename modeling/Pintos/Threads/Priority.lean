import Mathlib.Data.Set.Insert
import Mathlib.Order.Bounds.Defs
import Pintos.Threads.Donation
import Pintos.Threads.Sched

/-! # What priority donation gives a thread

The donation invariant read on the kernel state, and four runs where the lock and donation code
does not do what its specification asks.

* `KState.WaiterPriority s t q`: a thread of priority `q` waits in `lock_acquire` for a lock that
  `t` holds.
* `KState.Settled s`: every thread waiting in `lock_acquire` is blocked on the waiters list of the
  lock's semaphore, i.e. no woken waiter is still to run the loop of `lock_acquire` again.
* `priority_base_or_waiter`: in priority mode a thread runs at its base priority or at most at the
  priority of a thread waiting for one of its locks, and its `stored_index` stays in `[0, 30]`.
* `lock_release_drops_donation`: a waiter that finds the holder already above it does not donate,
  and releasing another lock drops the holder to its base below that waiter.
* `donation_stack_overflows`: the 31st donation to one thread writes past the 30 entries of
  `stored_priority`.
* `try_acquire_null_holder`: `lock_try_acquire` takes the semaphore and sets the holder in two
  steps with interrupts on between them, so a preempting `lock_acquire` finds the lock taken
  and no holder to donate to.
* `cond_signal_front_of_empty`: a thread preempted in `cond_wait` between `lock_release` and
  `sema_down` is on the condition's waiters with no thread on its semaphore, and the
  comparator of `cond_signal`'s sort takes the front of that empty list.
-/

namespace Pintos.Threads
open KList
set_option autoImplicit false

/-- A thread of priority `q` waits in `lock_acquire` for a lock that `t` holds. -/
def KState.WaiterPriority (s : KState) (t : Tid) (q : Int) : Prop :=
  ∃ m w thw, s.lockHolder m = some t ∧ s.threads w = some thw ∧
    thw.pc.head? = some (.lockAcquire m true) ∧ thw.priority = q

/-- The lock a thread resuming this section waits for. -/
def Instr.waitsFor : Instr → Option LockId
  | .lockAcquire m true => some m
  | _ => none

/-- Thread `w` is blocked on the waiters list of lock `m`'s semaphore. -/
def KState.BlockedOn (s : KState) (w : Tid) (thw : Thread) (m : LockId) : Prop :=
  thw.status = .blocked ∧ ∃ xs, IsList s.heap (waitersOf (.lock m)) xs ∧ Node.elem w ∈ xs

/-- Chain re-donation has settled: every waiter in `lock_acquire` is blocked on its lock. -/
def KState.Settled (s : KState) : Prop :=
  ∀ w thw m, s.threads w = some thw → thw.pc.head? = some (.lockAcquire m true) →
    s.BlockedOn w thw m

/-- `Settled` for the threads below `n`, with each waiters list walked forwards. -/
def KState.SettledBelow (s : KState) (n : Nat) : Prop :=
  ∀ w < n, ∀ thw ∈ s.threads w, ∀ m ∈ thw.pc.head?.bind Instr.waitsFor,
    thw.status = .blocked ∧ ∃ xs ∈ forward s.heap (waitersOf (.lock m)) listFuel,
      IsList s.heap (waitersOf (.lock m)) xs ∧ Node.elem w ∈ xs

instance (s : KState) (n : Nat) : Decidable (s.SettledBelow n) :=
  inferInstanceAs (Decidable (∀ w < n, ∀ thw ∈ s.threads w,
    ∀ m ∈ thw.pc.head?.bind Instr.waitsFor,
      thw.status = .blocked ∧ ∃ xs ∈ forward s.heap (waitersOf (.lock m)) listFuel,
        IsList s.heap (waitersOf (.lock m)) xs ∧ Node.elem w ∈ xs))

/-- Past the fresh pages there are no threads, so the check below `nextPage` is the whole of
`Settled`. -/
theorem KState.settled_of_below {s : KState} (h : s.SettledBelow s.nextPage)
    (hf : ∀ w, s.nextPage ≤ w → s.threads w = none) : s.Settled := by
  intro w thw m hw hm
  have hlt : w < s.nextPage := Nat.lt_of_not_le fun hle => by rw [hf w hle] at hw; cases hw
  have hwait : m ∈ thw.pc.head?.bind Instr.waitsFor := by simp [hm, Instr.waitsFor]
  obtain ⟨hb, xs, -, hl, hx⟩ := h w hlt thw hw m hwait
  exact ⟨hb, xs, hl, hx⟩

/-! ## The kernel state through its view -/

section View
variable {s : KState}

theorem KState.view_threads_eq_none {w : Tid} : s.view.threads w = none ↔ s.threads w = none := by
  simp [KState.view]

end View

/-! ## The bound -/

/-- A thread of priority `p` is created, runs at once and asks for lock 1, held by `main`. -/
def donorEvents (p : Int) : List Event :=
  createEvents p ++ [.exec, .call (.lockAcquire 1), .exec]

/-- `main` takes locks 1 and 2 and creates a thread of priority 35, which waits on semaphore 1.
A thread of priority 40 asks for lock 1 and donates 40 to `main`. `main` creates a thread of
priority 32, wakes the first and waits on semaphore 2; the thread of priority 35 asks for lock 2
and, finding `main` at 40, does not donate. The thread of priority 32 wakes `main`, which releases
lock 1 and falls back to 31; the donor takes lock 1 and exits. -/
def releaseRun : List Event :=
  [.call (.lockAcquire 1), .exec, .call (.lockAcquire 2), .exec] ++ createEvents 35 ++
  [.exec, .call (.semaDown 1), .exec] ++ donorEvents 40 ++ createEvents 32 ++
  [.call (.semaUp 1), .exec, .call (.semaDown 2), .exec, .exec, .call (.lockAcquire 2), .exec,
    .call (.semaUp 2), .exec, .exec, .exec, .call (.lockRelease 1), .exec, .exec, .exec,
    .call .threadExit, .exec]

theorem lock_release_drops_donation :
    ∃ s, Reachable Call.IsDonationApi false s ∧ s.Settled ∧ s.lockHolder 2 = some mainTid ∧
      s.WaiterPriority mainTid 35 ∧ (s.threads mainTid).map Thread.priority = some 31 ∧
      (s.threads s.cur).map Thread.priority = some 32 := by
  obtain ⟨s, hs, hp⟩ : ∃ s, Reachable Call.IsDonationApi false s ∧
      (decide (s.SettledBelow s.nextPage) && s.lockHolder 2 == some mainTid &&
        (s.threads 3).any (fun th => th.pc.head? == some (.lockAcquire 2 true) &&
          th.priority == 35) &&
        (s.threads mainTid).map Thread.priority == some 31 &&
        (s.threads s.cur).map Thread.priority == some 32) = true :=
    exists_reachable_of_run releaseRun (by decide) (by decide +kernel)
  simp only [Bool.and_eq_true, decide_eq_true_eq, beq_iff_eq, Option.any_eq_true] at hp
  obtain ⟨⟨⟨⟨hset, hholder⟩, thw, hw, hpc, hq⟩, hmain⟩, hcur⟩ := hp
  have hsettled : s.Settled := KState.settled_of_below hset fun w hw =>
    KState.view_threads_eq_none.mp ((DonationInv.of_reachable hs).fresh w hw)
  exact ⟨s, hs, hsettled, hholder, ⟨2, 3, thw, hholder, hw, hpc, hq⟩, hmain, hcur⟩

/-- `main` lowers its priority to 0 and takes lock 1; then threads of priorities 1, 2, …, 31
each ask for the lock, and each donates to `main`, which at each creation runs at the priority of
the last donor. The 31st donation finds `stored_index` at 30. -/
def overflowRun : List Event :=
  [.call (.threadSetPriority 0), .exec, .exec, .call (.lockAcquire 1), .exec] ++
    (List.range 31).flatMap fun k => donorEvents (k + 1)

set_option maxRecDepth 100000 in
theorem donation_stack_overflows :
    ∃ s e, Reachable Call.IsDonationApi false s ∧ e.allowed Call.IsDonationApi ∧
      stepEvent s e = .error .outOfBounds :=
  exists_faulting_step overflowRun Relation.ReflTransGen.refl (by decide) (by decide +kernel)

/-! ## `lock_try_acquire` -/

/-- Thread creation and the lock functions. -/
def Call.isLockApi : Call → Bool
  | .threadCreate _ | .lockInit _ | .lockAcquire _ | .lockTryAcquire _ | .lockRelease _ => true
  | _ => false

/-- `main` creates a thread of its own priority and takes lock 1 with `lock_try_acquire`; the
time slice ends between `sema_try_down` and the write of the holder, and the other thread asks
for the lock. -/
def tryAcquireRun : List Event :=
  createEvents 31 ++
  [.call (.lockTryAcquire 1), .exec, .tick, .tick, .tick, .tick, .call (.lockAcquire 1), .exec]

theorem try_acquire_null_holder :
    ∃ s e, Reachable (fun c => c.isLockApi) false s ∧ e.allowed (fun c => c.isLockApi) ∧
      stepEvent s e = .error .nullDeref :=
  exists_faulting_step tryAcquireRun Relation.ReflTransGen.refl (by decide) (by decide +kernel)

/-! ## Condition variables -/

def Call.isCondApi : Call → Bool
  | .threadCreate _ | .threadYield | .lockAcquire _ | .condInit _ | .condWait _ _
  | .condSignal _ _ => true
  | _ => false

/-- Three threads of priority 31. Thread 3 waits on condition 1; thread 4 starts to wait and its
time slice ends between `lock_release` and `sema_down`; `main` takes the lock and signals. -/
def condPreemptRun : List Event :=
  [.call (.condInit 1), .exec] ++
  createEvents 31 ++ [.call .threadYield, .exec, .call (.lockAcquire 1), .exec,
    .call (.condWait 1 1), .exec, .exec, .exec] ++
  createEvents 31 ++ [.call .threadYield, .exec, .call (.lockAcquire 1), .exec,
    .call (.condWait 1 1), .exec, .exec] ++
  [.tick, .tick, .tick, .tick, .call (.lockAcquire 1), .exec, .call (.condSignal 1 1)]

theorem cond_signal_front_of_empty :
    ∃ s, Reachable (fun c => c.isCondApi) false s ∧
      (s.threads s.cur).any (fun th => th.pc == [.condSignal 1 1]) = true ∧
      listFront s.heap (theList (.waiters (.waiter 4))) = none ∧
      condThreadPriorityLargeFunc s (.semaElem 3) (.semaElem 4) = none ∧
      stepEvent s .exec = .error .list := by
  obtain ⟨s, hs, hp⟩ : ∃ s, Reachable (fun c => c.isCondApi) false s ∧
      ((s.threads s.cur).any (fun th => th.pc == [.condSignal 1 1]) &&
        (listFront s.heap (theList (.waiters (.waiter 4)))).isNone &&
        (condThreadPriorityLargeFunc s (.semaElem 3) (.semaElem 4)).isNone &&
        runFault s [.exec] == some .list) = true :=
    exists_reachable_of_run condPreemptRun (by decide) (by decide +kernel)
  simp only [Bool.and_eq_true, Option.isNone_iff_eq_none, beq_iff_eq] at hp
  obtain ⟨⟨⟨hpc, hfront⟩, hless⟩, hstep⟩ := hp
  refine ⟨s, hs, hpc, hfront, hless, ?_⟩
  cases h : stepEvent s .exec with
  | error f =>
    simp only [runFault, runEvents, h, bind, Except.bind, Option.some.injEq] at hstep
    rw [hstep]
  | ok _ => simp [runFault, runEvents, h, bind, Except.bind] at hstep

end Pintos.Threads
