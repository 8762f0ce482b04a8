import Pintos.List.Wf
import Pintos.Threads.Step

/-! # The scheduler's queues and the alarm clock

What the ready list, the timer interrupt and `timer_sleep` do with threads, stated over whole runs.

* Three runs where the code breaks what the scheduler is meant to guarantee: a woken thread of
  higher priority waits in `ready_list` until the time slice ends; a donation moves a sleeping
  lock holder to `ready_list`, so it runs before its wake-up time; and when the holder's `elem` is
  stale, the same `list_remove` relinks nodes of other lists and leaves `ready_list` malformed.
-/

namespace Pintos.Threads
open LinkHeap KList
set_option autoImplicit false

/-- `thread_create (p)` run by the creating thread up to its yield check: `init_thread`, the
`tid_lock` section of `allocate_tid`, `thread_unblock` and the comparison of priorities. -/
def createEvents (p : Int) : List Event :=
  [.call (.threadCreate p), .exec, .exec, .exec, .exec, .exec]

/-! ## Preemption on return from the timer interrupt -/

/-- No thread on `ready_list` outranks the running thread. -/
def NoHigherReady (s : KState) : Prop :=
  ∀ xs ∈ forward s.heap readyList listFuel, ∀ e ∈ xs, ∀ p ∈ elemPriority s e,
    ∀ c ∈ s.threads s.cur, p ≤ c.priority

instance : DecidablePred NoHigherReady := fun s =>
  inferInstanceAs (Decidable (∀ xs ∈ forward s.heap readyList listFuel, ∀ e ∈ xs,
    ∀ p ∈ elemPriority s e, ∀ c ∈ s.threads s.cur, p ≤ c.priority))

/-- `main` creates a thread of priority 40, which runs at once and sleeps for one tick; `main`
(priority 31) runs again. The next tick wakes the sleeper and `main` keeps running. -/
def sleepOneTickRun : List Event :=
  createEvents 40 ++ [.exec, .call (.timerSleep 1), .exec, .exec]

theorem tick_leaves_higher_ready :
    ¬ ∀ s s', Reachable (fun _ => True) false s → stepEvent s .tick = .ok s' → NoHigherReady s' := by
  intro hall
  obtain ⟨s, hs, hp⟩ : ∃ s, Reachable (fun _ => True) false s ∧
      (stepEvent s .tick).toOption.any (fun s' => !decide (NoHigherReady s')) = true :=
    exists_reachable_of_run sleepOneTickRun (by decide) (by decide +kernel)
  cases hst : stepEvent s .tick with
  | error f => simp [hst, Except.toOption] at hp
  | ok s' => simp [hst, Except.toOption, hall s s' hs hst] at hp

/-! ## Sleeping threads -/

/-- The running thread, if it is resuming from `timer_sleep`, has reached its wake-up time. -/
def SleepersWait (s : KState) : Prop :=
  ∀ c ∈ s.threads s.cur, c.pc.head? = some .sleepResume → c.wakeUpTime ≤ s.ticks

instance : DecidablePred SleepersWait := fun s =>
  inferInstanceAs (Decidable (∀ c ∈ s.threads s.cur,
    c.pc.head? = some .sleepResume → c.wakeUpTime ≤ s.ticks))

/-- The calls of a run of sleeping threads and locks. -/
def Call.isSleepApi : Call → Bool
  | .threadCreate _ | .timerSleep _ | .lockAcquire _ | .lockRelease _ | .semaDown _
  | .semaUp _ | .semaTryDown _ | .threadYield => true
  | _ => false

/-- `main` takes lock 1 and creates a thread of priority 40, which sleeps for 5 ticks; `main` then
sleeps for 100 ticks, holding the lock. Tick 5 wakes the other thread, which runs once the idle
thread blocks and asks for lock 1: the donation puts `main` on `ready_list`, and `main` runs on
from `timer_sleep` at tick 5. -/
def donationToSleeperRun : List Event :=
  [.call (.lockAcquire 1), .exec] ++ createEvents 40 ++
  [.exec, .call (.timerSleep 5), .exec, .exec, .call (.timerSleep 100), .exec, .exec,
   .tick, .tick, .tick, .tick, .tick, .exec, .exec, .call (.lockAcquire 1), .exec]

theorem sleeper_resumes_early :
    ¬ ∀ s, Reachable (fun c => c.isSleepApi) false s → SleepersWait s := by
  intro hall
  obtain ⟨s, hs, hp⟩ : ∃ s, Reachable (fun c => c.isSleepApi) false s ∧
      (!decide (SleepersWait s)) = true :=
    exists_reachable_of_run donationToSleeperRun (by decide) (by decide +kernel)
  simp [hall s hs] at hp

/-! ## `ready_list` -/

/-- The calls of a run of the scheduler's queues. -/
def Call.isQueueApi : Call → Bool
  | .threadCreate _ | .threadYield | .semaDown _ | .semaUp _ | .lockAcquire _ | .lockRelease _
  | .condWait _ _ | .condSignal _ _ | .timerSleep _ => true
  | _ => false

/-- `main` creates a thread of priority 40, which sleeps for 5 ticks, and a thread `X` of its own
priority; `main` and `X` yield once each, which leaves `main`'s `elem` pointing at the head of
`ready_list` and at `X`. `main` takes lock 1 and sleeps, and so does `X`. At tick 5 the first
thread wakes and asks for lock 1: `list_remove` on `main`'s stale `elem` links the head of
`ready_list` to the sleeping `X`, `main` is queued before `X`, and once `main` runs again the list
read forwards holds `X` while read backwards it is empty. -/
def staleElemRun : List Event :=
  createEvents 40 ++ [.exec, .call (.timerSleep 5), .exec, .exec] ++ createEvents 31 ++
  [.call .threadYield, .exec, .call .threadYield, .exec, .call (.lockAcquire 1), .exec,
   .call (.timerSleep 100), .exec, .exec, .call (.timerSleep 100), .exec, .exec,
   .tick, .tick, .tick, .tick, .tick, .exec, .exec, .call (.lockAcquire 1), .exec, .exec]

theorem ready_list_malformed :
    ¬ ∀ s, Reachable (fun c => c.isQueueApi) false s → s.interruptsOn = true →
      ∃ xs, IsList s.heap readyList xs := by
  intro hall
  obtain ⟨s, hs, hp⟩ : ∃ s, Reachable (fun c => c.isQueueApi) false s ∧
      (s.interruptsOn && (forward s.heap readyList 8).any fun ys =>
        (backward s.heap readyList 8).any fun zs => zs != ys.reverse) = true :=
    exists_reachable_of_run staleElemRun (by decide) (by decide +kernel)
  simp only [Bool.and_eq_true, Option.any_eq_true, bne_iff_ne] at hp
  obtain ⟨hon, ys, hf, zs, hb, hne⟩ := hp
  obtain ⟨xs, hl⟩ := hall s hs hon
  exact hne (hl.walks_agree hf hb)

end Pintos.Threads
