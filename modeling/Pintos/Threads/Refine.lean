import Pintos.Lib.Except
import Pintos.Threads.Abstract

/-! # Every kernel step is a step of the view

`stepEvent_refines`: a successful step of the kernel changes the view by one `AbsStep` of the
running thread, or not at all. The scheduler functions (`schedule`, `thread_block`,
`thread_unblock`, `thread_yield`, the wake-up loop of the timer) touch only what the view
forgets; each has one lemma saying so, and the sections are then read one by one.
-/

namespace Pintos.Threads
open LinkHeap KList
open Except (bind_eq_ok pure_eq_ok foldlM_inv)
set_option autoImplicit false

/-! ## Reading `Except` computations -/

theorem getThread_ok {s : KState} {t : Tid} {th : Thread} :
    getThread s t = .ok th ↔ s.threads t = some th := by
  unfold getThread
  split <;> simp_all

/-! ## The view of an update -/

section View
variable (s : KState) (t : Tid) (th : Thread)

@[simp] theorem view_threads (u : Tid) : s.view.threads u = (s.threads u).map Thread.erase := rfl

@[simp] theorem view_lockHolder : s.view.lockHolder = s.lockHolder := rfl

@[simp] theorem view_semaValue : s.view.semaValue = s.semaValue := rfl

@[simp] theorem view_nextPage : s.view.nextPage = s.nextPage := rfl

@[simp] theorem view_threadMlfqs : s.view.threadMlfqs = s.threadMlfqs := rfl

@[simp] theorem view_heap (h : Heap Node) : ({ s with heap := h } : KState).view = s.view := rfl

@[simp] theorem view_withHolder (f : LockId → Option Tid) :
    ({ s with lockHolder := f } : KState).view = { s.view with lockHolder := f } := rfl

theorem view_setThread : (s.setThread t th).view = s.view.setThread t th.erase := by
  simp only [KState.view, KView.setThread]
  congr 1
  funext u
  by_cases hu : u = t <;> simp [hu]

theorem view_setPc (pc : List Instr) : (s.setPc t pc).view = s.view.setPc t pc := by
  unfold KState.setPc KView.setPc
  cases h : s.threads t with
  | none => simp [h]
  | some th => simp [h, view_setThread, Thread.erase]

theorem view_setThread_pc (h : s.threads t = some th) (st : ThreadStatus) (pc : List Instr) :
    (s.setThread t { th with status := st, pc := pc }).view = s.view.setPc t pc := by
  rw [view_setThread]
  simp only [KView.setPc, view_threads, h, Option.map_some]
  rfl

theorem view_setThread_same {th' : Thread} (h : s.threads t = some th) (he : th'.erase = th.erase) :
    (s.setThread t th').view = s.view := by
  rw [view_setThread, he]
  simp only [KView.setThread]
  rw [show some th.erase = s.view.threads t by simp [h], Function.update_eq_self]

end View

theorem KView.setPc_of_pc {v : KView} {t : Tid} {th : Thread} (h : v.threads t = some th) :
    v.setPc t th.pc = v := by
  simp only [KView.setPc, h, KView.setThread]
  rw [← h, Function.update_eq_self]

/-! ## The scheduler -/

theorem nextThreadToRun_ok {s s' : KState} {t : Tid} (h : nextThreadToRun s = .ok (s', t)) :
    ∃ hp, s' = { s with heap := hp } := by
  unfold nextThreadToRun at h
  split at h
  · cases h; exact ⟨s.heap, rfl⟩
  · obtain ⟨⟨hp, e⟩, -, h⟩ := bind_eq_ok.mp h
    obtain ⟨t', -, h⟩ := bind_eq_ok.mp h
    cases h
    exact ⟨hp, rfl⟩

theorem schedule_view {s s' : KState} (h : schedule s = .ok s') : s'.view = s.view := by
  unfold schedule at h
  obtain ⟨c, -, h⟩ := bind_eq_ok.mp h
  split at h
  · cases h
  · obtain ⟨⟨s1, next⟩, hn, h⟩ := bind_eq_ok.mp h
    obtain ⟨n, hnt, h⟩ := bind_eq_ok.mp h
    cases h
    obtain ⟨hp, rfl⟩ := nextThreadToRun_ok hn
    rw [getThread_ok] at hnt
    exact view_setThread_same _ _ n hnt rfl

theorem threadBlock_view {s s' : KState} {pc : List Instr} (h : threadBlock s pc = .ok s') :
    s'.view = s.view.setPc s.cur pc := by
  unfold threadBlock at h
  obtain ⟨c, hc, h⟩ := bind_eq_ok.mp h
  rw [schedule_view h, view_setThread_pc _ _ _ (getThread_ok.mp hc)]

theorem threadUnblock_view {s s' : KState} {t : Tid} (h : threadUnblock s t = .ok s') :
    s'.view = s.view := by
  unfold threadUnblock at h
  obtain ⟨th, hth, h⟩ := bind_eq_ok.mp h
  split at h
  · cases h
  · obtain ⟨hp, -, h⟩ := bind_eq_ok.mp h
    cases h
    exact view_setThread_same { s with heap := hp } t th (getThread_ok.mp hth) rfl

theorem threadUnblock_cur {s s' : KState} {t : Tid} (h : threadUnblock s t = .ok s') :
    s'.cur = s.cur := by
  unfold threadUnblock at h
  obtain ⟨th, -, h⟩ := bind_eq_ok.mp h
  split at h
  · cases h
  · obtain ⟨hp, -, h⟩ := bind_eq_ok.mp h
    cases h
    rfl

theorem threadYield_view {s s' : KState} {pc : List Instr} (h : threadYield s pc = .ok s') :
    s'.view = s.view.setPc s.cur pc := by
  unfold threadYield at h
  obtain ⟨c, hc, h⟩ := bind_eq_ok.mp h
  dsimp only at h
  have hh : ∃ hp, schedule ({ s with heap := hp }.setThread s.cur
      { c with status := .ready, pc := pc }) = .ok s' := by
    split at h
    · obtain ⟨hp, -, h⟩ := bind_eq_ok.mp h
      exact ⟨hp, h⟩
    · exact ⟨s.heap, h⟩
  obtain ⟨hp, h⟩ := hh
  rw [schedule_view h, view_setThread_pc { s with heap := hp } s.cur c (getThread_ok.mp hc),
    view_heap]

theorem semaUpCore_view {s s' : KState} {sid : SemaId} {y : Bool}
    (h : semaUpCore s sid = .ok (s', y)) :
    s'.view = s.view.setSema sid (s.semaValue sid + 1) := by
  unfold semaUpCore at h
  dsimp only at h
  have hh : ∃ (s1 : KState) (y1 : Bool), s1.view = s.view ∧
      (({ s1 with semaValue := Function.update s1.semaValue sid (s1.semaValue sid + 1) } : KState),
        y1) = (s', y) := by
    split at h
    · exact ⟨s, false, rfl, by simpa [bind, Except.bind, pure, Except.pure] using h⟩
    · obtain ⟨⟨hp, e⟩, -, h⟩ := bind_eq_ok.mp h
      obtain ⟨u, -, h⟩ := bind_eq_ok.mp h
      obtain ⟨nt, -, h⟩ := bind_eq_ok.mp h
      obtain ⟨c, -, h⟩ := bind_eq_ok.mp h
      obtain ⟨s2, h2, h⟩ := bind_eq_ok.mp h
      exact ⟨s2, _, (threadUnblock_view h2).trans (view_heap s hp),
        by simpa [bind, Except.bind, pure, Except.pure] using h⟩
  obtain ⟨s1, y1, hv, he⟩ := hh
  cases he
  have hsema : s1.semaValue = s.semaValue := congrArg KView.semaValue hv
  simp only [KState.view, KView.setSema, KView.mk.injEq] at hv ⊢
  exact ⟨hv.1, by rw [hsema], hv.2.2⟩

theorem semaUpCore_cur {s s' : KState} {sid : SemaId} {y : Bool}
    (h : semaUpCore s sid = .ok (s', y)) : s'.cur = s.cur := by
  unfold semaUpCore at h
  dsimp only at h
  split at h
  · simp only [bind, Except.bind, pure, Except.pure, Except.ok.injEq, Prod.mk.injEq] at h
    rw [← h.1]
  · obtain ⟨⟨hp, e⟩, -, h⟩ := bind_eq_ok.mp h
    obtain ⟨u, -, h⟩ := bind_eq_ok.mp h
    obtain ⟨nt, -, h⟩ := bind_eq_ok.mp h
    obtain ⟨c, -, h⟩ := bind_eq_ok.mp h
    obtain ⟨s2, h2, h⟩ := bind_eq_ok.mp h
    simp only [bind, Except.bind, pure, Except.pure, Except.ok.injEq, Prod.mk.injEq] at h
    have hc := threadUnblock_cur h2
    rw [← h.1]
    exact hc

theorem alarmWake_view : ∀ {k : Nat} {s s' : KState}, alarmWake k s = .ok s' → s'.view = s.view
  | 0, _, _, h => by simp [alarmWake] at h
  | k + 1, s, s', h => by
    unfold alarmWake at h
    split at h
    · cases h; rfl
    · obtain ⟨front, -, h⟩ := bind_eq_ok.mp h
      dsimp only at h
      split at h
      · -- the front element is a thread's
        obtain ⟨t, -, h⟩ := bind_eq_ok.mp h
        obtain ⟨th, -, h⟩ := bind_eq_ok.mp h
        split at h
        · cases h; rfl
        · obtain ⟨s1, h1, h⟩ := bind_eq_ok.mp h
          obtain ⟨⟨hp, e⟩, -, h⟩ := bind_eq_ok.mp h
          rw [alarmWake_view h, view_heap, threadUnblock_view h1]
      · obtain ⟨t, ht, -⟩ := bind_eq_ok.mp h
        cases ht

/-! ## One section at a time

Each lemma reads one function of `Ops` as the `AbsExec` step of the running thread. -/

section Sections
variable {s s' : KState} {rest : List Instr}

theorem semaDown_refines {sid : SemaId} {r : Bool} (h : semaDown s sid rest = .ok s') :
    AbsExec s.view s.cur (.semaDown sid r) rest s'.view := by
  unfold semaDown at h
  split at h
  · obtain ⟨hp, -, h⟩ := bind_eq_ok.mp h
    rw [threadBlock_view h, view_heap]
    exact AbsExec.semaDownWait ‹_›
  · cases h
    rw [view_setPc]
    exact AbsExec.semaDownTake ‹_›

theorem semaUp_refines {sid : SemaId} (h : (do
      let (s, y) ← semaUpCore s sid
      return s.setPc s.cur (if y then .yield true :: rest else rest)) = Except.ok s') :
    AbsExec s.view s.cur (.semaUp sid) rest s'.view := by
  obtain ⟨⟨s1, y⟩, h1, h⟩ := bind_eq_ok.mp h
  cases h
  rw [view_setPc, semaUpCore_view h1, semaUpCore_cur h1]
  exact AbsExec.semaUp y

theorem lockAcquireLoop_refines {l : LockId} {r : Bool} (hr : r = false → s.lockHolder l ≠ some s.cur)
    (h : lockAcquireLoop s l rest = .ok s') :
    AbsExec s.view s.cur (.lockAcquire l r) rest s'.view := by
  unfold lockAcquireLoop at h
  split at h
  · dsimp only at h
    split at h
    case h_2 => cases h
    case h_1 ht hH =>
    simp only [pure_bind] at h
    obtain ⟨H, hH', h⟩ := bind_eq_ok.mp h
    obtain ⟨C, hC, h⟩ := bind_eq_ok.mp h
    rw [getThread_ok] at hH' hC
    have hHv : s.view.lockHolder l = some ht := hH
    have hHv' : s.view.threads ht = some H.erase := by simp [hH']
    have hCv : s.view.threads s.cur = some C.erase := by simp [hC]
    split at h
    · -- the holder is outranked: it takes the donation
      obtain ⟨H', hd, h⟩ := bind_eq_ok.mp h
      obtain ⟨⟨hp1, e⟩, -, h⟩ := bind_eq_ok.mp h
      obtain ⟨hp2, -, h⟩ := bind_eq_ok.mp h
      obtain ⟨hp, -, h⟩ := bind_eq_ok.mp h
      rw [threadBlock_view h, view_heap (s.setThread ht H'), view_setThread]
      exact AbsExec.lockAcquireDonate hr ‹_› hHv hHv' hCv ‹_› hd
    · obtain ⟨hp, -, h⟩ := bind_eq_ok.mp h
      rw [threadBlock_view h, view_heap]
      exact AbsExec.lockAcquireWait hr ‹_› hHv hHv' hCv ‹_›
  · cases h
    rw [view_setPc]
    exact AbsExec.lockAcquireTake hr ‹_›

theorem lockRelease_refines {l : LockId} (h : lockRelease s l rest = .ok s') :
    AbsExec s.view s.cur (.lockRelease l) rest s'.view := by
  unfold lockRelease at h
  split at h
  · cases h
  · obtain ⟨C, hC, h⟩ := bind_eq_ok.mp h
    obtain ⟨C', hC', h⟩ := bind_eq_ok.mp h
    obtain ⟨⟨s1, y⟩, h1, h⟩ := bind_eq_ok.mp h
    cases h
    rw [getThread_ok] at hC
    have hholder : s.view.lockHolder l = some s.cur := by simpa using ‹¬s.lockHolder l ≠ some s.cur›
    have hCv : s.view.threads s.cur = some C.erase := by simp [hC]
    refine (AbsExec.lockRelease y hholder hCv hC').of_eq ?_
    rw [view_setPc, semaUpCore_view h1, semaUpCore_cur h1]
    ext u : 2 <;> simp
    by_cases hu : u = s.cur <;> simp [hu]

theorem condWaitEnqueue_refines {c : CondId} {l : LockId} (h : condWaitEnqueue s c l rest = .ok s') :
    AbsExec s.view s.cur (.condWaitEnqueue c l) rest s'.view := by
  unfold condWaitEnqueue at h
  split at h
  · cases h
  · obtain ⟨hp, -, h⟩ := bind_eq_ok.mp h
    cases h
    have hholder : s.view.lockHolder l = some s.cur := by simpa using ‹¬s.lockHolder l ≠ some s.cur›
    rw [view_setPc]
    exact AbsExec.condWaitEnqueue hholder

theorem condSignal_refines {c : CondId} {l : LockId} (h : condSignal s c l rest = .ok s') :
    AbsExec s.view s.cur (.condSignal c l) rest s'.view := by
  unfold condSignal at h
  split at h
  · cases h
  · have hholder : s.view.lockHolder l = some s.cur := by simpa using ‹¬s.lockHolder l ≠ some s.cur›
    dsimp only at h
    split at h
    · cases h
      rw [view_setPc]
      exact AbsExec.condSignalEmpty hholder
    · obtain ⟨hp, -, h⟩ := bind_eq_ok.mp h
      obtain ⟨⟨hp', e⟩, -, h⟩ := bind_eq_ok.mp h
      split at h
      case h_2 => cases h
      case h_1 w _ =>
      cases h
      rw [view_setPc, view_heap]
      exact AbsExec.condSignal w hholder

theorem threadSetPriority_refines {p : Int} (h : threadSetPriority s p rest = .ok s') :
    AbsExec s.view s.cur (.setPriority p) rest s'.view := by
  unfold threadSetPriority at h
  split at h
  · cases h
    rw [view_setPc]
    exact AbsExec.setPriorityMlfqs ‹_›
  · obtain ⟨C, hC, h⟩ := bind_eq_ok.mp h
    rw [getThread_ok] at hC
    have hCv : s.view.threads s.cur = some C.erase := by simp [hC]
    have hm : s.view.threadMlfqs = false := by simpa using ‹¬s.threadMlfqs = true›
    split at h
    · cases h
      rw [view_setThread]
      exact AbsExec.setPriorityDonated hm hCv (‹C.storedIndex ≠ 0› : C.erase.storedIndex ≠ 0)
    · cases h
      rw [view_setThread]
      exact AbsExec.setPriorityPlain hm hCv (not_not.mp ‹¬C.storedIndex ≠ 0›)

theorem updatePriorityWithNice_ok {t : Tid} (h : updatePriorityWithNice s t = .ok s') :
    s.threadMlfqs = true ∧
      (s' = s ∨ ∃ th q, s.threads t = some th ∧ s' = s.setThread t { th with priority := q }) := by
  unfold updatePriorityWithNice at h
  dsimp only at h
  split at h
  · cases h
  · refine ⟨by simpa using ‹¬(!s.threadMlfqs) = true›, ?_⟩
    split at h
    · cases h; exact .inl rfl
    · obtain ⟨th, hth, h⟩ := bind_eq_ok.mp h
      cases h
      exact .inr ⟨th, _, getThread_ok.mp hth, rfl⟩

theorem updatePriorityWithNice_view {t : Tid} (h : updatePriorityWithNice s t = .ok s') :
    s.view.PrioritiesOnly s'.view := by
  obtain ⟨-, rfl | ⟨th, q, hth, rfl⟩⟩ := updatePriorityWithNice_ok h
  · exact .refl _
  · have hv : s.view.threads t = some th.erase := by simp [hth]
    rw [view_setThread]
    exact KView.PrioritiesOnly.of_setPriority hv q

theorem updatePriorityWithNice_cur {t : Tid} (h : updatePriorityWithNice s t = .ok s') :
    s'.cur = s.cur := by
  obtain ⟨-, rfl | ⟨th, q, -, rfl⟩⟩ := updatePriorityWithNice_ok h <;> rfl

theorem threadSetNice_refines {n : Int} (h : threadSetNice s n rest = .ok s') :
    AbsExec s.view s.cur (.setNice n) rest s'.view := by
  unfold threadSetNice at h
  split at h
  · cases h
  obtain ⟨C, hC, h⟩ := bind_eq_ok.mp h
  obtain ⟨s2, h2, h⟩ := bind_eq_ok.mp h
  rw [getThread_ok] at hC
  have hm : s.view.threadMlfqs = true := by simpa using ‹¬(!s.threadMlfqs) = true›
  -- the new nice value is invisible; the new priority, if any, is the one visible change
  obtain ⟨q, hv⟩ : ∃ q, s2.view = s.view.setThread s.cur { C.erase with priority := q } := by
    obtain ⟨-, rfl | ⟨th, q, hth, rfl⟩⟩ := updatePriorityWithNice_ok h2
    · exact ⟨C.priority, by rw [view_setThread]; rfl⟩
    · simp only [setThread_threads, if_true, Option.some.injEq] at hth
      subst hth
      exact ⟨q, by rw [view_setThread, view_setThread, KView.setThread_setThread]; rfl⟩
  have hcur : s2.cur = s.cur := by rw [updatePriorityWithNice_cur h2, setThread_cur]
  obtain ⟨y, rfl⟩ : ∃ y : Bool, s' = s2.setPc s2.cur (if y then .yield true :: rest else rest) := by
    obtain ⟨C2, -, h⟩ := bind_eq_ok.mp h
    split at h
    · exact ⟨false, by cases h; rfl⟩
    · obtain ⟨f, -, h⟩ := bind_eq_ok.mp h
      split at h
      · obtain ⟨fp, -, h⟩ := bind_eq_ok.mp h
        cases h
        exact ⟨decide (fp > C2.priority), by simp only [decide_eq_true_eq]⟩
      · cases h
  have hCv : s.view.threads s.cur = some C.erase := by simp [hC]
  rw [view_setPc, hv, hcur, KView.setPc_setThread]
  exact @AbsExec.setNice s.view s.cur n rest C.erase q y hm hCv

theorem createInit_refines {p : Int} (h : createInit s p rest = .ok s') :
    AbsExec s.view s.cur (.createInit p) rest s'.view := by
  unfold createInit at h
  split at h
  · cases h
  · cases h
    obtain ⟨hlo, hhi⟩ := not_not.mp ‹¬¬(PRI_MIN ≤ p ∧ p ≤ PRI_MAX)›
    rw [view_setPc, view_setThread]
    exact AbsExec.createInit hlo hhi

theorem createYieldCheck_refines {u : Tid} (h : createYieldCheck s u rest = .ok s') :
    AbsExec s.view s.cur (.createYieldCheck u) rest s'.view := by
  unfold createYieldCheck at h
  obtain ⟨C, -, h⟩ := bind_eq_ok.mp h
  obtain ⟨T, -, h⟩ := bind_eq_ok.mp h
  cases h
  rw [view_setPc]
  exact (AbsExec.createYieldCheck (decide (C.priority < T.priority))).of_eq
    (by simp only [decide_eq_true_eq])

theorem threadExit_refines (h : threadExit s = .ok s') :
    AbsExec s.view s.cur .exit rest s'.view := by
  unfold threadExit at h
  obtain ⟨C, hC, h⟩ := bind_eq_ok.mp h
  rw [schedule_view h,
    view_setThread_pc { s with allList := s.allList.erase s.cur } s.cur C (getThread_ok.mp hC)]
  exact AbsExec.exit

theorem sleepBlock_refines {start n : Int} (h : sleepBlock s start n rest = .ok s') :
    AbsExec s.view s.cur (.sleepBlock start n) rest s'.view := by
  unfold sleepBlock at h
  obtain ⟨C, hC, h⟩ := bind_eq_ok.mp h
  obtain ⟨hp, -, h⟩ := bind_eq_ok.mp h
  rw [threadBlock_view h, view_heap (s.setThread s.cur { C with wakeUpTime := n + start }),
    @view_setThread_same s s.cur C { C with wakeUpTime := n + start } (getThread_ok.mp hC) rfl]
  exact AbsExec.sleepBlock

theorem execInstr_refines {i : Instr} (h : execInstr s i rest = .ok s') :
    AbsExec s.view s.cur i rest s'.view := by
  cases i with
  | semaInit sid n =>
    cases h
    rw [view_setPc]
    exact AbsExec.semaInit
  | semaDown sid r => exact semaDown_refines h
  | semaTryDown sid =>
    cases h
    rw [view_setPc]
    unfold semaTryDown
    split
    · exact AbsExec.semaTryDownTake (by simp only [view_semaValue]; omega)
    · exact AbsExec.semaTryDownFail (by simp only [view_semaValue]; omega)
  | semaUp sid => exact semaUp_refines h
  | yield b =>
    rw [threadYield_view h]
    exact AbsExec.yield
  | lockInit l =>
    cases h
    rw [view_setPc]
    exact AbsExec.lockInit
  | lockAcquire l r =>
    simp only [execInstr] at h
    split at h
    · cases h
    · refine lockAcquireLoop_refines (fun hr hl => ?_) h
      simp_all
  | lockTryAcquire l =>
    simp only [execInstr, semaTryDown] at h
    split at h
    · cases h
    · have hl : s.view.lockHolder l ≠ some s.cur := ‹_›
      split at h
      · cases h
        rw [view_setPc]
        exact AbsExec.lockTryAcquireTake hl (by simp only [view_semaValue]; omega)
      · cases h
        rw [view_setPc]
        exact AbsExec.lockTryAcquireFail hl (by simp only [view_semaValue]; omega)
  | lockTrySetHolder l =>
    cases h
    rw [view_setPc]
    exact AbsExec.lockTrySetHolder
  | lockRelease l => exact lockRelease_refines h
  | condInit c =>
    cases h
    rw [view_setPc, view_heap]
    exact AbsExec.condInit
  | condWaitEnqueue c l => exact condWaitEnqueue_refines h
  | condSignal c l => exact condSignal_refines h
  | condBroadcast c l =>
    cases h
    rw [view_setPc]
    exact AbsExec.condBroadcast _
  | setPriority p => exact threadSetPriority_refines h
  | setNice n => exact threadSetNice_refines h
  | createInit p => exact createInit_refines h
  | createUnblock u =>
    obtain ⟨s1, h1, h⟩ := bind_eq_ok.mp h
    cases h
    rw [view_setPc, threadUnblock_view h1, threadUnblock_cur h1]
    exact AbsExec.createUnblock
  | createYieldCheck u => exact createYieldCheck_refines h
  | exit => exact threadExit_refines h
  | timerSleep n =>
    cases h
    rw [view_setPc]
    exact AbsExec.timerSleep s.ticks
  | sleepBlock start n => exact sleepBlock_refines h
  | sleepResume =>
    cases h
    rw [view_setPc]
    exact AbsExec.sleepResume
  | idleLoop =>
    rw [threadBlock_view h]
    exact AbsExec.idleLoop

end Sections

/-! ## The timer

A tick changes nothing the view keeps, except that the advanced scheduler recomputes
priorities. -/

section Timer
variable {s s' : KState}

theorem threadInsRecentCpu_view (h : threadInsRecentCpu s = .ok s') : s'.view = s.view := by
  unfold threadInsRecentCpu at h
  split at h
  · cases h; rfl
  · obtain ⟨C, hC, h⟩ := bind_eq_ok.mp h
    cases h
    exact view_setThread_same s s.cur C (getThread_ok.mp hC) rfl

theorem updateLoadAvg_view (h : updateLoadAvg s = .ok s') : s'.view = s.view := by
  unfold updateLoadAvg at h
  obtain ⟨co, -, h⟩ := bind_eq_ok.mp h
  cases h
  rfl

theorem updateRecentCpu_view {t : Tid} (h : updateRecentCpu s t = .ok s') : s'.view = s.view := by
  unfold updateRecentCpu at h
  split at h
  · cases h; rfl
  · obtain ⟨th, hth, h⟩ := bind_eq_ok.mp h
    dsimp only at h
    split at h
    · cases h
    · cases h
      exact view_setThread_same s t th (getThread_ok.mp hth) rfl

theorem updateRecentCpuAll_view (h : updateRecentCpuAll s = .ok s') :
    s.view.PrioritiesOnly s'.view := by
  unfold updateRecentCpuAll threadForeach at h
  obtain ⟨s1, h1, h⟩ := bind_eq_ok.mp h
  obtain ⟨s2, h2, h⟩ := bind_eq_ok.mp h
  obtain ⟨hp, -, h⟩ := bind_eq_ok.mp h
  cases h
  have e1 : s1.view = s.view :=
    foldlM_inv (fun x : KState => x.view = s.view)
      (fun _ _ _ hb hf => (updateRecentCpu_view hf).trans hb) _ rfl h1
  have e2 : s1.view.PrioritiesOnly s2.view :=
    foldlM_inv (fun x : KState => s1.view.PrioritiesOnly x.view)
      (fun _ _ _ hb hf => hb.trans (updatePriorityWithNice_view hf)) _ (.refl _) h2
  rw [view_heap, ← e1]
  exact e2

theorem mlfqsTick_view (h : mlfqsTick s = .ok s') : s.view.PrioritiesOnly s'.view := by
  unfold mlfqsTick at h
  obtain ⟨s1, h1, h⟩ := bind_eq_ok.mp h
  rw [← threadInsRecentCpu_view h1]
  dsimp only at h
  obtain ⟨s2, e2, h⟩ : ∃ s2, s1.view.PrioritiesOnly s2.view ∧
      (if s2.ticks % 4 = 0 then updatePriorityWithNice s2 s2.cur else pure s2) = .ok s' := by
    split at h
    · obtain ⟨s3, h3, h⟩ := bind_eq_ok.mp h
      obtain ⟨s2, h2, h⟩ := bind_eq_ok.mp h
      rw [← updateLoadAvg_view h3] at *
      exact ⟨s2, updateRecentCpuAll_view h2, h⟩
    · exact ⟨s1, .refl _, by simpa using h⟩
  split at h
  · exact e2.trans (updatePriorityWithNice_view h)
  · cases h
    exact e2

theorem timerInterrupt_view {y : Bool} (h : timerInterrupt s = .ok (s', y)) :
    s.view.PrioritiesOnly s'.view ∧ (s.threadMlfqs = false → s'.view = s.view) := by
  unfold timerInterrupt at h
  obtain ⟨s1, h1, h⟩ := bind_eq_ok.mp h
  have e1 : s1.view = s.view := (alarmWake_view h1).trans rfl
  have hm : s1.threadMlfqs = s.threadMlfqs := congrArg KView.threadMlfqs e1
  split at h
  · obtain ⟨s2, h2, h⟩ := bind_eq_ok.mp h
    cases h
    refine ⟨e1 ▸ mlfqsTick_view h2, fun hf => ?_⟩
    simp_all
  · cases h
    exact ⟨e1 ▸ .refl _, fun _ => e1⟩

end Timer

/-! ## Runs -/

theorem stepEvent_refines {ok : Call → Prop} {s s' : KState} {e : Event} (he : e.allowed ok)
    (h : stepEvent s e = .ok s') : AbsStep ok s.view s'.view ∨ s'.view = s.view := by
  cases e with
  | call c =>
    simp only [stepEvent] at h
    obtain ⟨C, hC, h⟩ := bind_eq_ok.mp h
    have hCv : s.view.threads s.cur = some C.erase := by simp [getThread_ok.mp hC]
    split at h
    · cases h
    · cases h
      rw [view_setPc]
      exact .inl (AbsStep.call he hCv (not_not.mp ‹¬C.pc ≠ []›))
  | exec =>
    simp only [stepEvent] at h
    obtain ⟨C, hC, h⟩ := bind_eq_ok.mp h
    have hCv : s.view.threads s.cur = some C.erase := by simp [getThread_ok.mp hC]
    split at h
    case h_1 => cases h
    case h_2 i rest hpc =>
    exact .inl (AbsStep.exec hCv hpc (execInstr_refines h))
  | tick =>
    simp only [stepEvent] at h
    obtain ⟨C, -, h⟩ := bind_eq_ok.mp h
    split at h
    · cases h
    obtain ⟨⟨s1, y⟩, h1, h⟩ := bind_eq_ok.mp h
    obtain ⟨hp, hf⟩ := timerInterrupt_view h1
    dsimp only at h
    -- the yield of `intr_handler` resumes the thread where it was interrupted
    have e : s'.view = s1.view := by
      split at h
      · obtain ⟨C1, hC1, h⟩ := bind_eq_ok.mp h
        have hC1v : s1.view.threads s1.cur = some C1.erase := by simp [getThread_ok.mp hC1]
        rw [threadYield_view h]
        exact @KView.setPc_of_pc s1.view s1.cur C1.erase hC1v
      · cases h; rfl
    rw [e]
    cases hm : s.threadMlfqs
    · exact .inr (hf hm)
    · exact .inl (AbsStep.recompute hm hp)

theorem Reachable.view {ok : Call → Prop} {mlfqs : Bool} {s : KState}
    (h : Reachable ok mlfqs s) : AbsReach ok mlfqs s.view := by
  induction h with
  | refl => exact .refl
  | tail _ hst ih =>
    obtain ⟨e, he, hs⟩ := hst
    rcases stepEvent_refines he hs with hstep | heq
    · exact ih.tail hstep
    · exact heq ▸ ih

end Pintos.Threads
