import Pintos.Threads.Refine
import Pintos.Threads.Stack

/-! # Priority donation over every run

The invariant of the donation code, proved over the abstract steps (`AbsStep`) in priority mode
and carried to the kernel by `Reachable.view`. The calls are those of the donation API
(`Call.IsDonationApi`): thread creation, `thread_set_priority` within `[PRI_MIN, PRI_MAX]`,
`thread_yield`, `thread_exit`, `sema_down`/`sema_up`, `lock_acquire`/`lock_release` and
`cond_wait`/`cond_signal`.

* `KView.Backs v t e`: level `e` of thread `t` is tagged with a lock `t` holds, and some thread
  waiting in `lock_acquire` for that lock has at least its priority.
* `StackOk`: a thread's levels (`Thread.levels`) start with its base priority, stay in
  `[PRI_MIN, PRI_MAX]`, and above the base are strictly increasing and backed.
* `DonationInv`: every thread's stack is well formed, together with what the donation code
  relies on: the lock semaphores count 0 or 1 and are 0 while held, a waiter never holds the lock
  it waits for, continuations hold only sections of the API, fresh pages are empty.
-/

namespace Pintos.Threads
set_option autoImplicit false

/-! ## The calls and the continuations -/

def SemaId.isLock : SemaId → Bool
  | .lock _ => true
  | _ => false

/-- Sections that the donation API can put in a continuation. -/
def Instr.LockSafe : Instr → Prop
  | .semaInit sid _ => sid.isLock = false
  | .semaDown sid _ => sid.isLock = false
  | .semaTryDown sid => sid.isLock = false
  | .semaUp sid => sid.isLock = false
  | .lockInit _ => False
  | .lockTryAcquire _ => False
  | .lockTrySetHolder _ => False
  | .setPriority p => PRI_MIN ≤ p ∧ p ≤ PRI_MAX
  | .setNice _ => False
  | _ => True

/-- The section a thread blocked in the loop of `lock_acquire` resumes at. -/
def Instr.resumesAcquire : Instr → Bool
  | .lockAcquire _ r => r
  | _ => false

/-- A continuation of the donation API: its sections are `LockSafe`, and only its first can be a
resumed `lock_acquire`. -/
def PcOk (pc : List Instr) : Prop :=
  (∀ i ∈ pc, i.LockSafe) ∧ ∀ i ∈ pc.tail, i.resumesAcquire = false

/-- The calls that create threads, set their priority, and use semaphores, locks and condition
variables. -/
def Call.IsDonationApi : Call → Prop
  | .threadCreate _ | .threadYield | .threadExit | .semaDown _ | .semaUp _
  | .lockAcquire _ | .lockRelease _ | .condWait _ _ | .condSignal _ _ => True
  | .threadSetPriority p => PRI_MIN ≤ p ∧ p ≤ PRI_MAX
  | _ => False

instance : DecidablePred Call.IsDonationApi := fun c => by
  cases c <;> unfold Call.IsDonationApi <;> infer_instance

theorem Call.IsDonationApi.pcOk {c : Call} (h : c.IsDonationApi) : PcOk c.body := by
  refine ⟨fun i hi => ?_, fun i hi => by cases c <;> simp_all [Call.body]⟩
  cases c <;> simp_all [Call.body, Call.IsDonationApi, Instr.LockSafe, SemaId.isLock]

/-! ## The invariant -/

/-- Thread `w` is waiting in the loop of `lock_acquire` for lock `m`. -/
def KView.Waits (v : KView) (w : Tid) (m : LockId) (thw : Thread) : Prop :=
  v.threads w = some thw ∧ thw.pc.head? = some (.lockAcquire m true)

/-- Level `e` of thread `t` is tagged with a lock `t` holds, for which some thread with at least
its priority waits. -/
def KView.Backs (v : KView) (t : Tid) (e : Int × Option LockId) : Prop :=
  ∃ m w thw, e.2 = some m ∧ v.lockHolder m = some t ∧ v.Waits w m thw ∧ e.1 ≤ thw.priority

structure StackOk (v : KView) (t : Tid) (th : Thread) : Prop where
  index : 0 ≤ th.storedIndex ∧ th.storedIndex ≤ 30
  bottom : th.levels.head? = some (th.basePriority, none)
  range : ∀ e ∈ th.levels, PRI_MIN ≤ e.1 ∧ e.1 ≤ PRI_MAX
  increasing : th.levels.tail.Pairwise (fun a b => a.1 < b.1)
  backed : ∀ e ∈ th.levels.tail, v.Backs t e

structure DonationInv (v : KView) : Prop where
  mlfqs : v.threadMlfqs = false
  fresh : ∀ t, v.nextPage ≤ t → v.threads t = none
  pcOk : ∀ t th, v.threads t = some th → PcOk th.pc
  lockFree : ∀ l, v.lockHolder l ≠ none → v.semaValue (.lock l) = 0
  lockOne : ∀ l, v.semaValue (.lock l) ≤ 1
  waiterNotHolder : ∀ w m thw, v.Waits w m thw → v.lockHolder m ≠ some w
  stack : ∀ t th, v.threads t = some th → StackOk v t th

/-! ## Continuations -/

namespace PcOk
variable {i : Instr} {rest xs : List Instr}

theorem head (hp : PcOk (i :: rest)) : i.LockSafe := hp.1 i (List.mem_cons_self ..)

theorem tail (hp : PcOk (i :: rest)) : PcOk rest :=
  ⟨fun j hj => hp.1 j (List.mem_cons_of_mem i hj),
    fun j hj => hp.2 j (List.mem_of_mem_tail hj)⟩

theorem prepend (hp : PcOk (i :: rest)) (hx : PcOk xs) : PcOk (xs ++ rest) := by
  refine ⟨fun j hj => ?_, fun j hj => ?_⟩
  · rcases List.mem_append.mp hj with hj | hj
    · exact hx.1 j hj
    · exact hp.1 j (List.mem_cons_of_mem i hj)
  · cases xs with
    | nil => exact hp.2 j (List.mem_of_mem_tail hj)
    | cons x xs =>
      rcases List.mem_append.mp hj with hj | hj
      · exact hx.2 j hj
      · exact hp.2 j hj

theorem singleton {x : Instr} (hx : x.LockSafe) : PcOk [x] :=
  ⟨fun j hj => by rw [List.mem_singleton.mp hj]; exact hx, fun j hj => by simp at hj⟩

theorem rest_not_waiting (hp : PcOk (i :: rest)) (m : LockId) :
    rest.head? ≠ some (.lockAcquire m true) := by
  intro h
  have hmem : Instr.lockAcquire m true ∈ rest := List.mem_of_head? h
  simpa [Instr.resumesAcquire] using hp.2 _ hmem

end PcOk

/-! ## Waiters -/

/-- Every waiter of `v` for a held lock still waits for it in `v'`, with no lower priority. -/
def KView.WaitersKept (v v' : KView) : Prop :=
  ∀ w m thw, v.Waits w m thw → v.lockHolder m ≠ none →
    ∃ thw', v'.Waits w m thw' ∧ thw.priority ≤ thw'.priority

theorem KView.WaitersKept.of_threads {v v' : KView} (h : v'.threads = v.threads) :
    v.WaitersKept v' := fun w m thw hw _ => ⟨thw, by rwa [KView.Waits, h], Int.le_refl _⟩

theorem KView.Backs.mono {v v' : KView} {t : Tid} {e : Int × Option LockId} (h : v.Backs t e)
    (hk : v.WaitersKept v') (hh : ∀ m, e.2 = some m → v.lockHolder m = some t →
      v'.lockHolder m = some t) : v'.Backs t e := by
  obtain ⟨m, w, thw, he, hm, hw, hp⟩ := h
  obtain ⟨thw', hw', hp'⟩ := hk w m thw hw (by simp [hm])
  exact ⟨m, w, thw', he, hh m he hm, hw', Int.le_trans hp hp'⟩

theorem StackOk.mono {v v' : KView} {t : Tid} {th : Thread} (h : StackOk v t th)
    (hk : v.WaitersKept v') (hh : ∀ e ∈ th.levels.tail, ∀ m, e.2 = some m →
      v.lockHolder m = some t → v'.lockHolder m = some t) :
    StackOk v' t th :=
  ⟨h.index, h.bottom, h.range, h.increasing,
    fun e he => (h.backed e he).mono hk (hh e he)⟩

theorem StackOk.congr {v : KView} {t : Tid} {th th' : Thread} (h : StackOk v t th)
    (hl : th'.levels = th.levels) (hb : th'.basePriority = th.basePriority)
    (hi : th'.storedIndex = th.storedIndex) : StackOk v t th' :=
  ⟨hi ▸ h.index, hl ▸ hb ▸ h.bottom, hl ▸ h.range, hl ▸ h.increasing, hl ▸ h.backed⟩

theorem StackOk.le_top {v : KView} {t : Tid} {th : Thread} (h : StackOk v t th)
    {e : Int × Option LockId} (he : e ∈ th.levels.tail) : e.1 ≤ th.priority := by
  have hinc := h.increasing
  unfold Thread.levels at he hinc
  cases hs : th.stack with
  | nil => simp [hs] at he
  | cons b bs =>
    rw [hs, List.cons_append, List.tail_cons] at he hinc
    rcases List.mem_append.mp he with he | he
    · exact Int.le_of_lt ((List.pairwise_append.mp hinc).2.2 e he _ (List.mem_singleton_self _))
    · obtain rfl := List.mem_singleton.mp he
      exact Int.le_refl _

theorem StackOk.single {v : KView} {t : Tid} {th : Thread} (h0 : th.storedIndex = 0)
    (hpm : th.priorityLockMaster = none) (hb : th.basePriority = th.priority)
    (hr : PRI_MIN ≤ th.priority ∧ th.priority ≤ PRI_MAX) : StackOk v t th := by
  have hl := Thread.levels_of_index_zero h0
  rw [hpm] at hl
  refine ⟨by omega, by rw [hl, hb]; rfl, fun e he => ?_, by rw [hl]; simp,
    fun e he => by simp [hl] at he⟩
  rw [hl, List.mem_singleton] at he
  rw [he]
  exact hr

/-! ## Steps that only move a thread forward -/

section Frame
variable {v : KView} {t : Tid} {th : Thread}

/-- A new continuation for `t`: a waiter for a held lock keeps waiting, and a new waiter does
not hold its lock. -/
theorem DonationInv.setPc (hv : DonationInv v) (ht : v.threads t = some th) {pc : List Instr}
    (hpc : PcOk pc)
    (hkeep : ∀ m, th.pc.head? = some (.lockAcquire m true) → v.lockHolder m ≠ none →
      pc.head? = some (.lockAcquire m true))
    (hwait : ∀ m, pc.head? = some (.lockAcquire m true) → v.lockHolder m ≠ some t) :
    DonationInv (v.setPc t pc) := by
  have hth : ∀ u, (v.setPc t pc).threads u =
      if u = t then some { th with pc := pc } else v.threads u := by
    intro u; simp [ht]
  have hk : v.WaitersKept (v.setPc t pc) := by
    rintro w m thw ⟨hw, hh⟩ hm
    by_cases hwt : w = t
    · subst hwt
      rw [ht, Option.some.injEq] at hw
      subst hw
      exact ⟨{ th with pc := pc }, ⟨by rw [hth, if_pos rfl], hkeep m hh hm⟩, Int.le_refl _⟩
    · exact ⟨thw, ⟨by rw [hth, if_neg hwt]; exact hw, hh⟩, Int.le_refl _⟩
  refine ⟨by simpa using hv.mlfqs, fun u hu => ?_, fun u thu hu => ?_, fun l => ?_,
    fun l => ?_, ?_, fun u thu hu => ?_⟩
  · have hne : u ≠ t := fun h => by
      rw [h] at hu
      rw [hv.fresh t (by simpa using hu)] at ht
      cases ht
    rw [hth, if_neg hne]
    exact hv.fresh u (by simpa using hu)
  · rw [hth] at hu
    split at hu
    · cases hu; exact hpc
    · exact hv.pcOk u thu hu
  · simpa using hv.lockFree l
  · simpa using hv.lockOne l
  · rintro w m thw ⟨hw, hh⟩
    rw [hth] at hw
    split at hw
    · cases hw
      rename_i hwt
      subst hwt
      simpa using hwait m hh
    · exact by simpa using hv.waiterNotHolder w m thw ⟨hw, hh⟩
  · rw [hth] at hu
    split at hu
    · cases hu
      rename_i hut
      subst hut
      exact ((hv.stack u th ht).mono hk (fun _ _ m _ hm => by simpa using hm)).congr rfl rfl rfl
    · exact (hv.stack u thu hu).mono hk (fun _ _ m _ hm => by simpa using hm)

theorem DonationInv.setPc_plain (hv : DonationInv v) (ht : v.threads t = some th)
    {i : Instr} {rest pc : List Instr} (hpc : th.pc = i :: rest) (hi : i.resumesAcquire = false)
    (hnew : PcOk pc) (hnw : ∀ m, pc.head? ≠ some (.lockAcquire m true)) :
    DonationInv (v.setPc t pc) :=
  hv.setPc ht hnew
    (fun m hm => absurd hi (by rw [hpc] at hm; cases hm; simp [Instr.resumesAcquire]))
    (fun m hm => absurd hm (hnw m))

theorem DonationInv.cont (hv : DonationInv v) (ht : v.threads t = some th) {i : Instr}
    {rest : List Instr} (hpc : th.pc = i :: rest) (hi : i.resumesAcquire = false)
    (xs : List Instr) (hx : PcOk xs) (hxw : ∀ m, xs.head? ≠ some (.lockAcquire m true)) :
    DonationInv (v.setPc t (xs ++ rest)) := by
  have hp := hv.pcOk t th ht
  rw [hpc] at hp
  refine hv.setPc_plain ht hpc hi (hp.prepend hx) (fun m => ?_)
  cases xs with
  | nil => exact hp.rest_not_waiting m
  | cons x xs => simpa using hxw m

theorem DonationInv.next (hv : DonationInv v) (ht : v.threads t = some th) {i : Instr}
    {rest : List Instr} (hpc : th.pc = i :: rest) (hi : i.resumesAcquire = false) :
    DonationInv (v.setPc t rest) :=
  hv.cont ht hpc hi [] ⟨by simp, by simp⟩ (by simp)

theorem DonationInv.setSema (hv : DonationInv v) {sid : SemaId} (hs : sid.isLock = false)
    (n : Nat) : DonationInv (v.setSema sid n) := by
  have hl : ∀ l, (v.setSema sid n).semaValue (.lock l) = v.semaValue (.lock l) := fun l => by
    have : SemaId.lock l ≠ sid := fun h => by rw [← h] at hs; simp [SemaId.isLock] at hs
    simp [Function.update_of_ne this]
  exact ⟨hv.mlfqs, hv.fresh, hv.pcOk, fun l hh => (hl l).trans (hv.lockFree l hh),
    fun l => (hl l).trans_le (hv.lockOne l), hv.waiterNotHolder,
    fun u thu hu => (hv.stack u thu hu).mono (KView.WaitersKept.of_threads rfl)
      (fun _ _ _ _ hm => hm)⟩

theorem DonationInv.setOwn (hv : DonationInv v) (ht : v.threads t = some th) {th' : Thread}
    (hold : ∀ m, th.pc.head? ≠ some (.lockAcquire m true))
    (hnew : ∀ m, th'.pc.head? ≠ some (.lockAcquire m true)) (hpc : PcOk th'.pc)
    (hs : StackOk v t th') : DonationInv (v.setThread t th') := by
  have hth : ∀ u, (v.setThread t th').threads u = if u = t then some th' else v.threads u :=
    fun u => by simp
  have hk : v.WaitersKept (v.setThread t th') := by
    rintro w m thw ⟨hw, hh⟩ -
    have hwt : w ≠ t := fun h => by
      subst h
      rw [ht, Option.some.injEq] at hw
      subst hw
      exact hold m hh
    exact ⟨thw, ⟨by rw [hth, if_neg hwt]; exact hw, hh⟩, Int.le_refl _⟩
  refine ⟨hv.mlfqs, fun u hu => ?_, fun u thu hu => ?_, hv.lockFree, hv.lockOne, ?_,
    fun u thu hu => ?_⟩
  · have hne : u ≠ t := fun h => by
      rw [h] at hu
      rw [hv.fresh t hu] at ht
      cases ht
    rw [hth, if_neg hne]
    exact hv.fresh u hu
  · rw [hth] at hu
    split at hu
    · cases hu; exact hpc
    · exact hv.pcOk u thu hu
  · rintro w m thw ⟨hw, hh⟩
    rw [hth] at hw
    split at hw
    · cases hw
      exact absurd hh (hnew m)
    · exact hv.waiterNotHolder w m thw ⟨hw, hh⟩
  · rw [hth] at hu
    split at hu
    · cases hu
      rename_i hut
      subst hut
      exact hs.mono hk (fun _ _ _ _ hm => hm)
    · exact (hv.stack u thu hu).mono hk (fun _ _ _ _ hm => hm)

end Frame

/-! ## The lock steps -/

section Locks
variable {v : KView} {t : Tid} {th : Thread} {l : LockId}

theorem DonationInv.wait (hv : DonationInv v) (ht : v.threads t = some th) {r : Bool}
    {rest : List Instr} (hpc : th.pc = .lockAcquire l r :: rest)
    (hr : r = false → v.lockHolder l ≠ some t) :
    DonationInv (v.setPc t (.lockAcquire l true :: rest)) := by
  have hp := hv.pcOk t th ht
  rw [hpc] at hp
  refine hv.setPc ht (hp.prepend (PcOk.singleton (by simp [Instr.LockSafe])))
    (fun m hm _ => ?_) (fun m hm => ?_)
  · rw [hpc] at hm
    simp only [List.head?_cons, Option.some.injEq, Instr.lockAcquire.injEq] at hm ⊢
    exact ⟨hm.1, trivial⟩
  · simp only [List.head?_cons, Option.some.injEq, Instr.lockAcquire.injEq] at hm
    rw [← hm.1]
    cases r
    · exact hr rfl
    · exact hv.waiterNotHolder t l th ⟨ht, by rw [hpc]; rfl⟩

theorem DonationInv.donate (hv : DonationInv v) {H w : Tid} {hth hth' thw : Thread}
    (hH : v.threads H = some hth.erase) (hl : v.lockHolder l = some H) (hw : v.Waits w l thw)
    (hlt : hth.priority < thw.priority) (hd : donate hth thw.priority l = .ok hth') :
    DonationInv (v.setThread H hth'.erase) := by
  obtain ⟨h0, h30, hdef⟩ := donate_ok hd
  have hpc' : hth'.erase.pc = hth.erase.pc := by rw [hdef]; rfl
  have hpri : hth'.erase.priority = thw.priority := by rw [hdef]; rfl
  have hidx : hth'.erase.storedIndex = hth.storedIndex + 1 := by rw [hdef]; rfl
  have hbase : hth'.erase.basePriority = hth.erase.basePriority := by rw [hdef]; rfl
  have hwH : w ≠ H := fun h => hv.waiterNotHolder w l thw hw (h ▸ hl)
  have hlev : hth'.erase.levels = hth.erase.levels ++ [(thw.priority, some l)] := by
    have := donate_levels hd
    exact this
  have hthr : ∀ u, (v.setThread H hth'.erase).threads u =
      if u = H then some hth'.erase else v.threads u := fun u => by simp
  -- the holder's priority only rises, and its continuation is unchanged
  have hk : v.WaitersKept (v.setThread H hth'.erase) := by
    rintro u m thu ⟨hu, hh⟩ -
    by_cases huH : u = H
    · subst huH
      rw [hH, Option.some.injEq] at hu
      subst hu
      exact ⟨hth'.erase, ⟨by rw [hthr, if_pos rfl], by rw [hpc']; exact hh⟩,
        by rw [hpri]; exact Int.le_of_lt hlt⟩
    · exact ⟨thu, ⟨by rw [hthr, if_neg huH]; exact hu, hh⟩, Int.le_refl _⟩
  have old := hv.stack H hth.erase hH
  have hthw := hv.stack w thw hw.1
  have hnew : StackOk (v.setThread H hth'.erase) H hth'.erase := by
    have hne := Thread.levels_ne_nil hth.erase
    have htail : hth'.erase.levels.tail = hth.erase.levels.tail ++ [(thw.priority, some l)] := by
      rw [hlev, List.tail_append_of_ne_nil hne]
    refine ⟨⟨by omega, by omega⟩, ?_, ?_, ?_, ?_⟩
    · rw [hlev, List.head?_append_of_ne_nil _ hne, hbase]
      exact old.bottom
    · intro e he
      rw [hlev] at he
      rcases List.mem_append.mp he with he | he
      · exact old.range e he
      · rw [List.mem_singleton.mp he]
        exact hthw.range (thw.priority, thw.priorityLockMaster)
          (List.mem_append_right _ (List.mem_singleton_self _))
    · rw [htail, List.pairwise_append]
      refine ⟨old.increasing, List.pairwise_singleton _ _, fun e he x hx => ?_⟩
      rw [List.mem_singleton.mp hx]
      exact Int.lt_of_le_of_lt (old.le_top he) hlt
    · intro e he
      rw [htail] at he
      rcases List.mem_append.mp he with he | he
      · exact (old.backed e he).mono hk (fun _ _ hm => hm)
      · rw [List.mem_singleton.mp he]
        exact ⟨l, w, thw, rfl, hl, ⟨by rw [hthr, if_neg hwH]; exact hw.1, hw.2⟩, Int.le_refl _⟩
  refine ⟨hv.mlfqs, fun u hu => ?_, fun u thu hu => ?_, hv.lockFree, hv.lockOne, ?_,
    fun u thu hu => ?_⟩
  · have hne : u ≠ H := fun h => by
      rw [h] at hu
      rw [hv.fresh H hu] at hH
      cases hH
    rw [hthr, if_neg hne]
    exact hv.fresh u hu
  · rw [hthr] at hu
    split at hu
    · cases hu; rw [hpc']; exact hv.pcOk H _ hH
    · exact hv.pcOk u thu hu
  · rintro u m thu ⟨hu, hh⟩
    rw [hthr] at hu
    split at hu
    · cases hu
      rename_i huH
      subst huH
      exact hv.waiterNotHolder u m hth.erase ⟨hH, by rw [← hpc']; exact hh⟩
    · exact hv.waiterNotHolder u m thu ⟨hu, hh⟩
  · rw [hthr] at hu
    split at hu
    · cases hu
      rename_i huH
      subst huH
      exact hnew
    · exact (hv.stack u thu hu).mono hk (fun _ _ _ _ hm => hm)

theorem DonationInv.acquire (hv : DonationInv v) (hfree : v.lockHolder l = none)
    (hval : v.semaValue (.lock l) ≠ 0) (hnw : ∀ thw, ¬ v.Waits t l thw) :
    DonationInv ((v.setSema (.lock l) (v.semaValue (.lock l) - 1)).setHolder l (some t)) := by
  have h1 : v.semaValue (.lock l) = 1 := by have := hv.lockOne l; omega
  refine ⟨hv.mlfqs, hv.fresh, hv.pcOk, fun m hm => ?_, fun m => ?_, ?_, fun u thu hu => ?_⟩
  · by_cases hml : m = l
    · subst hml; simp [h1]
    · simp only [KView.setHolder_lockHolder, Function.update_of_ne hml] at hm
      simpa [Function.update_of_ne (show SemaId.lock m ≠ .lock l by simpa using hml)]
        using hv.lockFree m hm
  · by_cases hml : m = l
    · subst hml
      simp only [KView.setHolder_semaValue, KView.setSema_semaValue, Function.update_self]
      omega
    · simpa [Function.update_of_ne (show SemaId.lock m ≠ .lock l by simpa using hml)]
        using hv.lockOne m
  · rintro w m thw hw
    by_cases hml : m = l
    · subst hml
      have hwt : w ≠ t := fun h => hnw thw (h ▸ hw)
      simp [Ne.symm hwt]
    · simpa [Function.update_of_ne hml] using hv.waiterNotHolder w m thw hw
  · refine (hv.stack u thu hu).mono (KView.WaitersKept.of_threads rfl) (fun _ _ m _ hm => ?_)
    have hml : m ≠ l := fun h => by rw [h, hfree] at hm; cases hm
    simpa [Function.update_of_ne hml] using hm

theorem DonationInv.free (hv : DonationInv v) (hh : v.lockHolder l = some t)
    (hnot : ∀ th, v.threads t = some th → ∀ e ∈ th.levels.tail, e.2 ≠ some l) :
    DonationInv ((v.setHolder l none).setSema (.lock l) (v.semaValue (.lock l) + 1)) := by
  have h0 : v.semaValue (.lock l) = 0 := hv.lockFree l (by simp [hh])
  refine ⟨hv.mlfqs, hv.fresh, hv.pcOk, fun m hm => ?_, fun m => ?_, ?_, fun u thu hu => ?_⟩
  · by_cases hml : m = l
    · subst hml; simp at hm
    · simp only [KView.setSema_lockHolder, KView.setHolder_lockHolder,
        Function.update_of_ne hml] at hm
      simpa [Function.update_of_ne (show SemaId.lock m ≠ .lock l by simpa using hml)]
        using hv.lockFree m hm
  · by_cases hml : m = l
    · subst hml; simp [h0]
    · simpa [Function.update_of_ne (show SemaId.lock m ≠ .lock l by simpa using hml)]
        using hv.lockOne m
  · rintro w m thw hw
    by_cases hml : m = l
    · subst hml; simp
    · simpa [Function.update_of_ne hml] using hv.waiterNotHolder w m thw hw
  · refine (hv.stack u thu hu).mono (KView.WaitersKept.of_threads rfl) (fun e he m hem hm => ?_)
    have hml : m ≠ l := by
      rintro rfl
      rw [hh, Option.some.injEq] at hm
      subst hm
      exact hnot thu hu e he hem
    simpa [Function.update_of_ne hml] using hm

theorem StackOk.filter {th th' : Thread} (h : StackOk v t th)
    (hl : th'.levels = th.levels.filter (fun e => e.2 ≠ some l))
    (hb : th'.basePriority = th.basePriority) (h0 : 0 ≤ th'.storedIndex) : StackOk v t th' := by
  obtain ⟨xs, hxs⟩ : ∃ xs, th.levels = (th.basePriority, none) :: xs :=
    List.exists_cons_of_ne_nil (Thread.levels_ne_nil th) |>.elim fun x ⟨xs, hx⟩ =>
      ⟨xs, by have hb := h.bottom; rw [hx] at hb ⊢; simpa using hb⟩
  have hl' : th'.levels = (th.basePriority, none) :: xs.filter (fun e => e.2 ≠ some l) := by
    rw [hl, hxs, List.filter_cons_of_pos (by simp)]
  have hlen := List.length_filter_le (fun e : Int × Option LockId => decide (e.2 ≠ some l)) xs
  have hn := Thread.length_levels th
  have hn' := Thread.length_levels th'
  rw [hxs] at hn
  rw [hl'] at hn'
  simp only [List.length_cons] at hn hn'
  have hinc := h.increasing
  have hback := h.backed
  rw [hxs, List.tail_cons] at hinc hback
  refine ⟨⟨h0, by have := h.index; omega⟩, by rw [hl', hb]; rfl, fun e he => ?_, ?_, fun e he => ?_⟩
  · rw [hl] at he
    exact h.range e (List.mem_of_mem_filter he)
  · rw [hl', List.tail_cons]
    exact hinc.filter _
  · rw [hl', List.tail_cons] at he
    exact hback e (List.mem_of_mem_filter he)

/-- The array code of `lock_release` keeps the releasing thread's stack well formed and removes
every level of the lock from it. -/
theorem StackOk.release {th th' : Thread} (h : StackOk v t th) (hr : releaseDonations th l = .ok th') :
    StackOk v t th' ∧ (∀ e ∈ th'.levels.tail, e.2 ≠ some l) ∧ th'.pc = th.pc := by
  by_cases h0 : th.storedIndex = 0
  · rw [releaseDonations_empty h0, Except.ok.injEq] at hr
    subst hr
    refine ⟨h, fun e he => ?_, rfl⟩
    rw [Thread.levels_of_index_zero h0] at he
    simp at he
  · have hbot : th.storedLockMaster 0 ≠ some l := by
      have := h.bottom
      rw [Thread.levels_head h.index.1 h0] at this
      simp only [Option.some.injEq, Prod.mk.injEq] at this
      rw [this.2]
      simp
    have hlive : ∀ e ∈ th.stack, ¬ IsHole e := fun e he hh => by
      have := (h.range e (List.mem_append_left _ he)).1
      unfold IsHole at hh
      unfold PRI_MIN at this
      omega
    obtain ⟨hl, hi, he⟩ := releaseDonations_levels hr h.index.1 h.index.2 h0 hlive hbot
    have hb : th'.basePriority = th.basePriority := by rw [he]
    refine ⟨h.filter hl hb hi, fun e he' => ?_, by rw [he]⟩
    have hmem : e ∈ th'.levels := List.mem_of_mem_tail he'
    rw [hl] at hmem
    simpa using (List.mem_filter.mp hmem).2

theorem DonationInv.release (hv : DonationInv v) {th th' : Thread} {rest : List Instr}
    (ht : v.threads t = some th.erase) (hpc : th.pc = .lockRelease l :: rest)
    (hh : v.lockHolder l = some t) (hr : releaseDonations th l = .ok th') (y : Bool) :
    DonationInv ((((v.setThread t th'.erase).setHolder l none).setSema (.lock l)
      (v.semaValue (.lock l) + 1)).setPc t ((if y then [.yield false] else []) ++ rest)) := by
  have hs0 : StackOk v t th := (hv.stack t th.erase ht).congr rfl rfl rfl
  obtain ⟨hs, hnot, hpc'⟩ := hs0.release hr
  have hp := hv.pcOk t th.erase ht
  have hpcr : th.erase.pc = .lockRelease l :: rest := hpc
  rw [hpcr] at hp
  have h1 : DonationInv (v.setThread t th'.erase) :=
    hv.setOwn ht (fun m => by rw [hpcr]; simp) (fun m => by rw [show th'.erase.pc = th.pc from hpc', hpc]; simp)
      (by rw [show th'.erase.pc = th.pc from hpc', hpc]; exact hp) (hs.congr rfl rfl rfl)
  have h2 := h1.free (by simpa using hh) (fun th2 h2 e he => by
    simp only [KView.setThread_threads, if_true, Option.some.injEq] at h2
    subst h2
    exact hnot e he)
  refine h2.setPc_plain (by simp) (show th'.erase.pc = _ from hpc'.trans hpc) rfl
    (hp.prepend ⟨fun j hj => ?_, fun j hj => ?_⟩) (fun m => ?_)
  · cases y <;> simp_all [Instr.LockSafe]
  · cases y <;> simp_all
  · cases y
    · exact hp.rest_not_waiting m
    · simp

end Locks

/-! ## Priorities and creation -/

section Own
variable {v : KView} {t : Tid} {th : Thread} {p : Int} {rest : List Instr}

theorem DonationInv.setBase (hv : DonationInv v) (ht : v.threads t = some th)
    (hpc : th.pc = .setPriority p :: rest) (hne : th.storedIndex ≠ 0) :
    DonationInv (v.setThread t
      { th with storedPriority := Function.update th.storedPriority 0 p, basePriority := p,
                pc := rest }) := by
  have hp := hv.pcOk t th ht
  rw [hpc] at hp
  have hs := hv.stack t th ht
  have hrange : PRI_MIN ≤ p ∧ p ≤ PRI_MAX := hp.head
  have hsm : th.storedLockMaster 0 = none := by
    have := hs.bottom
    rw [Thread.levels_head hs.index.1 hne] at this
    simp only [Option.some.injEq, Prod.mk.injEq] at this
    exact this.2
  have hl : Thread.levels
      { th with storedPriority := Function.update th.storedPriority 0 p, basePriority := p,
                pc := rest } = (p, none) :: th.levels.tail := by
    rw [← hsm]
    exact Thread.levels_setBottom th p hs.index.1 hne
  refine hv.setOwn ht (fun m => by rw [hpc]; simp) (fun m => hp.rest_not_waiting m) hp.tail
    ⟨hs.index, by rw [hl]; rfl, fun e he => ?_, by rw [hl]; exact hs.increasing,
      by rw [hl]; exact hs.backed⟩
  rw [hl] at he
  rcases List.mem_cons.mp he with rfl | he
  · exact hrange
  · exact hs.range e (List.mem_of_mem_tail he)

theorem DonationInv.setPlain (hv : DonationInv v) (ht : v.threads t = some th)
    (hpc : th.pc = .setPriority p :: rest) (h0 : th.storedIndex = 0) :
    DonationInv (v.setThread t
      { th with priority := p, basePriority := p, pc := .yield true :: rest }) := by
  have hp := hv.pcOk t th ht
  rw [hpc] at hp
  have hs := hv.stack t th ht
  have hrange : PRI_MIN ≤ p ∧ p ≤ PRI_MAX := hp.head
  have hpm : th.priorityLockMaster = none := by
    have := hs.bottom
    rw [Thread.levels_of_index_zero h0] at this
    simp only [List.head?_cons, Option.some.injEq, Prod.mk.injEq] at this
    exact this.2
  exact hv.setOwn ht (fun m => by rw [hpc]; simp) (fun m => by simp)
    (hp.prepend (PcOk.singleton (show (Instr.yield true).LockSafe from trivial)))
    (StackOk.single h0 hpm rfl hrange)

theorem DonationInv.create (hv : DonationInv v) (hlo : PRI_MIN ≤ p) (hhi : p ≤ PRI_MAX) :
    DonationInv ({ v with nextPage := v.nextPage + 1 }.setThread v.nextPage (initThread p).erase) := by
  have hnone := hv.fresh v.nextPage (Nat.le_refl _)
  have hthr : ∀ u, ({ v with nextPage := v.nextPage + 1 }.setThread v.nextPage
      (initThread p).erase).threads u = if u = v.nextPage then some (initThread p).erase
        else v.threads u := fun u => by simp
  have hk : v.WaitersKept ({ v with nextPage := v.nextPage + 1 }.setThread v.nextPage
      (initThread p).erase) := by
    rintro w m thw ⟨hw, hh⟩ -
    have hwn : w ≠ v.nextPage := fun h => by rw [h, hnone] at hw; cases hw
    exact ⟨thw, ⟨by rw [hthr, if_neg hwn]; exact hw, hh⟩, Int.le_refl _⟩
  refine ⟨hv.mlfqs, fun u hu => ?_, fun u thu hu => ?_, hv.lockFree, hv.lockOne, ?_,
    fun u thu hu => ?_⟩
  · have hu' : v.nextPage + 1 ≤ u := hu
    rw [hthr, if_neg (Nat.ne_of_gt (Nat.lt_of_succ_le hu'))]
    exact hv.fresh u (Nat.le_of_succ_le hu')
  · rw [hthr] at hu
    split at hu
    · cases hu; exact ⟨by simp [initThread, Thread.erase], by simp [initThread, Thread.erase]⟩
    · exact hv.pcOk u thu hu
  · rintro w m thw ⟨hw, hh⟩
    rw [hthr] at hw
    split at hw
    · cases hw; simp [initThread, Thread.erase] at hh
    · exact hv.waiterNotHolder w m thw ⟨hw, hh⟩
  · rw [hthr] at hu
    split at hu
    · cases hu
      exact StackOk.single rfl rfl rfl ⟨hlo, hhi⟩
    · exact (hv.stack u thu hu).mono hk (fun _ _ _ _ hm => hm)

end Own

/-! ## Every step -/

section Step
variable {v v' : KView} {t : Tid} {th : Thread} {i : Instr} {rest : List Instr}

/-- A thread in `lock_acquire` does not hold the lock: a first entry checks it, and a resumed one
waits for it, which a holder never does. -/
theorem DonationInv.not_holder (hv : DonationInv v) (ht : v.threads t = some th) {l : LockId}
    {r : Bool} (hpc : th.pc = .lockAcquire l r :: rest) (hr : r = false → v.lockHolder l ≠ some t) :
    v.lockHolder l ≠ some t := by
  cases r
  · exact hr rfl
  · exact hv.waiterNotHolder t l th ⟨ht, by rw [hpc]; rfl⟩

theorem DonationInv.exec (hv : DonationInv v) (ht : v.threads t = some th)
    (hpc : th.pc = i :: rest) (h : AbsExec v t i rest v') : DonationInv v' := by
  have hp := hv.pcOk t th ht
  rw [hpc] at hp
  cases h with
  | semaInit => exact (hv.setSema hp.head _).next ht hpc rfl
  | semaDownWait _ =>
    exact hv.cont ht hpc rfl [.semaDown _ true] (PcOk.singleton hp.head) (by simp)
  | semaDownTake _ => exact (hv.setSema hp.head _).next ht hpc rfl
  | semaTryDownTake _ => exact (hv.setSema hp.head _).next ht hpc rfl
  | semaTryDownFail _ => exact hv.next ht hpc rfl
  | semaUp y =>
    cases y
    · rw [if_neg Bool.false_ne_true]
      exact (hv.setSema hp.head _).next ht hpc rfl
    · rw [if_pos rfl]
      exact (hv.setSema hp.head _).cont ht hpc rfl [.yield true] (PcOk.singleton trivial)
        (by simp)
  | yield => exact hv.next ht hpc rfl
  | lockInit => exact hp.head.elim
  | @lockAcquireDonate l r _ H th₀ hth hth' hr _ hl hH ht₀ hlt hd =>
    obtain rfl : th₀ = th := Option.some.inj (ht₀.symm.trans ht)
    have hHt : H ≠ t := fun e => hv.not_holder ht hpc hr (e ▸ hl)
    rw [KView.setPc_setThread_comm _ _ _ _ hHt]
    exact (hv.wait ht hpc hr).donate (by simp [hHt, hH]) (by simpa using hl)
      (show KView.Waits _ t l { th₀ with pc := .lockAcquire l true :: rest } from
        ⟨by simp [ht], rfl⟩) hlt hd
  | lockAcquireWait hr => exact hv.wait ht hpc hr
  | @lockAcquireTake l r _ hr hval =>
    have hfree : v.lockHolder l = none := by
      by_contra hne
      exact hval (hv.lockFree l hne)
    -- the thread leaves `lock_acquire` before it is recorded as the holder
    have h1 : DonationInv (v.setPc t rest) :=
      hv.setPc ht hp.tail (fun m hm hh => by
          rw [hpc] at hm
          simp only [List.head?_cons, Option.some.injEq, Instr.lockAcquire.injEq] at hm
          rw [← hm.1, hfree] at hh
          exact absurd rfl hh)
        (fun m hm => absurd hm (hp.rest_not_waiting m))
    have h2 := h1.acquire (t := t) (by simpa using hfree) (by simpa using hval) (fun thw hw => by
      obtain ⟨hw, hh⟩ := hw
      simp only [KView.setPc_threads, ht, if_true, Option.map_some, Option.some.injEq] at hw
      subst hw
      exact hp.rest_not_waiting l hh)
    rw [KView.setPc_semaValue] at h2
    rw [KView.setPc_setHolder_comm, KView.setPc_setSema_comm]
    exact h2
  | lockTryAcquireTake => exact hp.head.elim
  | lockTryAcquireFail => exact hp.head.elim
  | lockTrySetHolder => exact hp.head.elim
  | @lockRelease l _ th₀ th₀' y hh ht₀ hr =>
    have e : th = th₀.erase := Option.some.inj (ht.symm.trans ht₀)
    exact hv.release ht₀ (by rw [← hpc, e]; rfl) hh hr y
  | condInit => exact hv.next ht hpc rfl
  | condWaitEnqueue _ =>
    exact (hv.setSema rfl _).cont ht hpc rfl [.lockRelease _, .semaDown (.waiter t) false,
      .lockAcquire _ false] ⟨by simp [Instr.LockSafe, SemaId.isLock],
        by simp [Instr.resumesAcquire]⟩ (by simp)
  | condSignalEmpty _ => exact hv.next ht hpc rfl
  | condSignal w _ => exact hv.cont ht hpc rfl [.semaUp (.waiter w)] (PcOk.singleton rfl) (by simp)
  | condBroadcast b =>
    cases b
    · rw [if_neg Bool.false_ne_true]
      exact hv.cont ht hpc rfl [.condSignal _ _, .condBroadcast _ _]
        ⟨by simp [Instr.LockSafe], by simp [Instr.resumesAcquire]⟩ (by simp)
    · rw [if_pos rfl]
      exact hv.next ht hpc rfl
  | setPriorityMlfqs hm => exact absurd hm (by simp [hv.mlfqs])
  | setPriorityDonated _ ht₀ hne =>
    obtain rfl := Option.some.inj (ht₀.symm.trans ht)
    exact hv.setBase ht hpc hne
  | setPriorityPlain _ ht₀ h0 =>
    obtain rfl := Option.some.inj (ht₀.symm.trans ht)
    exact hv.setPlain ht hpc h0
  | setNice => exact hp.head.elim
  | createInit hlo hhi =>
    have htn : t ≠ v.nextPage := fun e => by
      rw [e, hv.fresh _ (Nat.le_refl _)] at ht
      cases ht
    exact (hv.create hlo hhi).cont (by simp [htn, ht]) hpc rfl
      [.lockAcquire tidLock false, .lockRelease tidLock, .createUnblock _, .createYieldCheck _]
      ⟨by simp [Instr.LockSafe], by simp [Instr.resumesAcquire]⟩ (by simp)
  | createUnblock => exact hv.next ht hpc rfl
  | createYieldCheck y =>
    cases y
    · rw [if_neg Bool.false_ne_true]
      exact hv.next ht hpc rfl
    · rw [if_pos rfl]
      exact hv.cont ht hpc rfl [.yield true] (PcOk.singleton trivial) (by simp)
  | exit => exact hv.setPc_plain ht hpc rfl ⟨by simp, by simp⟩ (by simp)
  | @timerSleep n _ start =>
    by_cases hn : n ≤ 0
    · rw [if_pos hn]
      exact hv.next ht hpc rfl
    · rw [if_neg hn]
      exact hv.cont ht hpc rfl [.sleepBlock start n] (PcOk.singleton trivial) (by simp)
  | sleepBlock => exact hv.cont ht hpc rfl [.sleepResume] (PcOk.singleton trivial) (by simp)
  | sleepResume => exact hv.next ht hpc rfl
  | idleLoop => exact hv.setPc_plain ht hpc rfl (PcOk.singleton trivial) (by simp)

theorem DonationInv.step (hv : DonationInv v) (h : AbsStep Call.IsDonationApi v v') :
    DonationInv v' := by
  cases h with
  | @call u thu c hc ht hpc =>
    refine hv.setPc ht hc.pcOk (fun m hm => by rw [hpc] at hm; cases hm) (fun m hm => ?_)
    cases c <;> simp [Call.body] at hm
  | exec ht hpc he => exact hv.exec ht hpc he
  | recompute hm _ => exact absurd hm (by simp [hv.mlfqs])

theorem DonationInv.init : DonationInv (initState false).view := by
  have hthr : ∀ t th, (initState false).view.threads t = some th →
      ∃ st p pc, th = (freshThread st p pc).erase ∧ PRI_MIN ≤ p ∧ p ≤ PRI_MAX ∧ PcOk pc := by
    intro t th h
    simp only [KState.view, initState] at h
    split_ifs at h
    · cases h
      exact ⟨_, _, _, rfl, by decide, by decide, ⟨by simp, by simp⟩⟩
    · cases h
      exact ⟨_, _, _, rfl, by decide, by decide, PcOk.singleton trivial⟩
    · cases h
  refine ⟨rfl, fun t ht => ?_, fun t th h => ?_, fun l hl => absurd rfl hl, fun _ => Nat.le_refl 1,
    fun w m thw _ => by simp [KState.view, initState], fun t th h => ?_⟩
  · have h1 : t ≠ mainTid := fun e => by rw [e] at ht; exact absurd ht (by decide)
    have h2 : t ≠ idleTid := fun e => by rw [e] at ht; exact absurd ht (by decide)
    simp [KState.view, initState, h1, h2]
  · obtain ⟨st, p, pc, rfl, -, -, hpc⟩ := hthr t th h
    exact hpc
  · obtain ⟨st, p, pc, rfl, hlo, hhi, -⟩ := hthr t th h
    exact StackOk.single rfl rfl rfl ⟨hlo, hhi⟩

theorem DonationInv.of_absReach (h : AbsReach Call.IsDonationApi false v) : DonationInv v := by
  induction h with
  | refl => exact DonationInv.init
  | tail _ hs ih => exact ih.step hs

theorem DonationInv.of_reachable {s : KState} (h : Reachable Call.IsDonationApi false s) :
    DonationInv s.view :=
  DonationInv.of_absReach h.view

end Step

end Pintos.Threads
