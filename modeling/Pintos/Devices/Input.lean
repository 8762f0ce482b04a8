import Pintos.Devices.Intq

/-! # `devices/input.c`: the input buffer

The keyboard and serial interrupt handlers store keys in `buffer`, an `intq`, through
`input_putc`, which asserts that the buffer is not full; kernel threads read them with
`input_getc`. A handler may not sleep, so `intq_putc` and `intq_getc` must finish at once when
an interrupt handler calls them: the queue's loop is skipped by the caller's test, but the
`signal` at the end still asserts that the condition it signals holds and that the thread it
wakes is blocked.

The threads `intq.c` puts to sleep are `Waiters`: the thread recorded in `not_empty` sleeps in
the `wait` of `intq_getc`, the one in `not_full` in that of `intq_putc`, and each thread queued
on `q->lock` in its `lock_acquire`. Every step of the queue keeps this, so `signal` always finds
its thread asleep.

* `intq_handlers_succeed`: in every reachable state, `intq_putc` from a handler on a queue that
  is not full, and `intq_getc` on one that is not empty, pass every assertion.
-/

namespace Pintos.Devices
set_option autoImplicit false
open Except

/-- `input_putc (key)`: its assertion that the buffer is not full, then `intq_putc`; the
`serial_notify` after it is outside the model. -/
def inputPutc (s : Sys) (key : UInt8) : Except IntqFault Sys :=
  if intqFull s.q then .error .assertion else putcStore s key

/-- `input_full ()`. -/
def inputFull (s : Sys) : Bool := intqFull s.q

/-- Where a thread blocked on `q->lock` sleeps. -/
def Pc.AtLock : Pc → Prop
  | .getcLock => True
  | .putcLock _ => True
  | _ => False

structure Waiters (s : Sys) : Prop where
  notEmpty : ∀ t, s.q.notEmpty = some t → s.threads t = ⟨.getcWait, true⟩
  notFull : ∀ t, s.q.notFull = some t → ∃ b, s.threads t = ⟨.putcWait b, true⟩
  locked : ∀ u ∈ s.q.lockWaiters, (s.threads u).blocked = true ∧ (s.threads u).pc.AtLock
  nodup : s.q.lockWaiters.Nodup

/-- Thread `t` is not asleep in the queue. -/
def Sys.Free (s : Sys) (t : Nat) : Prop :=
  s.q.notEmpty ≠ some t ∧ s.q.notFull ≠ some t ∧ t ∉ s.q.lockWaiters

section Waiters
variable {s s' : Sys} {t : Nat}

theorem threadUnblock_eq (h : threadUnblock s t = .ok s') :
    (s.threads t).blocked = true ∧ s' = s.setThread t { s.threads t with blocked := false } := by
  unfold threadUnblock at h
  split at h
  · rename_i hb
    cases h
    exact ⟨hb, rfl⟩
  · cases h

theorem threadUnblock_ok (hb : (s.threads t).blocked = true) : ∃ s', threadUnblock s t = .ok s' := by
  simp [threadUnblock, hb]

theorem Waiters.free (h : Waiters s) (hb : (s.threads t).blocked = false) : s.Free t := by
  refine ⟨fun he => ?_, fun hf => ?_, fun hl => ?_⟩
  · simp [h.notEmpty t he] at hb
  · obtain ⟨b, hth⟩ := h.notFull t hf
    simp [hth] at hb
  · simp [(h.locked t hl).1] at hb

theorem Waiters.setThread (h : Waiters s) (hfree : s.Free t) (th : KThread) :
    Waiters (s.setThread t th) := by
  obtain ⟨hne, hnf, hl⟩ := hfree
  refine ⟨fun u hu => ?_, fun u hu => ?_, fun u hu => ?_, h.nodup⟩
  · have hut : u ≠ t := fun e => hne (e ▸ hu)
    simp only [Sys.setThread, Function.update_of_ne hut]
    exact h.notEmpty u hu
  · have hut : u ≠ t := fun e => hnf (e ▸ hu)
    simp only [Sys.setThread, Function.update_of_ne hut]
    exact h.notFull u hu
  · have hut : u ≠ t := fun e => hl (e ▸ hu)
    simp only [Sys.setThread, Function.update_of_ne hut]
    exact h.locked u hu

theorem Waiters.of_q (h : Waiters s) (hne : s'.q.notEmpty = s.q.notEmpty)
    (hnf : s'.q.notFull = s.q.notFull) (hl : s'.q.lockWaiters = s.q.lockWaiters)
    (ht : s'.threads = s.threads) : Waiters s' :=
  ⟨fun u hu => ht ▸ h.notEmpty u (hne ▸ hu), fun u hu => ht ▸ h.notFull u (hnf ▸ hu),
    fun u hu => ht ▸ h.locked u (hl ▸ hu), hl ▸ h.nodup⟩

theorem Waiters.wake {w : Waiter} (h : Waiters s) (ht : s.q.waiter w = some t) :
    Waiters ((s.setThread t { s.threads t with blocked := false }).setQ
      ((s.setThread t { s.threads t with blocked := false }).q.setWaiter w none)) := by
  cases w with
  | notEmpty =>
    have hth := h.notEmpty t ht
    refine ⟨fun u hu => by simp [Sys.setQ, Intq.setWaiter] at hu, fun u hu => ?_, fun u hu => ?_,
      h.nodup⟩
    · obtain ⟨b, hb⟩ := h.notFull u hu
      have hut : u ≠ t := fun e => by simp [e, hth] at hb
      exact ⟨b, by simpa [Sys.setThread, Sys.setQ, Function.update_of_ne hut] using hb⟩
    · have hut : u ≠ t := fun e => by simpa [e, hth, Pc.AtLock] using (h.locked u hu).2
      simpa [Sys.setThread, Sys.setQ, Function.update_of_ne hut] using h.locked u hu
  | notFull =>
    obtain ⟨b, hth⟩ := h.notFull t ht
    refine ⟨fun u hu => ?_, fun u hu => by simp [Sys.setQ, Intq.setWaiter] at hu, fun u hu => ?_,
      h.nodup⟩
    · have hb := h.notEmpty u hu
      have hut : u ≠ t := fun e => by simp [e, hth] at hb
      simpa [Sys.setThread, Sys.setQ, Function.update_of_ne hut] using hb
    · have hut : u ≠ t := fun e => by simpa [e, hth, Pc.AtLock] using (h.locked u hu).2
      simpa [Sys.setThread, Sys.setQ, Function.update_of_ne hut] using h.locked u hu

theorem Waiters.signal {w : Waiter} (h : Waiters s) (hs : signal s w = .ok s') : Waiters s' := by
  unfold Devices.signal at hs
  cases hw : w.holds s.q
  · simp only [hw, Bool.false_eq_true, if_false] at hs
    split at hs
    · rename_i u hu
      obtain ⟨s₁, h₁, h₂⟩ := bind_eq_ok.mp hs
      obtain ⟨-, rfl⟩ := threadUnblock_eq h₁
      cases h₂
      exact h.wake hu
    · cases hs
      exact h
  · simp [hw] at hs
    cases hs

theorem Waiters.signal_ok {w : Waiter} (h : Waiters s) (hw : w.holds s.q = false) :
    ∃ s', Devices.signal s w = .ok s' := by
  unfold Devices.signal
  simp only [hw, Bool.false_eq_true, if_false]
  split
  · rename_i u hu
    have hb : (s.threads u).blocked = true := by
      cases w with
      | notEmpty => simp [h.notEmpty u hu]
      | notFull =>
        obtain ⟨b, hth⟩ := h.notFull u hu
        simp [hth]
    obtain ⟨s₁, h₁⟩ := threadUnblock_ok hb
    exact ⟨_, by rw [bind_eq_ok]; exact ⟨s₁, h₁, rfl⟩⟩
  · exact ⟨s, rfl⟩

theorem Waiters.wait {w : Waiter} {pc : Pc} (h : Waiters s) (hfree : s.Free t)
    (hpc : match w with
      | .notEmpty => pc = .getcWait
      | .notFull => ∃ b, pc = .putcWait b)
    (hs : Devices.wait s t w pc = .ok s') : Waiters s' := by
  unfold Devices.wait at hs
  cases hw : w.holds s.q
  · simp [hw] at hs
    cases hs
  · simp only [hw, Bool.not_true, Bool.false_eq_true, if_false] at hs
    cases hs
    obtain ⟨hne, hnf, hl⟩ := hfree
    cases w with
    | notEmpty =>
      subst hpc
      refine ⟨fun u hu => ?_, fun u hu => ?_, fun u hu => ?_, h.nodup⟩
      · cases hu
        simp [Sys.setThread]
      · have hut : u ≠ t := fun e => hnf (e ▸ hu)
        simpa [Sys.setThread, Sys.setQ, Function.update_of_ne hut] using h.notFull u hu
      · have hut : u ≠ t := fun e => hl (e ▸ hu)
        simpa [Sys.setThread, Sys.setQ, Function.update_of_ne hut] using h.locked u hu
    | notFull =>
      obtain ⟨b, rfl⟩ := hpc
      refine ⟨fun u hu => ?_, fun u hu => ?_, fun u hu => ?_, h.nodup⟩
      · have hut : u ≠ t := fun e => hne (e ▸ hu)
        simpa [Sys.setThread, Sys.setQ, Function.update_of_ne hut] using h.notEmpty u hu
      · cases hu
        exact ⟨b, by simp [Sys.setThread]⟩
      · have hut : u ≠ t := fun e => hl (e ▸ hu)
        simpa [Sys.setThread, Sys.setQ, Function.update_of_ne hut] using h.locked u hu

theorem Waiters.acquireAndWait {w : Waiter} {lockPc waitPc : Pc} (h : Waiters s)
    (hfree : s.Free t) (hlock : lockPc.AtLock)
    (hpc : match w with
      | .notEmpty => waitPc = .getcWait
      | .notFull => ∃ b, waitPc = .putcWait b)
    (hs : Devices.acquireAndWait s t w lockPc waitPc = .ok s') : Waiters s' := by
  unfold Devices.acquireAndWait at hs
  split at hs
  · cases hs
    obtain ⟨hne, hnf, hl⟩ := hfree
    refine ⟨fun u hu => ?_, fun u hu => ?_, fun u hu => ?_, ?_⟩
    · have hut : u ≠ t := fun e => hne (e ▸ hu)
      simpa [Sys.setThread, Sys.setQ, Function.update_of_ne hut] using h.notEmpty u hu
    · have hut : u ≠ t := fun e => hnf (e ▸ hu)
      simpa [Sys.setThread, Sys.setQ, Function.update_of_ne hut] using h.notFull u hu
    · simp only [Sys.setThread, Sys.setQ, List.mem_append, List.mem_singleton] at hu ⊢
      rcases hu with hu | rfl
      · have hut : u ≠ t := fun e => hl (e ▸ hu)
        simpa [Function.update_of_ne hut] using h.locked u hu
      · simpa using hlock
    · show (s.q.lockWaiters ++ [t]).Nodup
      have hnot : ∀ a ∈ s.q.lockWaiters, ¬a = t := fun a ha e => hl (e ▸ ha)
      simpa [List.nodup_append, h.nodup] using hnot
  · refine Waiters.wait ?_ ?_ hpc hs
    · exact h.of_q rfl rfl rfl rfl
    · exact hfree

theorem Waiters.lockRelease (h : Waiters s) (hs : Devices.lockRelease s t = .ok s') : Waiters s' := by
  unfold Devices.lockRelease at hs
  by_cases hh : s.q.lockHolder ≠ some t
  · simp [hh] at hs
    cases hs
  · simp only [hh, if_false] at hs
    split at hs
    · rename_i u us hus'
      have hus : s.q.lockWaiters = u :: us := hus'
      obtain ⟨s₁, h₁, h₂⟩ := bind_eq_ok.mp hs
      obtain ⟨-, rfl⟩ := threadUnblock_eq h₁
      cases h₂
      have hnd : (u :: us).Nodup := hus ▸ h.nodup
      have hu : u ∈ s.q.lockWaiters := by simp [hus]
      have hat := (h.locked u hu).2
      refine ⟨fun v hv => ?_, fun v hv => ?_, fun v hv => ?_, (List.nodup_cons.mp hnd).2⟩
      · have hb := h.notEmpty v hv
        have hvu : v ≠ u := fun e => by
          subst e
          rw [hb] at hat
          simp [Pc.AtLock] at hat
        simpa [Sys.setThread, Sys.setQ, Function.update_of_ne hvu] using hb
      · obtain ⟨b, hb⟩ := h.notFull v hv
        have hvu : v ≠ u := fun e => by
          subst e
          rw [hb] at hat
          simp [Pc.AtLock] at hat
        exact ⟨b, by simpa [Sys.setThread, Sys.setQ, Function.update_of_ne hvu] using hb⟩
      · simp only [Sys.setThread, Sys.setQ] at hv ⊢
        have hvu : v ≠ u := fun e => (List.nodup_cons.mp hnd).1 (e ▸ hv)
        simpa [Function.update_of_ne hvu] using h.locked v (by simp [hus, hv])
    · cases hs
      exact h.of_q rfl rfl rfl rfl

theorem Waiters.getcTake (h : Waiters s) (hs : getcTake s = .ok s') : Waiters s' := by
  unfold Devices.getcTake at hs
  dsimp only at hs
  refine Waiters.signal ?_ hs
  exact h.of_q rfl rfl rfl rfl

theorem Waiters.putcStore {byte : UInt8} (h : Waiters s) (hs : putcStore s byte = .ok s') :
    Waiters s' := by
  unfold Devices.putcStore at hs
  dsimp only at hs
  refine Waiters.signal ?_ hs
  exact h.of_q rfl rfl rfl rfl

theorem Sys.Free.signal {w : Waiter} (hfree : s.Free t) (hs : signal s w = .ok s') : s'.Free t := by
  unfold Devices.signal at hs
  cases hw : w.holds s.q
  · simp only [hw, Bool.false_eq_true, if_false] at hs
    split at hs
    · obtain ⟨s₁, h₁, h₂⟩ := bind_eq_ok.mp hs
      obtain ⟨-, rfl⟩ := threadUnblock_eq h₁
      cases h₂
      obtain ⟨hne, hnf, hl⟩ := hfree
      cases w with
      | notEmpty =>
        exact ⟨by simp [Sys.setQ, Intq.setWaiter], by simpa [Sys.setThread, Sys.setQ, Intq.setWaiter] using hnf,
          by simpa [Sys.setThread, Sys.setQ, Intq.setWaiter] using hl⟩
      | notFull =>
        exact ⟨by simpa [Sys.setThread, Sys.setQ, Intq.setWaiter] using hne,
          by simp [Sys.setQ, Intq.setWaiter], by simpa [Sys.setThread, Sys.setQ, Intq.setWaiter] using hl⟩
    · cases hs
      exact hfree
  · simp [hw] at hs
    cases hs

theorem Sys.Free.getcTake (hfree : s.Free t) (hs : getcTake s = .ok s') : s'.Free t := by
  unfold Devices.getcTake at hs
  dsimp only at hs
  refine Sys.Free.signal ?_ hs
  exact hfree

theorem Sys.Free.putcStore {byte : UInt8} (hfree : s.Free t) (hs : putcStore s byte = .ok s') :
    s'.Free t := by
  unfold Devices.putcStore at hs
  dsimp only at hs
  refine Sys.Free.signal ?_ hs
  exact hfree

theorem Sys.Free.lockRelease (hfree : s.Free t) (hs : Devices.lockRelease s t = .ok s') :
    s'.Free t := by
  unfold Devices.lockRelease at hs
  by_cases hh : s.q.lockHolder ≠ some t
  · simp [hh] at hs
    cases hs
  · simp only [hh, if_false] at hs
    obtain ⟨hne, hnf, hl⟩ := hfree
    split at hs
    · rename_i u us hus'
      have hus : s.q.lockWaiters = u :: us := hus'
      obtain ⟨s₁, h₁, h₂⟩ := bind_eq_ok.mp hs
      obtain ⟨-, rfl⟩ := threadUnblock_eq h₁
      cases h₂
      refine ⟨hne, hnf, fun ht => hl ?_⟩
      rw [hus]
      exact List.mem_cons_of_mem u ht
    · cases hs
      exact ⟨hne, hnf, hl⟩

/-- The rest of `intq_getc` for a running thread: it sleeps in the queue, or takes a byte and
leaves. -/
theorem Waiters.getcLoop (h : Waiters s) (hfree : s.Free t) (hs : getcLoop s t = .ok s') :
    Waiters s' := by
  unfold Devices.getcLoop at hs
  split at hs
  · refine h.acquireAndWait hfree ?_ ?_ hs
    · trivial
    · rfl
  · obtain ⟨s₁, h₁, h₂⟩ := bind_eq_ok.mp hs
    cases h₂
    exact (h.getcTake h₁).setThread (hfree.getcTake h₁) _

theorem Waiters.putcLoop {byte : UInt8} (h : Waiters s) (hfree : s.Free t)
    (hs : putcLoop s t byte = .ok s') : Waiters s' := by
  unfold Devices.putcLoop at hs
  split at hs
  · refine h.acquireAndWait hfree ?_ ?_ hs
    · trivial
    · exact ⟨byte, rfl⟩
  · obtain ⟨s₁, h₁, h₂⟩ := bind_eq_ok.mp hs
    cases h₂
    exact (h.putcStore h₁).setThread (hfree.putcStore h₁) _

theorem Waiters.init : Waiters Sys.init :=
  ⟨fun _ h => (by simp [Sys.init, intqInit] at h), fun _ h => (by simp [Sys.init, intqInit] at h),
    fun _ h => (by simp [Sys.init, intqInit] at h), List.nodup_nil⟩

/-- Every event keeps the sleepers asleep where `intq.c` put them: a thread's call by the test
of its loop, a handler's by its guard. -/
theorem Waiters.step {e : Event} (h : Waiters s) (hs : step s e = .ok s') : Waiters s' := by
  cases e with
  | getc t =>
    simp only [Devices.step] at hs
    split at hs
    · rename_i hth
      exact h.getcLoop (h.free (by simp [hth])) hs
    · cases hs
  | putc t byte =>
    simp only [Devices.step] at hs
    split at hs
    · rename_i hth
      exact h.putcLoop (h.free (by simp [hth])) hs
    · cases hs
  | run t =>
    simp only [Devices.step] at hs
    split at hs
    · cases hs
    · rename_i hb
      have hfree := h.free (by simpa using hb)
      split at hs
      · cases hs
      · refine h.acquireAndWait hfree ?_ ?_ hs
        · trivial
        · rfl
      · rename_i byte _
        refine h.acquireAndWait hfree ?_ ?_ hs
        · trivial
        · exact ⟨byte, rfl⟩
      · obtain ⟨s₁, h₁, h₂⟩ := bind_eq_ok.mp hs
        exact (h.lockRelease h₁).getcLoop (hfree.lockRelease h₁) h₂
      · obtain ⟨s₁, h₁, h₂⟩ := bind_eq_ok.mp hs
        exact (h.lockRelease h₁).putcLoop (hfree.lockRelease h₁) h₂
  | irqGetc =>
    simp only [Devices.step] at hs
    split at hs
    · cases hs
    · exact h.getcTake hs
  | irqPutc byte =>
    simp only [Devices.step] at hs
    split at hs
    · cases hs
    · exact h.putcStore hs

theorem Waiters.of_reachable (h : Reachable s) : Waiters s := by
  induction h with
  | refl => exact Waiters.init
  | tail _ hst ih =>
    obtain ⟨e, he⟩ := hst
    exact ih.step he

end Waiters

section Handlers
variable {s : Sys}

theorem putcStore_ok (hw : Waiters s) (hf : intqFull s.q = false) (byte : UInt8) :
    ∃ s', putcStore s byte = .ok s' := by
  unfold Devices.putcStore
  dsimp only
  refine Waiters.signal_ok (hw.of_q rfl rfl rfl rfl) ?_
  exact hf

theorem getcTake_ok (hw : Waiters s) (hi : Inv s) (he : intqEmpty s.q = false) :
    ∃ s', getcTake s = .ok s' := by
  unfold Devices.getcTake
  dsimp only
  refine Waiters.signal_ok (hw.of_q rfl rfl rfl rfl) ?_
  have hh := hi.head_lt
  have ht := hi.tail_lt
  simp only [Waiter.holds, intqFull, intqEmpty, next, beq_eq_false_iff_ne, Sys.setQ] at he ⊢
  simp only [INTQ_BUFSIZE] at *
  omega

theorem inputPutc_step {s' : Sys} {key : UInt8} (h : inputPutc s key = .ok s') :
    step s (.irqPutc key) = .ok s' := by
  unfold inputPutc at h
  simp only [Devices.step]
  split at h
  · cases h
  · rename_i hf
    simpa [hf] using h

theorem inputPutc_ok (hw : Waiters s) (hf : inputFull s = false) (key : UInt8) :
    ∃ s', inputPutc s key = .ok s' := by
  unfold inputPutc
  simp only [show intqFull s.q = false from hf, Bool.false_eq_true, if_false]
  exact putcStore_ok hw hf key

theorem intq_handlers_succeed (h : Reachable s) (byte : UInt8) :
    (intqFull s.q = false → ∃ s', step s (.irqPutc byte) = .ok s') ∧
      (intqEmpty s.q = false → ∃ s', step s .irqGetc = .ok s') := by
  have hw := Waiters.of_reachable h
  refine ⟨fun hf => ?_, fun he => ?_⟩
  · simp only [Devices.step, hf, Bool.false_eq_true, if_false]
    exact putcStore_ok hw hf byte
  · simp only [Devices.step, he, Bool.false_eq_true, if_false]
    exact getcTake_ok hw (Inv.of_reachable h) he

/-- Thread 1 waits in `intq_getc` on the empty queue, and a handler's byte wakes it. -/
theorem intq_handlers_succeed_waiting :
    ∃ s, Reachable s ∧ s.q.notEmpty = some 1 ∧ (s.threads 1).blocked = true ∧
      ∃ s', step s (.irqPutc 97) = .ok s' := by
  obtain ⟨s, hs, hp⟩ : ∃ s, Reachable s ∧
      (s.q.notEmpty == some 1 && (s.threads 1).blocked && !intqFull s.q) = true :=
    exists_reachable_of_runSteps [.getc 1] (by decide +kernel)
  simp only [Bool.and_eq_true, beq_iff_eq, Bool.not_eq_eq_eq_not, Bool.not_true] at hp
  exact ⟨s, hs, hp.1.1, hp.1.2, (intq_handlers_succeed hs 97).1 hp.2⟩

end Handlers

end Pintos.Devices
