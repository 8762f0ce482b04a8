import Pintos.Lib.Compaction
import Pintos.Lib.Except
import Pintos.Threads.Ops

/-! # The donation stack of a thread

`stored_priority` and `stored_lock_master` with `stored_index` are a stack of the (priority, lock)
pairs a thread had before each donation it received, and `priority` with
`priority_lock_master` is the pair on top. `Thread.levels` is that stack as a list, bottom first,
with the top last.

* `donate_levels`: a donation pushes the new pair; it fails exactly when the stack is full.
* `releaseDonations_levels`: the array code of `lock_release` (marking, compaction, pop) removes
  from the levels exactly the pairs of the released lock. The compaction is the loop of
  `Compaction`, with `-1` as the hole.
-/

namespace Pintos.Threads
open Compaction
open Except (bind_eq_ok pure_eq_ok)
set_option autoImplicit false

/-- The pair at index `i` of the two arrays. -/
def pairs (sp : Nat → Int) (sm : Nat → Option LockId) (i : Nat) : Int × Option LockId :=
  (sp i, sm i)

/-- An entry emptied by the marking loop of `lock_release`. -/
def IsHole (e : Int × Option LockId) : Prop := e.1 = -1

instance : DecidablePred IsHole := fun e => inferInstanceAs (Decidable (e.1 = -1))

/-- The saved pairs, bottom first. -/
def Thread.stack (th : Thread) : List (Int × Option LockId) :=
  entries (pairs th.storedPriority th.storedLockMaster) th.storedIndex.toNat

/-- The saved pairs and the current one. -/
def Thread.levels (th : Thread) : List (Int × Option LockId) :=
  th.stack ++ [(th.priority, th.priorityLockMaster)]

/-! ## The arrays -/

section Arrays
variable {β : Type} (a : Nat → β)

theorem arrayGet_nat {i : Nat} (hi : i < 30) : arrayGet a (i : Int) = .ok (a i) := by
  unfold arrayGet STORED_MAX
  rw [if_pos ⟨Int.natCast_nonneg i, by omega⟩]
  rfl

theorem arraySet_nat {i : Nat} (hi : i < 30) (v : β) :
    arraySet a (i : Int) v = .ok (Function.update a i v) := by
  unfold arraySet STORED_MAX
  rw [if_pos ⟨Int.natCast_nonneg i, by omega⟩]
  rfl

theorem arraySet_int {i : Int} (h0 : 0 ≤ i) (hi : i < 30) (v : β) :
    arraySet a i v = .ok (Function.update a i.toNat v) := by
  obtain ⟨k, rfl⟩ := Int.eq_ofNat_of_zero_le h0
  exact arraySet_nat a (by omega) v

end Arrays

theorem pairs_update (sp : Nat → Int) (sm : Nat → Option LockId) (i : Nat) (p : Int)
    (m : Option LockId) :
    pairs (Function.update sp i p) (Function.update sm i m) = Function.update (pairs sp sm) i (p, m) := by
  funext j
  by_cases hj : j = i
  · subst hj; simp [pairs]
  · simp [pairs, hj]

theorem pairs_move (sp : Nat → Int) (sm : Nat → Option LockId) (i j : Nat) :
    pairs (Function.update (Function.update sp i (sp j)) j (-1))
      (Function.update (Function.update sm i (sm j)) j none) = move (pairs sp sm) i j (-1, none) := by
  rw [pairs_update, pairs_update]
  rfl

theorem Thread.levels_ne_nil (th : Thread) : th.levels ≠ [] := by simp [Thread.levels]

theorem Thread.length_levels (th : Thread) : th.levels.length = th.storedIndex.toNat + 1 := by
  simp [Thread.levels, Thread.stack]

theorem Thread.levels_of_index_zero {th : Thread} (h : th.storedIndex = 0) :
    th.levels = [(th.priority, th.priorityLockMaster)] := by
  simp [Thread.levels, Thread.stack, h]

theorem Thread.levels_head {th : Thread} (h0 : 0 ≤ th.storedIndex) (h : th.storedIndex ≠ 0) :
    th.levels.head? = some (th.storedPriority 0, th.storedLockMaster 0) := by
  obtain ⟨k, hk⟩ : ∃ k, th.storedIndex.toNat = k + 1 := ⟨th.storedIndex.toNat - 1, by omega⟩
  simp [Thread.levels, Thread.stack, hk, entries, List.range_succ_eq_map, pairs]

theorem Thread.levels_setBottom (th : Thread) (p : Int) (h0 : 0 ≤ th.storedIndex)
    (h : th.storedIndex ≠ 0) :
    ({ th with storedPriority := Function.update th.storedPriority 0 p } : Thread).levels =
      (p, th.storedLockMaster 0) :: th.levels.tail := by
  obtain ⟨k, hk⟩ : ∃ k, th.storedIndex.toNat = k + 1 := ⟨th.storedIndex.toNat - 1, by omega⟩
  have hu : pairs (Function.update th.storedPriority 0 p) th.storedLockMaster =
      Function.update (pairs th.storedPriority th.storedLockMaster) 0 (p, th.storedLockMaster 0) := by
    rw [← pairs_update, Function.update_eq_self]
  simp only [Thread.levels, Thread.stack, hk, hu, entries_update_zero]
  rw [List.tail_append_of_ne_nil (List.ne_nil_of_length_pos (by simp))]
  rfl

/-! ## Donation -/

theorem donate_ok {H H' : Thread} {p : Int} {l : LockId} (h : donate H p l = .ok H') :
    0 ≤ H.storedIndex ∧ H.storedIndex < 30 ∧
      H' = { H with storedPriority := Function.update H.storedPriority H.storedIndex.toNat H.priority,
                    storedLockMaster :=
                      Function.update H.storedLockMaster H.storedIndex.toNat H.priorityLockMaster,
                    storedIndex := H.storedIndex + 1, priority := p, priorityLockMaster := some l } := by
  unfold donate at h
  by_cases hb : 0 ≤ H.storedIndex ∧ H.storedIndex < 30
  · rw [arraySet_int _ hb.1 hb.2, arraySet_int _ hb.1 hb.2] at h
    exact ⟨hb.1, hb.2, (Except.ok.inj h).symm⟩
  · unfold arraySet STORED_MAX at h
    rw [if_neg hb] at h
    cases h

theorem donate_levels {H H' : Thread} {p : Int} {l : LockId} (h : donate H p l = .ok H') :
    H'.levels = H.levels ++ [(p, some l)] := by
  obtain ⟨h0, -, rfl⟩ := donate_ok h
  have hn : (H.storedIndex + 1).toNat = H.storedIndex.toNat + 1 := by omega
  simp only [Thread.levels, Thread.stack, pairs_update, hn, entries_succ]
  rw [entries_congr (fun j hj => Function.update_of_ne (Nat.ne_of_lt hj) _ _)]
  simp

/-! ## Release -/

section Release
variable (l : LockId) {n : Int} (hn0 : 0 ≤ n) (hn : n ≤ 30)
include hn0 hn

/-- The marking loop from index `i` on: every entry of `l` in `[i, n)` becomes `(-1, NULL)`,
and `co` counts them. -/
theorem releaseMark_ok : ∀ (k i : Nat) (sp : Nat → Int) (sm : Nat → Option LockId) (co : Int),
    n.toNat ≤ i + k → ∃ sp' sm', releaseMark l n k i sp sm co =
      .ok (sp', sm', co + ((List.range' i (n.toNat - i)).countP (fun j => sm j = some l) : Nat)) ∧
      ∀ j, pairs sp' sm' j =
        if i ≤ j ∧ j < n.toNat ∧ sm j = some l then (-1, none) else pairs sp sm j
  | 0, i, sp, sm, co, hk => by
    refine ⟨sp, sm, ?_, fun j => ?_⟩
    · simp [releaseMark, show n.toNat - i = 0 by omega]
    · rw [if_neg (by omega)]
  | k + 1, i, sp, sm, co, hk => by
    by_cases hi : (i : Int) < n
    · have hi30 : i < 30 := by omega
      have hr : List.range' i (n.toNat - i) = i :: List.range' (i + 1) (n.toNat - (i + 1)) := by
        rw [show n.toNat - i = (n.toNat - (i + 1)) + 1 by omega, List.range'_succ]
      by_cases hm : sm i = some l
      · -- an entry of `l`: emptied, counted, and the loop goes on
        obtain ⟨sp', sm', hrun, hp⟩ := releaseMark_ok k (i + 1) (Function.update sp i (-1))
          (Function.update sm i none) (co + 1) (by omega)
        have hcount : (List.range' (i + 1) (n.toNat - (i + 1))).countP
            (fun j => Function.update sm i none j = some l) =
            (List.range' (i + 1) (n.toNat - (i + 1))).countP (fun j => sm j = some l) :=
          List.countP_congr (fun j hj => by
            rw [Function.update_of_ne (by simp [List.mem_range'] at hj; omega)])
        refine ⟨sp', sm', ?_, fun j => ?_⟩
        · simp only [releaseMark, if_pos hi, arrayGet_nat _ hi30, arraySet_nat _ hi30, bind,
            Except.bind, hrun, hcount, hr, List.countP_cons, hm]
          simp
          omega
        · rw [hp j, pairs_update]
          by_cases hj : j = i
          · rw [hj]
            simp [hm, show i < n.toNat by omega]
          · have e : i + 1 ≤ j ↔ i ≤ j := by omega
            simp only [Function.update_of_ne hj, e]
      · obtain ⟨sp', sm', hrun, hp⟩ := releaseMark_ok k (i + 1) sp sm co (by omega)
        refine ⟨sp', sm', ?_, fun j => ?_⟩
        · simp only [releaseMark, if_pos hi, arrayGet_nat _ hi30, bind, Except.bind,
            hrun, hr, List.countP_cons, hm]
          simp
        · rw [hp j]
          by_cases hj : j = i
          · rw [hj]
            simp [hm]
          · have e : i + 1 ≤ j ↔ i ≤ j := by omega
            simp only [e]
    · refine ⟨sp, sm, ?_, fun j => ?_⟩
      · simp [releaseMark, hi, show n.toNat - i = 0 by omega]
      · rw [if_neg (by omega)]

/-- The inner loop of the compaction, for the hole at `i`: it finds no entry after it, or moves
the first one into it. -/
theorem compactInner_ok (i : Nat) : ∀ (k j : Nat) (sp : Nat → Int) (sm : Nat → Option LockId),
    i < j → n.toNat ≤ j + k → ∃ sp' sm', compactInner n i k j sp sm = .ok (sp', sm') ∧
      (((∀ b, j ≤ b → b < n.toNat → IsHole (pairs sp sm b)) ∧ pairs sp' sm' = pairs sp sm) ∨
       ∃ j', j ≤ j' ∧ j' < n.toNat ∧ (∀ b, j ≤ b → b < j' → IsHole (pairs sp sm b)) ∧
         ¬ IsHole (pairs sp sm j') ∧ pairs sp' sm' = move (pairs sp sm) i j' (-1, none))
  | 0, j, sp, sm, _, hk => ⟨sp, sm, rfl, .inl ⟨fun b hb hbn => absurd hbn (by omega), rfl⟩⟩
  | k + 1, j, sp, sm, hij, hk => by
    by_cases hj : (j : Int) < n
    · have hj30 : j < 30 := by omega
      by_cases hp : sp j = -1
      · -- a hole: the scan goes on
        obtain ⟨sp', sm', hrun, hres⟩ := compactInner_ok i k (j + 1) sp sm (by omega) (by omega)
        refine ⟨sp', sm', ?_, ?_⟩
        · simp only [compactInner, if_pos hj, arrayGet_nat _ hj30, bind, Except.bind, if_pos hp,
            hrun]
        · have hjh : IsHole (pairs sp sm j) := hp
          rcases hres with ⟨hall, he⟩ | ⟨j', hj', hj'n, hmid, hnot, he⟩
          · refine .inl ⟨fun b hb hbn => ?_, he⟩
            rcases Nat.lt_or_eq_of_le hb with hb | rfl
            · exact hall b hb hbn
            · exact hjh
          · refine .inr ⟨j', by omega, hj'n, fun b hb hbj => ?_, hnot, he⟩
            rcases Nat.lt_or_eq_of_le hb with hb | rfl
            · exact hmid b hb hbj
            · exact hjh
      · -- an entry: it moves into the hole
        have hi30 : i < 30 := by omega
        refine ⟨_, _, ?_, .inr ⟨j, le_refl j, by omega, fun b hb hbj => absurd hb (by omega), hp,
          pairs_move sp sm i j⟩⟩
        simp only [compactInner, if_pos hj, arrayGet_nat _ hj30, bind, Except.bind, if_neg hp,
          arraySet_nat _ hi30, arraySet_nat _ hj30]
    · exact ⟨sp, sm, by simp [compactInner, hj],
        .inl ⟨fun b hb hbn => absurd hbn (by omega), rfl⟩⟩

theorem compactOuter_ok : ∀ (k i : Nat) (sp : Nat → Int) (sm : Nat → Option LockId),
    n.toNat ≤ i + k → PackedBelow IsHole (pairs sp sm) i n.toNat →
    ∃ sp' sm', compactOuter n k i sp sm = .ok (sp', sm') ∧
      live IsHole (pairs sp' sm') n.toNat = live IsHole (pairs sp sm) n.toNat ∧
      PackedBelow IsHole (pairs sp' sm') n.toNat n.toNat
  | 0, i, sp, sm, hk, hpk => ⟨sp, sm, rfl, rfl, hpk.mono (by omega)⟩
  | k + 1, i, sp, sm, hk, hpk => by
    by_cases hi : (i : Int) < n
    · have hi30 : i < 30 := by omega
      by_cases hp : sp i = -1
      · have hih : IsHole (pairs sp sm i) := hp
        obtain ⟨sp1, sm1, hrun1, hres⟩ := compactInner_ok hn0 hn i n.toNat (i + 1) sp sm
          (Nat.lt_succ_self i) (by omega)
        -- after the inner loop the array is packed one index further, with the same entries
        have hstep : live IsHole (pairs sp1 sm1) n.toNat = live IsHole (pairs sp sm) n.toNat ∧
            PackedBelow IsHole (pairs sp1 sm1) (i + 1) n.toNat := by
          rcases hres with ⟨hall, he⟩ | ⟨j', hj', hj'n, hmid, hnot, he⟩
          · rw [he]
            refine ⟨rfl, hpk.succ_of_holes (fun b hb hbn => ?_)⟩
            rcases Nat.lt_or_eq_of_le hb with hb | rfl
            · exact hall b hb hbn
            · exact hih
          · rw [he]
            exact ⟨live_move (by omega) hj'n hih (fun m hm hmj => hmid m hm hmj) hnot rfl,
              hpk.move_succ (by omega) hj'n hnot⟩
        obtain ⟨sp', sm', hrun, hlive, hpk'⟩ := compactOuter_ok k (i + 1) sp1 sm1 (by omega) hstep.2
        refine ⟨sp', sm', ?_, hlive.trans hstep.1, hpk'⟩
        simp only [compactOuter, if_pos hi, arrayGet_nat _ hi30, bind, Except.bind, if_pos hp,
          hrun1, hrun]
      · obtain ⟨sp', sm', hrun, hlive, hpk'⟩ :=
          compactOuter_ok k (i + 1) sp sm (by omega) (hpk.succ_of_live hp)
        refine ⟨sp', sm', ?_, hlive, hpk'⟩
        simp only [compactOuter, if_pos hi, arrayGet_nat _ hi30, bind, Except.bind, if_neg hp,
          pure, Except.pure, hrun]
    · exact ⟨sp, sm, by simp [compactOuter, hi], rfl, hpk.mono (by omega)⟩

end Release

theorem releasePop_levels {C C' : Thread} {l : LockId} {sp : Nat → Int} {sm : Nat → Option LockId}
    {idx : Int} {S : List (Int × Option LockId)} (hidx : idx = S.length)
    (hS : entries (pairs sp sm) S.length = S) (hne : S ≠ []) (h30 : S.length ≤ 30)
    (h : (if C.priorityLockMaster = some l then do
            let p ← arrayGet sp (idx - 1)
            let m ← arrayGet sm (idx - 1)
            pure { C with storedPriority := sp, storedLockMaster := sm, storedIndex := idx - 1,
                          priority := p, priorityLockMaster := m }
          else pure { C with storedPriority := sp, storedLockMaster := sm, storedIndex := idx }) =
      Except.ok C') :
    C'.levels = (if C.priorityLockMaster = some l then S
      else S ++ [(C.priority, C.priorityLockMaster)]) ∧ 0 ≤ C'.storedIndex ∧
    C' = { C with storedPriority := C'.storedPriority, storedLockMaster := C'.storedLockMaster,
                  storedIndex := C'.storedIndex, priority := C'.priority,
                  priorityLockMaster := C'.priorityLockMaster } := by
  subst hidx
  split at h
  · -- the top pair was the lock's: the last kept pair becomes the top
    rw [if_pos ‹_›]
    obtain ⟨m, hm⟩ : ∃ m, S.length = m + 1 := Nat.exists_eq_succ_of_ne_zero (by simpa using hne)
    have hidx : ((S.length : Int) - 1) = (m : Int) := by omega
    rw [hidx, arrayGet_nat _ (by omega), arrayGet_nat _ (by omega)] at h
    cases h
    refine ⟨?_, by simp, rfl⟩
    rw [hm, entries_succ] at hS
    simp only [Thread.levels, Thread.stack, Int.toNat_natCast]
    exact hS
  · rw [if_neg ‹_›]
    cases h
    refine ⟨?_, by simp, rfl⟩
    simp only [Thread.levels, Thread.stack, Int.toNat_natCast, hS]

theorem releaseDonations_empty {C : Thread} {l : LockId} (h : C.storedIndex = 0) :
    releaseDonations C l = .ok C := by
  simp [releaseDonations, h]; rfl

theorem levels_filter (C : Thread) (l : LockId) :
    C.levels.filter (fun e => e.2 ≠ some l) =
      if C.priorityLockMaster = some l then C.stack.filter (fun e => e.2 ≠ some l)
      else C.stack.filter (fun e => e.2 ≠ some l) ++ [(C.priority, C.priorityLockMaster)] := by
  rw [Thread.levels, List.filter_append]
  split <;> simp_all

/-- The array code of `lock_release` removes the pairs of the released lock from the levels,
and changes nothing else. -/
theorem releaseDonations_levels {C C' : Thread} {l : LockId} (h : releaseDonations C l = .ok C')
    (hn0 : 0 ≤ C.storedIndex) (hn : C.storedIndex ≤ 30) (hne : C.storedIndex ≠ 0)
    (hlive : ∀ e ∈ C.stack, ¬ IsHole e) (hbot : C.storedLockMaster 0 ≠ some l) :
    C'.levels = C.levels.filter (fun e => e.2 ≠ some l) ∧ 0 ≤ C'.storedIndex ∧
    C' = { C with storedPriority := C'.storedPriority, storedLockMaster := C'.storedLockMaster,
                  storedIndex := C'.storedIndex, priority := C'.priority,
                  priorityLockMaster := C'.priorityLockMaster } := by
  obtain ⟨S, hSdef⟩ : ∃ S, S = C.stack.filter (fun e => e.2 ≠ some l) := ⟨_, rfl⟩
  have hf : ∀ j < C.storedIndex.toNat, ¬ IsHole (pairs C.storedPriority C.storedLockMaster j) :=
    fun j hj => hlive _ (mem_entries.mpr ⟨j, hj, rfl⟩)
  have hSne : S ≠ [] := by
    rw [hSdef]
    exact List.ne_nil_of_mem (List.mem_filter.mpr
      ⟨mem_entries.mpr ⟨0, by omega, rfl⟩, decide_eq_true hbot⟩)
  have hSlen : S.length ≤ C.storedIndex.toNat := by
    rw [hSdef]
    exact (List.length_filter_le _ _).trans (by simp [Thread.stack])
  have hlevels : C'.levels = (if C.priorityLockMaster = some l then S
      else S ++ [(C.priority, C.priorityLockMaster)]) → C'.levels = C.levels.filter (fun e => e.2 ≠ some l) :=
    fun h1 => by rw [h1, levels_filter, hSdef]
  unfold releaseDonations at h
  rw [if_neg hne] at h
  obtain ⟨x, hx, h⟩ := bind_eq_ok.mp h
  obtain ⟨sp1, sm1, hrun1, hp1⟩ :=
    releaseMark_ok l hn0 hn C.storedIndex.toNat 0 C.storedPriority C.storedLockMaster 0 (by omega)
  rw [hrun1, Except.ok.injEq] at hx
  subst hx
  dsimp only at h
  have hg : ∀ j < C.storedIndex.toNat, pairs sp1 sm1 j =
      if (pairs C.storedPriority C.storedLockMaster j).2 = some l then (-1, none)
      else pairs C.storedPriority C.storedLockMaster j := fun j hj => by
    have hj' : (j : Int) < C.storedIndex := by omega
    rw [hp1 j]
    by_cases hm : C.storedLockMaster j = some l
    · simp [pairs, hj', hm]
    · simp [pairs, hm]
  have hl1 : live IsHole (pairs sp1 sm1) C.storedIndex.toNat = S := by
    rw [hSdef]
    exact live_mark (fun e => e.2 = some l) (show IsHole ((-1 : Int), (none : Option LockId)) from rfl)
      hf hg
  have hco : (List.range' 0 (C.storedIndex.toNat - 0)).countP
      (fun j => C.storedLockMaster j = some l) + S.length = C.storedIndex.toNat := by
    have e := List.length_eq_countP_add_countP (fun j => decide (C.storedLockMaster j = some l))
      (l := List.range C.storedIndex.toNat)
    have hS' : S.length = (List.range C.storedIndex.toNat).countP
        (fun j => ¬ decide (C.storedLockMaster j = some l)) := by
      rw [hSdef, Thread.stack, entries, List.filter_map, List.length_map,
        ← List.countP_eq_length_filter]
      exact List.countP_congr (fun j _ => by
        by_cases hm : C.storedLockMaster j = some l <;> simp [pairs, hm])
    rw [Nat.sub_zero, ← List.range_eq_range', hS']
    rw [List.length_range] at e
    omega
  split at h
  · -- some pairs were removed: the compaction packs the kept ones at the front
    obtain ⟨⟨sp2, sm2⟩, h2, h⟩ := bind_eq_ok.mp h
    obtain ⟨sp2', sm2', hrun2, hl2, hpk2⟩ :=
      compactOuter_ok hn0 hn C.storedIndex.toNat 0 sp1 sm1 (by omega) PackedBelow.zero
    rw [hrun2, Except.ok.injEq, Prod.mk.injEq] at h2
    obtain ⟨rfl, rfl⟩ := h2
    dsimp only at h
    rw [pure_bind] at h
    dsimp only at h
    have hS : entries (pairs sp2' sm2') S.length = S := by
      rw [← hl1, ← hl2]
      exact entries_live_of_packed hpk2
    obtain ⟨h1, h2, h3⟩ := releasePop_levels (by omega) hS hSne (by omega) h
    exact ⟨hlevels h1, h2, h3⟩
  · -- nothing of the lock was stored: the arrays are as they were
    rename_i hco0
    rw [pure_bind] at h
    dsimp only at h
    have hc0 : (List.range' 0 (C.storedIndex.toNat - 0)).countP
        (fun j => C.storedLockMaster j = some l) = 0 := by omega
    have hnot : ∀ j < C.storedIndex.toNat, C.storedLockMaster j ≠ some l := fun j hj hj' => by
      have := List.countP_eq_zero.mp hc0 j (List.mem_range'.mpr ⟨j, by omega, by simp⟩)
      simp_all
    have hS : entries (pairs sp1 sm1) S.length = S := by
      have hfg : ∀ j < C.storedIndex.toNat, pairs sp1 sm1 j = pairs C.storedPriority C.storedLockMaster j :=
        fun j hj => by rw [hg j hj, if_neg (show (pairs _ _ j).2 ≠ some l from hnot j hj)]
      rw [show S.length = C.storedIndex.toNat by omega, entries_congr hfg, hSdef]
      exact (List.filter_eq_self.mpr (fun e he => by
        obtain ⟨j, hj, rfl⟩ := mem_entries.mp he
        exact decide_eq_true (hnot j hj))).symm
    obtain ⟨h1, h2, h3⟩ := releasePop_levels (by omega) hS hSne (by omega) h
    exact ⟨hlevels h1, h2, h3⟩

end Pintos.Threads
