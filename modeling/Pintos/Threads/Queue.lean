import Pintos.List.Stable
import Pintos.Threads.Step

/-! # The order of the priority queues

`ready_list` and the waiters lists are kept with `list_insert_ordered (…,
thread_priority_large_func)`: a thread goes in front of the first thread of lower priority, so
behind every thread of its own priority. Compared by priority, `thread_priority_large_func` is a
strict weak order on the threads, and the results of `Stable` apply.

* `PriorityOrdered s xs`: no thread of `xs` comes before one of higher priority.
* `insert_ordered_stable_fifo`: `list_insert_ordered` keeps a sorted list sorted and puts the new
  element behind the equivalent ones; and any sequence of calls with
  `thread_priority_large_func` leaves the threads ordered by priority, those of equal priority in
  the order they were inserted (round robin among equals).
-/

namespace Pintos.Threads
open LinkHeap KList WeakOrder
set_option autoImplicit false

/-- The elements of `xs`, first to last, have non-increasing priorities. -/
def PriorityOrdered (s : KState) (xs : List Node) : Prop :=
  xs.Pairwise fun a b => ∀ pa ∈ elemPriority s a, ∀ pb ∈ elemPriority s b, pb ≤ pa

/-- The priority an element is compared by (`0` for a node that is no thread's `elem`, which
`thread_priority_large_func` cannot compare). -/
def priorityKey (s : KState) (e : Node) : Int := (elemPriority s e).getD 0

/-- `thread_priority_large_func` on elements it can compare. -/
def priorityLarge (s : KState) (a b : Node) : Bool := decide (priorityKey s a > priorityKey s b)

variable {s : KState}

theorem threadPriorityLargeFunc_eq {a b : Node} (ha : (elemPriority s a).isSome)
    (hb : (elemPriority s b).isSome) :
    threadPriorityLargeFunc s a b = some (priorityLarge s a b) := by
  obtain ⟨pa, hpa⟩ := Option.isSome_iff_exists.mp ha
  obtain ⟨pb, hpb⟩ := Option.isSome_iff_exists.mp hb
  simp [threadPriorityLargeFunc, priorityLarge, priorityKey, hpa, hpb]

theorem priorityLarge_isStrictWeakOrder (s : KState) :
    IsStrictWeakOrder Node fun a b => priorityLarge s a b = true :=
  isStrictWeakOrder_key_gt (priorityKey s)

theorem sorted_iff_priorityOrdered {xs : List Node} (hp : ∀ e ∈ xs, (elemPriority s e).isSome) :
    Sorted (fun a b => priorityLarge s a b = true) xs ↔ PriorityOrdered s xs := by
  refine List.Pairwise.iff_of_mem fun {a b} ha hb => ?_
  obtain ⟨pa, hpa⟩ := Option.isSome_iff_exists.mp (hp a ha)
  obtain ⟨pb, hpb⟩ := Option.isSome_iff_exists.mp (hp b hb)
  simp [priorityLarge, priorityKey, hpa, hpb]

theorem priority_antichain (p : Int) :
    ∀ a b, decide (elemPriority s a = some p) = true → decide (elemPriority s b = some p) = true →
      ¬priorityLarge s a b = true := by
  intro a b ha hb
  simp only [decide_eq_true_eq] at ha hb
  simp [priorityLarge, priorityKey, ha, hb]

/-- **Ordered insertion is stable.** On a list sorted under a strict weak order, a completed
`list_insert_ordered` keeps the list sorted, with the new element behind every element it is not
less than; a sequence of calls with `thread_priority_large_func`, each inserting a thread in no
list yet, orders the threads by priority, those of equal priority first in, first out. -/
theorem insert_ordered_stable_fifo :
    (∀ {α : Type} [DecidableEq α] (lt : α → α → Bool) [IsStrictWeakOrder α fun a b => lt a b = true]
      (h : Heap α) (l : DList α) (xs : List α) (elem : α) (fuel : Nat),
      IsList h l xs → elem ∉ DList.nodes l xs → Sorted (fun a b => lt a b = true) xs →
      xs.length < fuel →
      ∃ h', listInsertOrdered h l elem (fun a b => some (lt a b)) fuel = some h' ∧
        ∃ A B, xs = A ++ B ∧ IsList h' l (A ++ elem :: B) ∧
          Sorted (fun a b => lt a b = true) (A ++ elem :: B) ∧
          (∀ a ∈ A, lt elem a = false) ∧ ∀ b ∈ B, lt elem b = true) ∧
    ∀ (s : KState) (l : DList Node) (h : Heap Node) (xs es : List Node) (fuel : Nat),
      IsList h l xs → (∀ e ∈ xs ++ es, (elemPriority s e).isSome) → es.Nodup →
      (∀ e ∈ es, e ∉ DList.nodes l xs) → PriorityOrdered s xs → xs.length + es.length < fuel →
      ∃ h', es.foldlM (fun h e => listInsertOrdered h l e (threadPriorityLargeFunc s) fuel) h =
          some h' ∧
        ∃ ys, IsList h' l ys ∧ ys.Perm (xs ++ es) ∧ PriorityOrdered s ys ∧
          ∀ p, ys.filter (fun e => elemPriority s e = some p) =
            (xs ++ es).filter fun e => elemPriority s e = some p := by
  refine ⟨fun lt _ h l xs elem fuel hl he hs hf => hl.insertOrdered_sorted lt he hs hf, ?_⟩
  intro s l h xs es fuel hl hp hnd hfresh hord hf
  have := priorityLarge_isStrictWeakOrder s
  have hs : Sorted (fun a b => priorityLarge s a b = true) xs :=
    (sorted_iff_priorityOrdered fun e he => hp e (List.mem_append_left es he)).mpr hord
  have hless : ∀ a ∈ es, ∀ b ∈ xs ++ es,
      threadPriorityLargeFunc s a b = some (priorityLarge s a b) := fun a ha b hb =>
    threadPriorityLargeFunc_eq (hp a (List.mem_append_right xs ha)) (hp b hb)
  obtain ⟨h', hrun, hl'⟩ := hl.insertOrderedAll (priorityLarge s) hs hnd hfresh hless hf
  have hperm := perm_foldl_orderedInsert (r := fun a b => priorityLarge s a b = true) xs es
  refine ⟨h', hrun, _, hl', hperm, ?_, fun p => hs.filter_foldl es (priority_antichain p)⟩
  exact (sorted_iff_priorityOrdered fun e he => hp e (hperm.subset he)).mp
    (hs.foldl_orderedInsert es)

/-- A thread 3 of `main`'s priority, inserted after `main` and the idle thread into the empty
waiters list of a semaphore, goes behind `main` and before the idle thread. -/
theorem insert_ordered_stable_fifo_waiters :
    let s := (initState false).setThread 3 (freshThread .ready PRI_DEFAULT [])
    ∃ h', [Node.elem mainTid, .elem idleTid, .elem 3].foldlM (fun h e => listInsertOrdered h
        (theList (.waiters (.plain 0))) e (threadPriorityLargeFunc s) 4) initHeap = some h' ∧
      ∃ ys, IsList h' (theList (.waiters (.plain 0))) ys ∧
        ys.Perm ([] ++ [Node.elem mainTid, .elem idleTid, .elem 3]) ∧ PriorityOrdered s ys ∧
        ∀ p, ys.filter (fun e => elemPriority s e = some p) =
          ([] ++ [Node.elem mainTid, .elem idleTid, .elem 3]).filter
            fun e => elemPriority s e = some p :=
  insert_ordered_stable_fifo.2 _ (theList (.waiters (.plain 0))) initHeap []
    [.elem mainTid, .elem idleTid, .elem 3] 4 (by decide) (by decide) (by decide) (by decide)
    List.Pairwise.nil (by decide)

end Pintos.Threads
