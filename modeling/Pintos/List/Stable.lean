import Pintos.List.Ordered
import Pintos.Lib.WeakOrder

/-! # The ordered operations under a strict weak order

`less` answers `lt` on the elements the loops compare, and `lt` is a strict weak order
(`IsStrictWeakOrder α (lt · · = true)`, as `list.h` asks of a `list_less_func`). The loops of
`Ordered` then compute their abstract counterparts of `WeakOrder`:

* `list_insert_ordered` is `List.orderedInsert`: on a sorted list it keeps the list sorted and puts
  the new element behind all equivalent ones; a sequence of calls is a stable sort
  (`IsList.insertOrderedAll`).
* `list_unique` is `WeakOrder.sweep`: it keeps the head of each maximal run of equivalent
  neighbours and hands the rest of each run to `duplicates`.
-/

namespace Pintos.KList
open LinkHeap WeakOrder
set_option autoImplicit false

variable {α : Type} {h g : Heap α} {l : DList α} {xs : List α} (lt : α → α → Bool)

/-! ## `list_insert_ordered` -/

theorem takeWhile_not_lt (elem : α) (xs : List α) :
    (xs.takeWhile fun b => decide ¬lt elem b = true) = xs.takeWhile fun e => !lt elem e := by
  congr 1
  funext b
  cases lt elem b <;> rfl

theorem dropWhile_not_lt (elem : α) (xs : List α) :
    (xs.dropWhile fun b => decide ¬lt elem b = true) = xs.dropWhile fun e => !lt elem e := by
  congr 1
  funext b
  cases lt elem b <;> rfl

theorem nodes_orderedInsert {r : α → α → Prop} [DecidableRel r] {x e : α} :
    x ∈ DList.nodes l (xs.orderedInsert r e) ↔ x = e ∨ x ∈ DList.nodes l xs := by
  simp only [DList.nodes, List.mem_cons, List.mem_append, List.mem_orderedInsert]
  tauto

variable [DecidableEq α]

theorem IsList.insertOrdered_orderedInsert (hl : IsList h l xs) {elem : α}
    (he : elem ∉ DList.nodes l xs) (less : α → α → Option Bool)
    (hless : ∀ e ∈ xs, less elem e = some (lt elem e)) {fuel : Nat} (hf : xs.length < fuel) :
    ∃ h', listInsertOrdered h l elem less fuel = some h' ∧
      IsList h' l (xs.orderedInsert (fun a b => lt a b = true) elem) ∧
      ∀ x ∉ DList.nodes l xs, x ≠ elem → h' x = h x := by
  rw [List.orderedInsert_eq_take_drop, takeWhile_not_lt, dropWhile_not_lt]
  exact hl.insertOrdered_eq he lt hless hf

/-! ## `list_unique` -/

theorem IsList.uniqueFrom_sweep {dup : Option (DList α)} {less : α → α → Option Bool}
    {S : List α} (hless : ∀ a ∈ S, ∀ b ∈ S, less a b = some (lt a b)) :
    ∀ {fuel : Nat} {g : Heap α} {A B ds : List α} {e : α},
      IsList g l (A ++ e :: B) → DupInv g l (A ++ e :: B) dup ds → e :: B ⊆ S → B.length < fuel →
      ∃ g', uniqueFrom g l.tail dup less fuel e = some g' ∧
        IsList g' l (A ++ e :: (sweep (fun a b => lt a b = true) e B).1) ∧
        DupInv g' l (A ++ e :: (sweep (fun a b => lt a b = true) e B).1) dup
          (ds ++ (sweep (fun a b => lt a b = true) e B).2) ∧
        ∀ x ∉ DList.nodes l (A ++ e :: B), x ∉ dupNodes dup ds → g' x = g x
  | 0, _, _, _, _, _, _, _, _, hf => by simp at hf
  | fuel + 1, g, A, [], ds, e, hl, hd, _, _ =>
    ⟨g, uniqueFrom_tail (show listNext g e = some l.tail from hl.listNext_eq), by simpa [sweep] using hl,
      by simpa [sweep] using hd, fun _ _ _ => rfl⟩
  | fuel + 1, g, A, b :: B, ds, e, hl, hd, hS, hf => by
    have hnext : listNext g e = some b := hl.listNext_eq
    have hb : b ≠ l.tail := fun h => hl.tail_not_mem (by simp [← h])
    have h1 := hless e (hS (List.mem_cons_self ..)) b (hS (by simp))
    have h2 := hless b (hS (by simp)) e (hS (List.mem_cons_self ..))
    have hf' : B.length < fuel := by simp at hf; omega
    by_cases heq : WeakOrder.Equiv (fun a b => lt a b = true) e b
    · -- `next` is equivalent to the kept element: dropped
      have hfalse : lt e b = false ∧ lt b e = false := by simpa [WeakOrder.Equiv] using heq
      obtain ⟨g₁, g₂, hrem, hpush, hl₂, hd₂, hfr₂⟩ := hl.dropNext hd
      obtain ⟨g', hrun, hl', hd', hfr⟩ := IsList.uniqueFrom_sweep hless hl₂ hd₂
        (fun x hx => hS (by simp only [List.mem_cons] at hx ⊢; tauto)) hf'
      refine ⟨g', ?_, by simpa [sweep, heq] using hl', by simpa [sweep, heq] using hd', ?_⟩
      · rw [uniqueFrom_drop hnext hb (by rw [h1, hfalse.1]) (by rw [h2, hfalse.2]) hrem, hpush,
          Option.bind_some, hrun]
      · intro x hx hxd
        have hxb : x ≠ b := fun h => hx (by simp [h, DList.nodes])
        have hxn : x ∉ DList.nodes l (A ++ e :: B) := fun hm => hx (by
          simp only [DList.nodes, List.mem_cons, List.mem_append] at hm ⊢
          tauto)
        rw [hfr x hxn (fun hm => (dupNodes_append hm).elim hxb hxd), hfr₂ x hx hxd]
    · -- `next` differs: kept, and the loop goes on from it
      have hne : less e b = some true ∨ less e b = some false ∧ less b e = some true := by
        simp only [WeakOrder.Equiv, not_and_or, not_not] at heq
        cases hlt : lt e b <;> simp_all
      obtain ⟨g', hrun, hl', hd', hfr⟩ := IsList.uniqueFrom_sweep hless (A := A ++ [e])
        (by simpa using hl) (by simpa using hd) (fun x hx => hS (List.mem_cons_of_mem e hx)) hf'
      refine ⟨g', by rw [uniqueFrom_keep hnext hb hne, hrun], by simpa [sweep, heq] using hl',
        by simpa [sweep, heq] using hd', fun x hx hxd => hfr x (by simpa using hx) hxd⟩

variable [IsStrictWeakOrder α fun a b => lt a b = true]

/-! ## On sorted lists -/

/-- **`list_insert_ordered` on a sorted list** keeps it sorted: the new element goes behind every
element it is not less than and in front of every element it is less than. -/
theorem IsList.insertOrdered_sorted (hl : IsList h l xs) {elem : α}
    (he : elem ∉ DList.nodes l xs) (hs : Sorted (fun a b => lt a b = true) xs) {fuel : Nat}
    (hf : xs.length < fuel) :
    ∃ h', listInsertOrdered h l elem (fun a b => some (lt a b)) fuel = some h' ∧
      ∃ A B, xs = A ++ B ∧ IsList h' l (A ++ elem :: B) ∧
        Sorted (fun a b => lt a b = true) (A ++ elem :: B) ∧
        (∀ a ∈ A, lt elem a = false) ∧ ∀ b ∈ B, lt elem b = true := by
  obtain ⟨h', hrun, hl', -⟩ :=
    hl.insertOrdered_orderedInsert lt he (fun a b => some (lt a b)) (fun _ _ => rfl) hf
  obtain ⟨A, B, hxs, hins, hA, hB⟩ := hs.orderedInsert_split elem
  refine ⟨h', hrun, A, B, hxs, hins ▸ hl', hins ▸ hs.orderedInsert elem, fun a ha => ?_, hB⟩
  simpa using hA a ha

/-- **A sequence of `list_insert_ordered` calls** into a sorted list, each with an element in no
list yet: the list ends up holding the stable insertion of the elements. -/
theorem IsList.insertOrderedAll {less : α → α → Option Bool} {fuel : Nat} :
    ∀ {es : List α} {h : Heap α} {xs : List α}, IsList h l xs →
      Sorted (fun a b => lt a b = true) xs → es.Nodup → (∀ e ∈ es, e ∉ DList.nodes l xs) →
      (∀ a ∈ es, ∀ b ∈ xs ++ es, less a b = some (lt a b)) → xs.length + es.length < fuel →
      ∃ h', es.foldlM (fun h e => listInsertOrdered h l e less fuel) h = some h' ∧
        IsList h' l (es.foldl (fun ys e => ys.orderedInsert (fun a b => lt a b = true) e) xs)
  | [], h, _, hl, _, _, _, _, _ => ⟨h, rfl, hl⟩
  | e :: es, h, xs, hl, hs, hnd, hfresh, hless, hf => by
    obtain ⟨h₁, hins, hl₁, -⟩ := hl.insertOrdered_orderedInsert lt
      (hfresh e (List.mem_cons_self ..)) less
      (fun b hb => hless e (List.mem_cons_self ..) b (List.mem_append_left _ hb))
      (show xs.length < fuel by simp at hf; omega)
    rw [List.nodup_cons] at hnd
    have hfresh₁ : ∀ e' ∈ es, e' ∉ DList.nodes l (xs.orderedInsert (fun a b => lt a b = true) e) := by
      intro e' he' hm
      rcases nodes_orderedInsert.mp hm with rfl | hm
      · exact hnd.1 he'
      · exact hfresh e' (List.mem_cons_of_mem e he') hm
    have hless₁ : ∀ a ∈ es, ∀ b ∈ xs.orderedInsert (fun a b => lt a b = true) e ++ es,
        less a b = some (lt a b) := by
      intro a ha b hb
      refine hless a (List.mem_cons_of_mem e ha) b ?_
      simp only [List.mem_append, List.mem_orderedInsert, List.mem_cons] at hb ⊢
      tauto
    obtain ⟨h', hrun, hl'⟩ := IsList.insertOrderedAll hl₁ (hs.orderedInsert e) hnd.2 hfresh₁
      hless₁ (show _ < fuel by simp [List.orderedInsert_length] at hf ⊢; omega)
    exact ⟨h', by rw [List.foldlM_cons, hins]; exact hrun, hl'⟩

/-- `list_unique` with a comparison that succeeds: the list holds the heads of its runs, and the
rest of each run goes to `duplicates`. -/
theorem IsList.unique_runs (hl : IsList h l xs) {dup : Option (DList α)} {ds : List α}
    (hd : DupInv h l xs dup ds) {fuel : Nat} (hf : xs.length ≤ fuel) :
    ∃ h', listUnique h l dup (fun a b => some (lt a b)) fuel = some h' ∧
      IsList h' l (runHeads (fun a b => lt a b = true) xs) ∧
      DupInv h' l (runHeads (fun a b => lt a b = true) xs) dup
        (ds ++ runRest (fun a b => lt a b = true) xs) ∧
      ∀ x ∉ DList.nodes l xs, x ∉ dupNodes dup ds → h' x = h x := by
  cases xs with
  | nil =>
    refine ⟨h, ?_, by simpa using hl, by simpa using hd, fun _ _ _ => rfl⟩
    simp [listUnique, (hl.empty_iff).mpr rfl]
  | cons e B =>
    have hne : listEmpty h l = false := by
      simpa using (hl.empty_iff).not.mpr (List.cons_ne_nil e B)
    obtain ⟨h', hrun, hl', hd', hfr⟩ := IsList.uniqueFrom_sweep lt (S := e :: B)
      (fun _ _ _ _ => rfl) (A := []) hl hd (List.Subset.refl _)
      (show B.length < fuel by simp at hf; omega)
    rw [← (sweep_eq_runs e B).1, ← (sweep_eq_runs e B).2]
    refine ⟨h', ?_, hl', hd', hfr⟩
    simp only [listUnique, hne, hl.begin_eq, List.headD_cons, Bool.false_eq_true, if_false,
      Option.bind_eq_bind, Option.bind_some]
    exact hrun

/-- **`list_unique`** keeps the first element of each maximal run of equivalent neighbours and
appends the other elements of each run, in order, to `duplicates`; no other node is written. On a
sorted list what is kept is strictly increasing. -/
theorem unique_keeps_run_heads (hl : IsList h l xs) {dup : Option (DList α)} {ds : List α}
    (hd : DupInv h l xs dup ds) {fuel : Nat} (hf : xs.length ≤ fuel) :
    ∃ h', listUnique h l dup (fun a b => some (lt a b)) fuel = some h' ∧
      IsList h' l (runHeads (fun a b => lt a b = true) xs) ∧
      DupInv h' l (runHeads (fun a b => lt a b = true) xs) dup
        (ds ++ runRest (fun a b => lt a b = true) xs) ∧
      (runHeads (fun a b => lt a b = true) xs ++ runRest (fun a b => lt a b = true) xs).Perm xs ∧
      (Sorted (fun a b => lt a b = true) xs →
        (runHeads (fun a b => lt a b = true) xs).Pairwise fun a b => lt a b = true) ∧
      ∀ x ∉ DList.nodes l xs, x ∉ dupNodes dup ds → h' x = h x := by
  obtain ⟨h', hrun, hl', hd', hfr⟩ := hl.unique_runs lt hd hf
  exact ⟨h', hrun, hl', hd', perm_runHeads_runRest xs, fun hs => hs.pairwise_runHeads, hfr⟩

/-- List `⟨0, 1⟩` holding `4, 5, 6`, and an empty list `⟨2, 3⟩`. -/
def runsHeap : Heap Nat :=
  [4, 5, 6].foldl (fun h e => (listPushBack h ⟨0, 1⟩ e).getD h)
    (listInit (listInit ⟨fun _ => ⟨none, none⟩⟩ ⟨0, 1⟩) ⟨2, 3⟩)

theorem unique_keeps_run_heads_halves :
    ∃ h', listUnique runsHeap ⟨0, 1⟩ (some ⟨2, 3⟩) (fun a b => some (decide (a / 2 > b / 2))) 3 =
        some h' ∧
      IsList h' ⟨0, 1⟩ (runHeads (fun a b => decide (a / 2 > b / 2) = true) [4, 5, 6]) ∧
      DupInv h' ⟨0, 1⟩ (runHeads (fun a b => decide (a / 2 > b / 2) = true) [4, 5, 6]) (some ⟨2, 3⟩)
        ([] ++ runRest (fun a b => decide (a / 2 > b / 2) = true) [4, 5, 6]) ∧
      (runHeads (fun a b => decide (a / 2 > b / 2) = true) [4, 5, 6] ++
        runRest (fun a b => decide (a / 2 > b / 2) = true) [4, 5, 6]).Perm [4, 5, 6] ∧
      (Sorted (fun a b => decide (a / 2 > b / 2) = true) [4, 5, 6] →
        (runHeads (fun a b => decide (a / 2 > b / 2) = true) [4, 5, 6]).Pairwise
          fun a b => decide (a / 2 > b / 2) = true) ∧
      ∀ x ∉ DList.nodes ⟨0, 1⟩ [4, 5, 6], x ∉ dupNodes (some ⟨2, 3⟩) [] → h' x = runsHeap x :=
  haveI := isStrictWeakOrder_key_gt fun a : Nat => a / 2
  unique_keeps_run_heads (fun a b => decide (a / 2 > b / 2)) (by decide)
    (show DupInv runsHeap ⟨0, 1⟩ [4, 5, 6] (some ⟨2, 3⟩) [] from ⟨by decide, by decide⟩) (le_refl 3)

end Pintos.KList
