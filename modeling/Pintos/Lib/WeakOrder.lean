import Mathlib.Order.RelClasses
import Mathlib.Data.List.Sort
import Mathlib.Data.List.SplitBy
import Mathlib.Data.List.TakeWhile
import Mathlib.Algebra.Ring.Nat
import Mathlib.Algebra.Ring.Int.Defs

/-! # Lists under a strict weak order: stable insertion and maximal runs

`r` is a strict weak order (`IsStrictWeakOrder`): two elements neither of which is `r`-before the
other are `Equiv`, and `Equiv` is an equivalence. A list is `Sorted` when no element is `r`-before
one in front of it.

* `List.orderedInsert r x` puts `x` in front of the first element `x` is `r`-before, so behind
  every element equivalent to it. Inserting a sequence one element after the other is a stable
  sort: each class of equivalent elements keeps the order of the sequence (`filter_foldl`).
* `sweep r e B` walks `B` keeping one element of each run of elements equivalent to the last kept
  one, starting from `e`; what it keeps are the heads of the maximal runs of `List.splitBy`
  (`sweep_eq_runs`), and on a sorted list they are strictly increasing.
-/

namespace WeakOrder

variable {α : Type} {r : α → α → Prop}

/-- Neither element is `r`-before the other. -/
def Equiv (r : α → α → Prop) (a b : α) : Prop := ¬r a b ∧ ¬r b a

instance [DecidableRel r] (a b : α) : Decidable (Equiv r a b) :=
  inferInstanceAs (Decidable (_ ∧ _))

/-- No element is `r`-before an element in front of it. -/
def Sorted (r : α → α → Prop) (l : List α) : Prop := l.Pairwise fun a b => ¬r b a

theorem head_of_dropWhile_eq_cons {p : α → Bool} {l D : List α} {d : α}
    (h : l.dropWhile p = d :: D) : p d = false := by
  have := List.head?_dropWhile_not p l
  rw [h, List.head?_cons] at this
  exact this

section Sweep
variable [DecidableRel r]

/-- The maximal runs of adjacent equivalent elements (characterised by `List.splitBy_eq_iff`). -/
def runs (r : α → α → Prop) [DecidableRel r] (l : List α) : List (List α) :=
  l.splitBy fun a b => decide (Equiv r a b)

/-- The first element of each maximal run. -/
def runHeads (r : α → α → Prop) [DecidableRel r] (l : List α) : List α := (runs r l).flatMap (·.take 1)

/-- The other elements of each run, run after run. -/
def runRest (r : α → α → Prop) [DecidableRel r] (l : List α) : List α := (runs r l).flatMap (·.drop 1)

example : runHeads (fun a b => a / 2 < b / 2) [4, 5, 6, 6, 7, 2] = [4, 6, 2] := by decide

@[simp] theorem runHeads_nil : runHeads r [] = [] := rfl

@[simp] theorem runRest_nil : runRest r [] = [] := rfl

/-- The loop of a unique pass: `e` is the element kept last; an element equivalent to it is
dropped, any other is kept and kept last. Returns the kept and the dropped elements. -/
def sweep (r : α → α → Prop) [DecidableRel r] (e : α) : List α → List α × List α
  | [] => ([], [])
  | b :: B =>
    if Equiv r e b then ((sweep r e B).1, b :: (sweep r e B).2)
    else (b :: (sweep r b B).1, (sweep r b B).2)

theorem sweep_perm (e : α) (B : List α) : ((sweep r e B).1 ++ (sweep r e B).2).Perm B := by
  induction B generalizing e with
  | nil => simp [sweep]
  | cons b B ih =>
    by_cases he : Equiv r e b
    · simpa [sweep, he] using List.perm_middle.trans ((ih e).cons b)
    · simpa [sweep, he] using (ih b).cons b

theorem sweep_sublist (e : α) (B : List α) : (sweep r e B).1.Sublist B := by
  induction B generalizing e with
  | nil => simp [sweep]
  | cons b B ih =>
    by_cases he : Equiv r e b
    · simpa [sweep, he] using (ih e).cons b
    · simpa [sweep, he] using (ih b).cons_cons b

theorem sweep_append_equiv {e : α} {C : List α} (hC : ∀ c ∈ C, Equiv r e c) (D : List α) :
    sweep r e (C ++ D) = ((sweep r e D).1, C ++ (sweep r e D).2) := by
  induction C with
  | nil => rfl
  | cons c C ih =>
    rw [List.cons_append, sweep, if_pos (hC c (List.mem_cons_self ..)),
      ih fun c' hc' => hC c' (List.mem_cons_of_mem c hc')]
    rfl

theorem perm_foldl_orderedInsert (l es : List α) :
    (es.foldl (fun l e => l.orderedInsert r e) l).Perm (l ++ es) := by
  induction es generalizing l with
  | nil => simp
  | cons e es ih =>
    have hstep : (l.orderedInsert r e ++ es).Perm (l ++ e :: es) :=
      ((List.perm_orderedInsert r e l).append_right es).trans
        (by simpa using (List.perm_middle : (l ++ e :: es).Perm (e :: (l ++ es))).symm)
    exact (ih _).trans hstep

end Sweep

section StrictWeak
variable [IsStrictWeakOrder α r] {a b c : α}

theorem conn (hac : r a c) (b : α) : r a b ∨ r b c := by
  by_contra hn
  rw [not_or] at hn
  obtain ⟨hab, hbc⟩ := hn
  have hba : ¬r b a := fun h => hbc (trans_of r h hac)
  have hcb : ¬r c b := fun h => hab (trans_of r hac h)
  exact (IsStrictWeakOrder.incomp_trans a b c ⟨hab, hba⟩ ⟨hbc, hcb⟩).1 hac

theorem lt_of_lt_of_not_lt (hab : r a b) (hcb : ¬r c b) : r a c :=
  (conn hab c).resolve_right hcb

theorem equivalence_equiv : Equivalence (Equiv r) where
  refl a := ⟨irrefl_of r a, irrefl_of r a⟩
  symm h := ⟨h.2, h.1⟩
  trans h₁ h₂ := IsStrictWeakOrder.incomp_trans _ _ _ h₁ h₂

/-! ## Stable insertion -/

/-- `orderedInsert` splits the list in front of the first element `x` is `r`-before; on a sorted
list `x` is `r`-before every element behind it. -/
theorem Sorted.orderedInsert_split [DecidableRel r] {l : List α} (hs : Sorted r l) (x : α) :
    ∃ A B, l = A ++ B ∧ l.orderedInsert r x = A ++ x :: B ∧ (∀ a ∈ A, ¬r x a) ∧
      ∀ b ∈ B, r x b := by
  refine ⟨_, _, List.takeWhile_append_dropWhile.symm, List.orderedInsert_eq_take_drop r x l,
    fun a ha => by simpa using List.mem_takeWhile_imp ha, ?_⟩
  have hs' : Sorted r (l.dropWhile fun b => ¬r x b) := hs.sublist (List.dropWhile_sublist _)
  cases hB : l.dropWhile (fun b => ¬r x b) with
  | nil => simp
  | cons b₀ B =>
    have hb₀ : r x b₀ := by simpa using head_of_dropWhile_eq_cons hB
    rw [hB, Sorted, List.pairwise_cons] at hs'
    intro b hb
    rcases List.mem_cons.mp hb with rfl | hb
    · exact hb₀
    · exact lt_of_lt_of_not_lt hb₀ (hs'.1 b hb)

theorem Sorted.orderedInsert [DecidableRel r] {l : List α} (hs : Sorted r l) (x : α) :
    Sorted r (l.orderedInsert r x) := by
  obtain ⟨A, B, rfl, hins, hA, hB⟩ := hs.orderedInsert_split x
  rw [hins]
  have hAB := List.pairwise_append.mp hs
  refine List.pairwise_append.mpr ⟨hAB.1, List.pairwise_cons.mpr ⟨?_, hAB.2.1⟩, ?_⟩
  · exact fun b hb => asymm_of r (hB b hb)
  · intro a ha b hb
    rcases List.mem_cons.mp hb with rfl | hb
    · exact hA a ha
    · exact hAB.2.2 a ha b hb

/-- Inserting into a sorted list keeps every antichain in order (a class of equivalent elements,
say): the new element comes after the elements of its antichain. -/
theorem Sorted.filter_orderedInsert [DecidableRel r] {l : List α} (hs : Sorted r l) (x : α)
    {p : α → Bool} (hp : ∀ a b, p a = true → p b = true → ¬r a b) :
    (l.orderedInsert r x).filter p = (l ++ [x]).filter p := by
  obtain ⟨A, B, rfl, hins, -, hB⟩ := hs.orderedInsert_split x
  rw [hins, List.filter_append, List.filter_append, List.filter_append, List.filter_cons]
  cases hpx : p x with
  | false => simp [hpx]
  | true =>
    have hBp : B.filter p = [] := by
      rw [List.filter_eq_nil_iff]
      intro b hb hpb
      exact hp x b hpx hpb (hB b hb)
    simp [hBp, hpx]

variable [DecidableRel r]

theorem Sorted.foldl_orderedInsert {l : List α} (hs : Sorted r l) (es : List α) :
    Sorted r (es.foldl (fun l e => l.orderedInsert r e) l) := by
  induction es generalizing l with
  | nil => exact hs
  | cons e es ih => exact ih (hs.orderedInsert e)

/-- **Stability.** Inserting the elements of `es` one after the other into a sorted list leaves
every antichain in the order of the list followed by `es`. -/
theorem Sorted.filter_foldl {l : List α} (hs : Sorted r l) (es : List α) {p : α → Bool}
    (hp : ∀ a b, p a = true → p b = true → ¬r a b) :
    (es.foldl (fun l e => l.orderedInsert r e) l).filter p = (l ++ es).filter p := by
  induction es generalizing l with
  | nil => simp
  | cons e es ih =>
    rw [List.foldl_cons, ih (hs.orderedInsert e), List.filter_append,
      hs.filter_orderedInsert e hp, ← List.filter_append, List.append_assoc,
      List.singleton_append]

/-! ## Maximal runs -/

theorem Sorted.pairwise_sweep {e : α} {B : List α} (hs : Sorted r (e :: B)) :
    (e :: (sweep r e B).1).Pairwise r := by
  induction B generalizing e with
  | nil => simp [sweep]
  | cons b B ih =>
    have hbe : ¬r b e := List.rel_of_pairwise_cons hs (List.mem_cons_self ..)
    by_cases he : Equiv r e b
    · simpa [sweep, he] using ih (hs.sublist (.cons_cons e (.cons b (.refl B))))
    · -- `b` is kept and above `e`; everything kept later is not below `b`
      have heb : r e b := by
        by_contra h
        exact he ⟨h, hbe⟩
      have hb : Sorted r (b :: B) := hs.of_cons
      simp only [sweep, he, if_false]
      refine List.Pairwise.cons (fun x hx => ?_) (ih hb)
      rcases List.mem_cons.mp hx with rfl | hx
      · exact heb
      · exact lt_of_lt_of_not_lt heb
          (List.rel_of_pairwise_cons hb ((sweep_sublist b B).subset hx))

theorem runs_cons (e : α) (B : List α) :
    runs r (e :: B) = (e :: B.takeWhile fun b => decide (Equiv r e b)) ::
      runs r (B.dropWhile fun b => decide (Equiv r e b)) := by
  unfold runs
  set C := B.takeWhile fun b => decide (Equiv r e b)
  have hC : ∀ c ∈ C, Equiv r e c := fun c hc => by simpa using List.mem_takeWhile_imp hc
  have hmem : ∀ a ∈ e :: C, Equiv r e a := by
    intro a ha
    rcases List.mem_cons.mp ha with rfl | ha
    · exact equivalence_equiv.refl a
    · exact hC a ha
  have hchain : (e :: C).IsChain fun a b => decide (Equiv r a b) := by
    refine List.Pairwise.isChain (List.pairwise_of_forall_mem_list fun a ha b hb => ?_)
    simpa using equivalence_equiv.trans (equivalence_equiv.symm (hmem a ha)) (hmem b hb)
  have hsplit : e :: B = (e :: C) ++ B.dropWhile fun b => decide (Equiv r e b) := by
    rw [List.cons_append, List.takeWhile_append_dropWhile]
  cases hD : B.dropWhile fun b => decide (Equiv r e b) with
  | nil => rw [hsplit, hD, List.append_nil, List.splitBy_of_isChain (by simp) hchain,
      List.splitBy_nil]
  | cons d D =>
    -- the run ends at `d`, which is not equivalent to `e`, so not to the run's last element
    have hd : ¬Equiv r e d := by simpa using head_of_dropWhile_eq_cons hD
    rw [hsplit, hD, List.splitBy_append_cons, List.splitBy_of_isChain (by simp) hchain,
      List.singleton_append]
    intro x hx
    have hex : Equiv r e x := by
      rcases List.mem_cons.mp (List.mem_of_mem_getLast? hx) with rfl | hx'
      · exact equivalence_equiv.refl _
      · exact hC x hx'
    simpa using fun hxd => hd (equivalence_equiv.trans hex hxd)

/-- **The sweep keeps the head of each maximal run** of equivalent neighbours and drops the rest
of each run, in order. -/
theorem sweep_eq_runs (e : α) (B : List α) :
    e :: (sweep r e B).1 = runHeads r (e :: B) ∧ (sweep r e B).2 = runRest r (e :: B) := by
  induction hn : B.length using Nat.strong_induction_on generalizing e B with
  | _ n ih =>
    simp only [runHeads, runRest] at ih ⊢
    have hC : ∀ c ∈ B.takeWhile (fun b => decide (Equiv r e b)), Equiv r e c :=
      fun c hc => by simpa using List.mem_takeWhile_imp hc
    have hsw := sweep_append_equiv hC (B.dropWhile fun b => decide (Equiv r e b))
    rw [List.takeWhile_append_dropWhile] at hsw
    have hlen := congrArg List.length
      (List.takeWhile_append_dropWhile (p := fun b => decide (Equiv r e b)) (l := B))
    rw [runs_cons, List.flatMap_cons, List.flatMap_cons, hsw]
    generalize B.takeWhile (fun b => decide (Equiv r e b)) = C at hlen ⊢
    cases hD : B.dropWhile fun b => decide (Equiv r e b) with
    | nil => simp [sweep, runs]
    | cons d D =>
      have hd : ¬Equiv r e d := by simpa using head_of_dropWhile_eq_cons hD
      rw [hD, List.length_append, List.length_cons] at hlen
      obtain ⟨ih₁, ih₂⟩ := ih D.length (by omega) d D rfl
      simp only [sweep, hd, if_false, List.take_succ_cons, List.take_zero, List.drop_succ_cons,
        List.drop_zero, List.singleton_append, ← ih₁, ← ih₂, and_self]

theorem perm_runHeads_runRest (l : List α) : (runHeads r l ++ runRest r l).Perm l := by
  cases l with
  | nil => simp
  | cons e B =>
    rw [← (sweep_eq_runs e B).1, ← (sweep_eq_runs e B).2, List.cons_append]
    exact (sweep_perm e B).cons e

theorem Sorted.pairwise_runHeads {l : List α} (hs : Sorted r l) : (runHeads r l).Pairwise r := by
  cases l with
  | nil => simp
  | cons e B =>
    rw [← (sweep_eq_runs e B).1]
    exact hs.pairwise_sweep

end StrictWeak

theorem isStrictWeakOrder_key_gt {β : Type} [LinearOrder β] (key : α → β) :
    IsStrictWeakOrder α fun a b => decide (key a > key b) = true where
  irrefl a h := by simp at h
  trans a b c h₁ h₂ := by
    simp only [decide_eq_true_eq] at *
    exact lt_trans h₂ h₁
  incomp_trans a b c h₁ h₂ := by
    simp only [decide_eq_true_eq, not_lt] at *
    exact ⟨h₁.1.trans h₂.1, h₂.2.trans h₁.2⟩

end WeakOrder
