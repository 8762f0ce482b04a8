import Pintos.List.Wf

/-! # Moving runs of elements: `list_splice` and `list_reverse`

`list_splice` is an unlink of the run `[first, last)` (one join, `Chain.join_unlink`) followed by
a link of the run in front of `before` (two joins, `Chain.join_link`); `listSplice_eq` says that its
six writes are those three joins, whichever list the run and `before` are in. `list_reverse`
swaps the two links of every element (`swapAll`) and then rejoins the two headers to the old
last and first elements.
-/

namespace Pintos.KList
open LinkHeap
set_option autoImplicit false

variable {α : Type} {h g : Heap α} {l : DList α} {xs : List α}

theorem nodes_range (a t : α) (A R B : List α) :
    a :: (A ++ R ++ B ++ [t]) =
      (a :: A).dropLast ++ A.getLastD a :: (R ++ B.headD t :: (B ++ [t]).tail) := by
  calc a :: (A ++ R ++ B ++ [t]) = ((a :: A).dropLast ++ [A.getLastD a]) ++ R ++ (B ++ [t]) := by
        rw [dropLast_append_getLastD]; simp
    _ = _ := by rw [append_singleton_eq_cons t B]; simp

theorem perm_move (A R B C D : List α) (hCD : A ++ B = C ++ D) :
    (C ++ R ++ D).Perm (A ++ R ++ B) :=
  calc List.Perm (C ++ R ++ D) (R ++ (C ++ D)) := by
        rw [List.append_assoc]; exact List.perm_append_comm_assoc C R D
    List.Perm _ (R ++ (A ++ B)) := by rw [hCD]
    List.Perm _ (A ++ R ++ B) := by
        rw [List.append_assoc]; exact (List.perm_append_comm_assoc A R B).symm

theorem getLastD_append_of_getLast? {A R : List α} {a r : α} (hr : R.getLast? = some r) :
    (A ++ R).getLastD a = r := by
  simp [List.getLastD_eq_getLast?, List.getLast?_append, hr]

theorem headD_append_of_head? {R B : List α} {t y : α} (hy : R.head? = some y) :
    (R ++ B).headD t = y := by
  simp [List.headD_eq_head?_getD, List.head?_append, hy]

theorem interior_or_tail_of_prev {e p : α} (hp : (h e).prev = some p) :
    (isInterior h e || isTail h e) = true := by
  cases hn : (h e).next <;> simp [isInterior, isTail, hp, hn]

theorem listPrev_of_prev {e p : α} (hp : (h e).prev = some p) : listPrev h e = some p := by
  simp [listPrev, interior_or_tail_of_prev hp, hp]

theorem IsList.seam {C D : List α} (hl : IsList h l (C ++ D)) :
    Adj h (C.getLastD l.head) (D.headD l.tail) := by
  have hc := hl.2.2
  rw [nodes_split] at hc
  exact hc.adj_mid

theorem getLastD_mem_nodes (C D : List α) : C.getLastD l.head ∈ DList.nodes l (C ++ D) := by
  have hm : C.getLastD l.head ∈ l.head :: C := List.getLastD_mem_cons
  simp only [DList.nodes, List.mem_cons, List.mem_append] at hm ⊢
  tauto

theorem headD_mem_nodes (C D : List α) : D.headD l.tail ∈ DList.nodes l (C ++ D) := by
  cases D <;> simp [DList.nodes]

theorem nodes_subset_range (A R B : List α) :
    DList.nodes l (A ++ B) ⊆ DList.nodes l (A ++ R ++ B) := by
  intro u hu
  simp only [DList.nodes, List.mem_cons, List.mem_append] at hu ⊢
  tauto

theorem run_not_mem_nodes {A R B : List α} (hnd : (DList.nodes l (A ++ R ++ B)).Nodup) {u : α}
    (hu : u ∈ R) : u ∉ DList.nodes l (A ++ B) := by
  rw [DList.nodes, nodes_range] at hnd
  rw [DList.nodes, nodes_split]
  exact (nodup_seam hnd).2.2 u hu

section Edit
variable [DecidableEq α]

/-- **Unlinking a run**: joining the nodes on its two sides leaves a well-formed list without it,
and the run's own links as they were. -/
theorem IsList.unlinkRange {A R B : List α} (hl : IsList h l (A ++ R ++ B)) :
    IsList (h.join (A.getLastD l.head) (B.headD l.tail)) l (A ++ B) ∧
      Chain (h.join (A.getLastD l.head) (B.headD l.tail)) R := by
  have hnd := hl.nodup
  obtain ⟨hhd, htl, hc⟩ := hl
  have hhead : l.head ∈ (l.head :: A).dropLast ++ [A.getLastD l.head] := by
    rw [dropLast_append_getLastD]; exact List.mem_cons_self ..
  have htail : l.tail ∈ B.headD l.tail :: (B ++ [l.tail]).tail := by
    rw [← append_singleton_eq_cons]; simp
  rw [DList.nodes, nodes_range] at hnd
  rw [nodes_range] at hc
  refine ⟨⟨?_, ?_, ?_⟩, (hc.join_unlink hnd).2⟩
  · have hne : l.head ≠ B.headD l.tail := fun e =>
      (nodup_seam hnd).2.1 (by rw [← e]; simp only [List.mem_append, List.mem_cons] at hhead ⊢; tauto)
    simp only [Heap.join_prev, hne, if_false, hhd]
  · have hne : l.tail ≠ A.getLastD l.head := fun e =>
      (nodup_seam hnd).1 (by rw [← e]; simp only [List.mem_append, List.mem_cons] at htail ⊢; tauto)
    simp only [Heap.join_next, hne, if_false, htl]
  · rw [nodes_split]; exact (hc.join_unlink hnd).1

/-- **Linking a run** `R` in front of the first node of `D`, in a list that holds `C ++ D`. -/
theorem IsList.linkRange {C R D : List α} {first r : α} (hl : IsList g l (C ++ D))
    (hR : Chain g R) (hfirst : R.head? = some first) (hlast : R.getLast? = some r)
    (hnd : (DList.nodes l (C ++ R ++ D)).Nodup) :
    IsList ((g.join (C.getLastD l.head) first).join r (D.headD l.tail)) l (C ++ R ++ D) := by
  obtain ⟨hhd, htl, hc⟩ := hl
  rw [DList.nodes, nodes_range] at hnd
  rw [nodes_split] at hc
  obtain ⟨hq, hb, hout⟩ := nodup_seam hnd
  have hfR : first ∈ R := List.mem_of_mem_head? hfirst
  have hrR : r ∈ R := List.mem_of_getLast? hlast
  have hhead : l.head ∈ (l.head :: C).dropLast ++ [C.getLastD l.head] := by
    rw [dropLast_append_getLastD]; exact List.mem_cons_self ..
  have htail : l.tail ∈ D.headD l.tail :: (D ++ [l.tail]).tail := by
    rw [← append_singleton_eq_cons]; simp
  refine ⟨?_, ?_, ?_⟩
  · have hhf : l.head ≠ first := fun e => hout first hfR (by rw [← e]; simp only [List.mem_append, List.mem_cons] at hhead ⊢; tauto)
    have hhb : l.head ≠ D.headD l.tail := fun e => hb (by rw [← e]; simp only [List.mem_append, List.mem_cons] at hhead ⊢; tauto)
    simp only [Heap.join_prev, hhf, hhb, if_false, hhd]
  · have htq : l.tail ≠ C.getLastD l.head := fun e => hq (by rw [← e]; simp only [List.mem_append, List.mem_cons] at htail ⊢; tauto)
    have htr : l.tail ≠ r := fun e => hout r hrR (by rw [← e]; simp only [List.mem_append, List.mem_cons] at htail ⊢; tauto)
    simp only [Heap.join_next, htq, htr, if_false, htl]
  · rw [nodes_range]
    exact hc.join_link hR hfirst hlast hnd

/-- The six writes of `list_splice` are the three joins of an unlink and a link: the node `p`
before the run is joined to the node `n` after it, then the node `q` before `before` to the first
node of the run and its last node `r` to `before`. -/
theorem listSplice_eq {before first last p n q r : α}
    (hb : (isInterior h before || isTail h before) = true) (hfl : first ≠ last)
    (hr : listPrev h last = some r) (hfi : isInterior h first = true)
    (hri : isInterior h r = true) (hp : (h first).prev = some p) (hn : (h r).next = some n)
    (hq : (h.join p n before).prev = some q) (hbf : before ≠ first) (hqr : q ≠ r) :
    listSplice h before first last = some (((h.join p n).join q first).join r before) := by
  -- the second write reads `last->next` after the first one, which may have written it
  have hn' : ((h.setNext p (some n)) r).next = some n := by
    simp only [Heap.setNext_next, hn, ite_self]
  have hp' : ((h.setNext p (some n)) first).prev = some p := by simp [hp]
  have hq' : (((h.join p n).setPrev first (some q)).setNext r (some before) before).prev =
      some q := by
    simpa [hbf] using hq
  simp only [listSplice, hb, hfl, hr, hfi, hri, hp, hn, hn', hp', Bool.not_true, if_false,
    Bool.and_self, Option.bind_eq_bind, Option.bind_some, Option.pure_def]
  simp only [show (h.setNext p (some n)).setPrev n (some p) = h.join p n from rfl, hq, hq',
    Bool.false_eq_true, if_false, Option.bind_some, Option.some.injEq]
  apply Heap.ext_links
  · intro x
    simp
  · intro x
    by_cases hxq : x = q
    · subst hxq
      simp [hqr]
    · simp [hxq]

/-- `list_splice` of the run `R` of list `l`, in front of the first node of `D` in a list `l'`
that holds `C ++ D` once the run is unlinked: `l' = l` or another list. -/
theorem IsList.splice_core {l' : DList α} {A R B C D : List α} {first r : α}
    (hl : IsList h l (A ++ R ++ B)) (hfirst : R.head? = some first)
    (hlast : R.getLast? = some r)
    (hl' : IsList (h.join (A.getLastD l.head) (B.headD l.tail)) l' (C ++ D))
    (hnd : (DList.nodes l' (C ++ R ++ D)).Nodup) :
    listSplice h (D.headD l'.tail) first (B.headD l.tail) =
      some (((h.join (A.getLastD l.head) (B.headD l.tail)).join (C.getLastD l'.head) first).join
        r (D.headD l'.tail)) := by
  have hfR : first ∈ R := List.mem_of_mem_head? hfirst
  have hrR : r ∈ R := List.mem_of_getLast? hlast
  have hsrc := hl.nodup
  have hpf : Adj h (A.getLastD l.head) first := by
    have hs := (show IsList h l (A ++ (R ++ B)) by simpa using hl).seam
    rwa [headD_append_of_head? hfirst] at hs
  have hrn : Adj h r (B.headD l.tail) := by
    have hs := hl.seam (C := A ++ R)
    rwa [getLastD_append_of_getLast? hlast] at hs
  have hqb := hl'.seam
  have hout := fun u (hu : u ∈ R) => run_not_mem_nodes hnd hu
  have hbf : D.headD l'.tail ≠ first := fun e => hout first hfR (e ▸ headD_mem_nodes C D)
  have hqr : C.getLastD l'.head ≠ r := fun e => hout r hrR (e ▸ getLastD_mem_nodes C D)
  have hnf : first ≠ B.headD l.tail := fun e =>
    run_not_mem_nodes hsrc hfR (e ▸ headD_mem_nodes A B)
  have hb : (isInterior h (D.headD l'.tail) || isTail h (D.headD l'.tail)) = true := by
    by_cases hbn : D.headD l'.tail = B.headD l.tail
    · rw [hbn]; exact interior_or_tail_of_prev hrn.2
    · have hp := hqb.2
      simp only [Heap.join_prev, hbn, if_false] at hp
      exact interior_or_tail_of_prev hp
  exact listSplice_eq hb hnf (listPrev_of_prev hrn.2)
    (hl.interior_of_mem (by simp [hfR])) (hl.interior_of_mem (by simp [hrR])) hpf.2 hrn.1
    hqb.2 hbf hqr

/-- `list_splice` within one list: the run `R` moves in front of the first node of `D`, where
`C ++ D` is the rest of the list. -/
theorem IsList.spliceSelf {A R B C D : List α} {first : α} (hl : IsList h l (A ++ R ++ B))
    (hfirst : R.head? = some first) (hCD : A ++ B = C ++ D) :
    ∃ h', listSplice h (D.headD l.tail) first (B.headD l.tail) = some h' ∧
      IsList h' l (C ++ R ++ D) ∧ ∀ x ∉ DList.nodes l (A ++ R ++ B), h' x = h x := by
  obtain ⟨r, hlast⟩ : ∃ r, R.getLast? = some r := by
    cases hR : R.getLast? with
    | none => simp [List.getLast?_eq_none_iff.mp hR] at hfirst
    | some r => exact ⟨r, rfl⟩
  obtain ⟨hmid, hR⟩ := hl.unlinkRange
  rw [hCD] at hmid
  have hperm : (DList.nodes l (C ++ R ++ D)).Perm (DList.nodes l (A ++ R ++ B)) :=
    ((perm_move A R B C D hCD).append_right _).cons _
  have hnd := hperm.nodup_iff.mpr hl.nodup
  refine ⟨_, hl.splice_core hfirst hlast hmid hnd, hmid.linkRange hR hfirst hlast hnd, ?_⟩
  intro x hx
  have hsub : DList.nodes l (C ++ D) ⊆ DList.nodes l (A ++ R ++ B) :=
    fun u hu => nodes_subset_range A R B (hCD ▸ hu)
  have hfR : first ∈ R := List.mem_of_mem_head? hfirst
  have hrR : r ∈ R := List.mem_of_getLast? hlast
  have hR' : ∀ u ∈ R, u ∈ DList.nodes l (A ++ R ++ B) := fun u hu => by
    simp [DList.nodes, hu]
  rw [Heap.join_of_ne _ (ne_of_mem_of_not_mem (hR' r hrR) hx).symm
      (ne_of_mem_of_not_mem (hsub (headD_mem_nodes C D)) hx).symm,
    Heap.join_of_ne _ (ne_of_mem_of_not_mem (hsub (getLastD_mem_nodes C D)) hx).symm
      (ne_of_mem_of_not_mem (hR' first hfR) hx).symm,
    Heap.join_of_ne _ (ne_of_mem_of_not_mem (nodes_subset_range A R B (getLastD_mem_nodes A B)) hx).symm
      (ne_of_mem_of_not_mem (nodes_subset_range A R B (headD_mem_nodes A B)) hx).symm]

/-- `list_splice` from one list into another: the run `R` of `l₂` moves in front of the first node
of `D` in `l₁`. -/
theorem IsList.splice {l₁ l₂ : DList α} {A R B C D : List α} {first : α}
    (hl₁ : IsList h l₁ (C ++ D)) (hl₂ : IsList h l₂ (A ++ R ++ B))
    (hdisj : ∀ x ∈ DList.nodes l₁ (C ++ D), x ∉ DList.nodes l₂ (A ++ R ++ B))
    (hfirst : R.head? = some first) :
    ∃ h', listSplice h (D.headD l₁.tail) first (B.headD l₂.tail) = some h' ∧
      IsList h' l₁ (C ++ R ++ D) ∧ IsList h' l₂ (A ++ B) ∧
      ∀ x ∉ DList.nodes l₁ (C ++ D), x ∉ DList.nodes l₂ (A ++ R ++ B) → h' x = h x := by
  obtain ⟨r, hlast⟩ : ∃ r, R.getLast? = some r := by
    cases hR : R.getLast? with
    | none => simp [List.getLast?_eq_none_iff.mp hR] at hfirst
    | some r => exact ⟨r, rfl⟩
  have hfR : first ∈ R := List.mem_of_mem_head? hfirst
  have hrR : r ∈ R := List.mem_of_getLast? hlast
  have hR₂ : ∀ u ∈ R, u ∈ DList.nodes l₂ (A ++ R ++ B) := fun u hu => by
    simp [DList.nodes, hu]
  have hp₂ := nodes_subset_range A R B (getLastD_mem_nodes (l := l₂) A B)
  have hn₂ := nodes_subset_range A R B (headD_mem_nodes (l := l₂) A B)
  obtain ⟨hmid₂, hR⟩ := hl₂.unlinkRange
  have hmid₁ : IsList (h.join (A.getLastD l₂.head) (B.headD l₂.tail)) l₁ (C ++ D) :=
    hl₁.frame fun x hx =>
      Heap.join_of_ne h (ne_of_mem_of_not_mem hp₂ (hdisj x hx)).symm
        (ne_of_mem_of_not_mem hn₂ (hdisj x hx)).symm
  have hnd : (DList.nodes l₁ (C ++ R ++ D)).Nodup := by
    have h1 : (C ++ R ++ D).Perm (R ++ (C ++ D)) := by
      simpa using perm_move [] R (C ++ D) C D rfl
    have hperm : (DList.nodes l₁ (C ++ R ++ D)).Perm (R ++ DList.nodes l₁ (C ++ D)) :=
      calc List.Perm (DList.nodes l₁ (C ++ R ++ D)) (l₁.head :: (R ++ (C ++ D ++ [l₁.tail]))) := by
            simpa [DList.nodes] using (h1.append_right [l₁.tail]).cons l₁.head
        List.Perm _ (R ++ DList.nodes l₁ (C ++ D)) := List.perm_middle.symm
    refine hperm.nodup_iff.mpr (List.nodup_append.mpr ⟨?_, hl₁.nodup, ?_⟩)
    · refine hl₂.nodup.sublist ?_
      rw [DList.nodes, List.append_assoc, List.append_assoc]
      exact ((List.sublist_append_left R _).trans (List.sublist_append_right A _)).cons _
    · exact fun a ha b hb e => hdisj b hb (e ▸ hR₂ a ha)
  have hq₁ := getLastD_mem_nodes (l := l₁) C D
  have hb₁ := headD_mem_nodes (l := l₁) C D
  refine ⟨_, hl₂.splice_core hfirst hlast hmid₁ hnd, hmid₁.linkRange hR hfirst hlast hnd, ?_, ?_⟩
  · -- the link writes the run and nodes of `l₁` only
    refine hmid₂.frame fun x hx => ?_
    have hxR : ∀ u ∈ R, x ≠ u := fun u hu e => run_not_mem_nodes hl₂.nodup hu (e ▸ hx)
    have hx₁ : ∀ u ∈ DList.nodes l₁ (C ++ D), x ≠ u := fun u hu e =>
      hdisj u hu (e ▸ nodes_subset_range A R B hx)
    rw [Heap.join_of_ne _ (hxR r hrR) (hx₁ _ hb₁), Heap.join_of_ne _ (hx₁ _ hq₁) (hxR first hfR)]
  · intro x hx₁ hx₂
    rw [Heap.join_of_ne _ (ne_of_mem_of_not_mem (hR₂ r hrR) hx₂).symm
        (ne_of_mem_of_not_mem hb₁ hx₁).symm,
      Heap.join_of_ne _ (ne_of_mem_of_not_mem hq₁ hx₁).symm
        (ne_of_mem_of_not_mem (hR₂ first hfR) hx₂).symm,
      Heap.join_of_ne _ (ne_of_mem_of_not_mem hp₂ hx₂).symm (ne_of_mem_of_not_mem hn₂ hx₂).symm]

/-! ## Reversal -/

/-- The heap after the loop of `list_reverse` has swapped the two links of each node of `ys`. -/
def swapAll (h : Heap α) (ys : List α) : Heap α := ys.foldl swapLinks h

theorem swapLinks_apply (e x : α) :
    swapLinks h e x = if x = e then ⟨(h e).next, (h e).prev⟩ else h x := by
  by_cases hx : x = e
  · subst hx
    simp [swapLinks, Heap.setNext, Heap.setPrev]
  · rw [if_neg hx, swapLinks, Heap.setNext_of_ne _ _ hx, Heap.setPrev_of_ne _ _ hx]

theorem swapAll_apply : ∀ {ys : List α} {h : Heap α}, ys.Nodup → ∀ x,
    swapAll h ys x = if x ∈ ys then (h.flip x) else h x
  | [], _, _, x => by simp [swapAll]
  | y :: ys, h, hnd, x => by
    obtain ⟨hy, hnd'⟩ := List.nodup_cons.mp hnd
    have ih := swapAll_apply (h := swapLinks h y) hnd' x
    simp only [swapAll, List.foldl_cons] at ih ⊢
    rw [ih]
    by_cases hxy : x = y
    · subst hxy
      simp [hy, swapLinks_apply, Heap.flip]
    · by_cases hx : x ∈ ys
      · simp [hx, swapLinks_apply, hxy, Heap.flip]
      · simp [hx, swapLinks_apply, hxy]

/-- The loop of `list_reverse` over the elements `ys`, in front of the tail `tl`. Each swap makes the
old `next` the new `prev`, so the loop steps forward along the old links. -/
theorem reverseFrom_eq {tl : α} : ∀ {ys : List α} {g : Heap α} {fuel : Nat},
    Chain g (ys ++ [tl]) → (ys ++ [tl]).Nodup → ys.length < fuel →
      reverseFrom g tl fuel (some (ys.headD tl)) = some (swapAll g ys)
  | [], _, 0, _, _, hf => by simp at hf
  | [], g, fuel + 1, _, _, _ => by simp [reverseFrom, swapAll]
  | _ :: _, _, 0, _, _, hf => by simp at hf
  | y :: ys, g, fuel + 1, hc, hnd, hf => by
    obtain ⟨hy, hnd'⟩ := List.nodup_cons.mp hnd
    have hyt : y ≠ tl := fun e => hy (by simp [e])
    have hnext : (g y).next = some (ys.headD tl) := by
      rw [hc.next_eq_head (by simp)]
      cases ys <;> rfl
    have hrest : Chain g (ys ++ [tl]) := (List.isChain_cons.mp hc).2
    have hc' : Chain (swapLinks g y) (ys ++ [tl]) := hrest.frame_of_agree fun x hx => by
      rw [swapLinks_apply, if_neg (ne_of_mem_of_not_mem hx hy)]
    have ih := reverseFrom_eq hc' hnd' (by simp at hf; omega)
    simp only [reverseFrom, List.headD_cons, Option.some.injEq, hyt, if_false,
      Option.bind_eq_bind, Option.bind_some]
    rw [swapLinks_apply, if_pos rfl]
    simpa [hnext, swapAll] using ih

theorem reverseFrom_mono {tl : α} : ∀ {n m : Nat} {g g' : Heap α} {e : Option α},
    reverseFrom g tl n e = some g' → n ≤ m → reverseFrom g tl m e = some g'
  | 0, _, _, _, _, hrun, _ => by simp [reverseFrom] at hrun
  | _ + 1, 0, _, _, _, _, hnm => by omega
  | n + 1, m + 1, g, g', e, hrun, hnm => by
    by_cases he : e = some tl
    · simpa [reverseFrom, he] using hrun
    · simp only [reverseFrom, he, if_false, Option.bind_eq_bind] at hrun ⊢
      obtain ⟨x, hx, hrun⟩ := Option.bind_eq_some_iff.mp hrun
      rw [hx, Option.bind_some]
      exact reverseFrom_mono hrun (by omega)

theorem listReverse_mono {n m : Nat} {h' : Heap α} (hrun : listReverse h l n = some h')
    (hnm : n ≤ m) : listReverse h l m = some h' := by
  unfold listReverse at hrun ⊢
  split
  · simpa [*] using hrun
  · rename_i hne
    simp only [hne, Bool.false_eq_true, if_false, Option.bind_eq_bind] at hrun ⊢
    obtain ⟨g, hg, hrun⟩ := Option.bind_eq_some_iff.mp hrun
    rw [reverseFrom_mono hg hnm, Option.bind_some]
    exact hrun

/-- **`list_reverse`**: the list holds the reversed sequence, and no node outside it is written. -/
theorem IsList.reverse (hl : IsList h l xs) {fuel : Nat} (hf : xs.length < fuel) :
    ∃ h', listReverse h l fuel = some h' ∧ IsList h' l xs.reverse ∧
      ∀ x ∉ DList.nodes l xs, h' x = h x := by
  by_cases hxs : xs = []
  · subst hxs
    exact ⟨h, by simp [listReverse, (hl.empty_iff).mpr rfl], hl, fun _ _ => rfl⟩
  obtain ⟨x1, hx1⟩ : ∃ x1, xs.head? = some x1 := ⟨_, List.head?_eq_some_head hxs⟩
  obtain ⟨xn, hxn⟩ : ∃ xn, xs.getLast? = some xn := ⟨_, List.getLast?_eq_some_getLast hxs⟩
  have hne : listEmpty h l = false := by simpa using (hl.empty_iff).not.mpr hxs
  have hnd := hl.nodup
  have htx := hl.tail_not_mem
  have hhx := hl.head_not_mem
  have hx1m : x1 ∈ xs := List.mem_of_mem_head? hx1
  have hxnm : xn ∈ xs := List.mem_of_getLast? hxn
  have hhx1 : l.head ≠ x1 := fun e => hhx.1 (e ▸ hx1m)
  have hhxn : l.head ≠ xn := fun e => hhx.1 (e ▸ hxnm)
  have htx1 : l.tail ≠ x1 := fun e => htx (e ▸ hx1m)
  have htxn : l.tail ≠ xn := fun e => htx (e ▸ hxnm)
  have hfront : Adj h l.head x1 := by
    have hs := (show IsList h l ([] ++ xs) from hl).seam
    rwa [List.headD_eq_head?_getD, hx1, Option.getD_some] at hs
  have hback : Adj h xn l.tail := by
    have hs := (show IsList h l (xs ++ []) by simpa using hl).seam
    rwa [List.getLastD_eq_getLast?, hxn, Option.getD_some] at hs
  set hs := swapAll h xs with hsdef
  have hsw := swapAll_apply (h := h) (hnd.sublist (by simp [DList.nodes]) : xs.Nodup)
  have hloop : reverseFrom h l.tail fuel (listBegin h l) = some hs := by
    rw [hl.begin_eq]
    exact reverseFrom_eq (List.isChain_cons.mp hl.2.2).2 (List.nodup_cons.mp hnd).2 hf
  have hs_tail : hs l.tail = h l.tail := by rw [hsw, if_neg htx]
  have hs_head : hs l.head = h l.head := by rw [hsw, if_neg hhx.1]
  have hs_xn : (hs xn).prev = some l.tail := by rw [hsw, if_pos hxnm]; exact hback.1
  have hs_x1 : (hs x1).next = some l.head := by rw [hsw, if_pos hx1m]; exact hfront.2
  have hrun : listReverse h l fuel = some ((hs.join l.head xn).join x1 l.tail) := by
    simp only [listReverse, hne, hloop, Bool.false_eq_true, if_false, Option.bind_eq_bind,
      Option.bind_some, hs_tail, hs_head, hback.2, hfront.1]
    simp [Ne.symm htxn, Ne.symm hhx1, hs_xn, hs_x1]
    apply Heap.ext_links
    · intro v
      by_cases hv : v = l.tail
      · subst hv; simp [htxn]
      · simp [hv]
    · intro v
      simp
  refine ⟨_, hrun, ⟨?_, ?_, ?_⟩, ?_⟩
  · simp [hl.1, hs_head, hhx.2, hhxn]
  · simp [hl.2.1, hs_tail, htx1, hhx.2.symm]
  · -- the swapped elements read as the reversed chain of the old heap
    have hrev : Chain hs xs.reverse := by
      have hxs : Chain h xs := List.IsChain.infix hl.2.2 ⟨[l.head], [l.tail], by simp⟩
      refine (chain_flip_reverse.mpr hxs).frame_of_agree fun v hv => ?_
      rw [hsw, if_pos (List.mem_reverse.mp hv)]
    have hperm : (l.head :: (xs.reverse ++ [l.tail])).Perm (DList.nodes l xs) :=
      ((List.reverse_perm xs).append_right _).cons _
    exact hrev.join_wrap (by rwa [List.head?_reverse]) (by rwa [List.getLast?_reverse])
      (hperm.nodup_iff.mpr hnd)
  · intro x hx
    simp only [DList.nodes, List.mem_cons, List.mem_append, not_or] at hx
    obtain ⟨hxh, hxm, hxt, -⟩ := hx
    rw [Heap.join_of_ne _ (fun (e : x = x1) => hxm (e ▸ hx1m)) hxt,
      Heap.join_of_ne _ hxh (fun (e : x = xn) => hxm (e ▸ hxnm)), hsw, if_neg hxm]

end Edit

end Pintos.KList
