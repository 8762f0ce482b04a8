import Pintos.List.Model

/-! # Well-formed lists: the two traversals and the one-element edits

What `IsList h l xs` gives the functions of `list.c` that add or remove one element.

* `IsList.nodup`: no node occurs twice, headers included; it follows from the null `tail.next`
  and is never carried as a separate invariant.
* `IsList.forward_eq`, `IsList.backward_eq`: with more fuel than elements, the forward iteration
  visits `xs` and the backward one `xs.reverse`; `forward_mono` and `backward_mono` say that more
  fuel changes nothing once a walk has ended.
* `IsList.insert`, `IsList.remove` and the push and pop functions built on them: the list in the
  new heap is the old sequence with the element added or removed, and no node outside the list
  and the element is written, so every list disjoint from both is kept (`IsList.frame`).
-/

namespace Pintos.KList
open LinkHeap
set_option autoImplicit false

variable {α : Type} {h h' : Heap α} {l : DList α} {xs : List α}

/-- The nodes a list is made of: its header, its elements, its tail. -/
def DList.nodes (l : DList α) (xs : List α) : List α := l.head :: (xs ++ [l.tail])

/-- The same list read from the other end. -/
def DList.flip (l : DList α) : DList α := ⟨l.tail, l.head⟩

theorem dropLast_append_getLastD (a : α) (A : List α) :
    (a :: A).dropLast ++ [A.getLastD a] = a :: A := by
  rw [← List.getLast_eq_getLastD (List.cons_ne_nil a A)]
  exact List.dropLast_append_getLast (List.cons_ne_nil a A)

theorem append_singleton_eq_cons (t : α) (B : List α) : B ++ [t] = B.headD t :: (B ++ [t]).tail := by
  cases B <;> rfl

theorem nodes_split (a t : α) (A B : List α) :
    a :: (A ++ B ++ [t]) = (a :: A).dropLast ++ A.getLastD a :: B.headD t :: (B ++ [t]).tail := by
  calc a :: (A ++ B ++ [t]) = ((a :: A).dropLast ++ [A.getLastD a]) ++ (B ++ [t]) := by
        rw [dropLast_append_getLastD]; simp
    _ = _ := by rw [append_singleton_eq_cons t B]; simp

theorem not_mem_of_nodup_middle {P Q : List α} {x : α} (hnd : (P ++ x :: Q).Nodup) :
    x ∉ P ++ Q :=
  (List.nodup_cons.mp (List.nodup_middle.mp hnd)).1

/-! ## Consequences of the invariant -/

section Basic
variable (hl : IsList h l xs)
include hl

theorem IsList.nodup : (DList.nodes l xs).Nodup :=
  Chain.nodup_of_next_none hl.2.1 hl.2.2 (by
    rw [DList.nodes, show l.head :: (xs ++ [l.tail]) = (l.head :: xs) ++ [l.tail] by simp,
      List.getLast?_concat])

theorem IsList.tail_not_mem : l.tail ∉ xs := by
  have := hl.nodup
  simp only [DList.nodes, List.nodup_cons, List.nodup_append] at this
  exact fun hm => this.2.2.2 l.tail hm l.tail (by simp) rfl

theorem IsList.head_not_mem : l.head ∉ xs ∧ l.head ≠ l.tail := by
  have := (List.nodup_cons.mp hl.nodup).1
  simp only [List.mem_append, List.mem_singleton, not_or] at this
  exact this

theorem IsList.interior_of_mem {x : α} (hx : x ∈ xs) : isInterior h x = true := by
  have hp := hl.2.2.prev_ne_none x (by simp [hx])
  have hn := hl.2.2.next_ne_none x (by
    rw [show l.head :: (xs ++ [l.tail]) = (l.head :: xs) ++ [l.tail] by simp,
      List.dropLast_concat]
    exact List.mem_cons_of_mem _ hx)
  simp [isInterior, Option.isSome_iff_ne_none, hp, hn]

theorem IsList.begin_eq : listBegin h l = some (xs.headD l.tail) := by
  rw [listBegin, hl.2.2.next_eq_head (by simp)]
  cases xs <;> rfl

theorem IsList.empty_iff [DecidableEq α] : listEmpty h l = true ↔ xs = [] := by
  have hb := hl.begin_eq
  simp only [listBegin] at hb
  simp only [listEmpty, hb, beq_iff_eq, Option.some.injEq]
  cases xs with
  | nil => simp
  | cons x xs =>
    have hx : x ≠ l.tail := fun e => hl.tail_not_mem (e ▸ List.mem_cons_self ..)
    simp [hx]

end Basic

theorem IsList.frame (hl : IsList h l xs) (hs : ∀ x ∈ DList.nodes l xs, h' x = h x) :
    IsList h' l xs := by
  obtain ⟨hhd, htl, hc⟩ := hl
  refine ⟨?_, ?_, hc.frame_of_agree hs⟩
  · rw [hs l.head (by simp [DList.nodes]), hhd]
  · rw [hs l.tail (by simp [DList.nodes]), htl]

/-! ## The two traversals

Reading a heap backwards is reading its flip forwards, so every fact about the backward walk comes
from the forward one. -/

theorem isHead_flip (e : α) : isHead h.flip e = isTail h e := by
  simp [isHead, isTail, Bool.and_comm]

theorem isInterior_flip (e : α) : isInterior h.flip e = isInterior h e := by
  simp [isInterior, Bool.and_comm]

theorem listPrev_eq_listNext_flip (e : α) : listPrev h e = listNext h.flip e := by
  simp [listPrev, listNext, isHead_flip, isInterior_flip, Bool.or_comm]

theorem isList_flip_iff : IsList h.flip l.flip xs.reverse ↔ IsList h l xs := by
  have hrev : l.tail :: (xs.reverse ++ [l.head]) = (l.head :: (xs ++ [l.tail])).reverse := by simp
  simp only [IsList, DList.flip, Heap.flip_prev, Heap.flip_next, hrev, chain_flip_reverse]
  tauto

theorem IsList.rbegin_eq (hl : IsList h l xs) : listRbegin h l = some (xs.getLastD l.head) := by
  have hb := (isList_flip_iff.mpr hl).begin_eq
  simp only [listBegin, DList.flip, Heap.flip_next] at hb
  rw [listRbegin, hb]
  induction xs using List.reverseRecOn <;> simp

section Traversal
variable [DecidableEq α]

theorem forwardFrom_of_chain {tl p : α} : ∀ {ys : List α} {fuel : Nat},
    Chain h (p :: (ys ++ [tl])) → tl ∉ ys → ys.length < fuel →
      forwardFrom h tl fuel (ys.headD tl) = some ys
  | [], 0, _, _, hlen => by simp at hlen
  | [], _ + 1, _, _, _ => by simp [forwardFrom]
  | _ :: _, 0, _, _, hlen => by simp at hlen
  | y :: ys, fuel + 1, hc, htl, hlen => by
    obtain ⟨⟨_, hyp⟩, hrest⟩ := chain_cons_cons.mp hc
    have hyn : (h y).next = some (ys.headD tl) := by
      rw [hrest.next_eq_head (by simp)]
      cases ys <;> rfl
    have hnext : listNext h y = some (ys.headD tl) := by
      simp [listNext, isInterior, hyp, hyn]
    have hy : y ≠ tl := fun e => htl (e ▸ List.mem_cons_self ..)
    have ih : forwardFrom h tl fuel (ys.headD tl) = some ys :=
      forwardFrom_of_chain hrest (fun hm => htl (List.mem_cons_of_mem y hm))
        (by simp only [List.length_cons] at hlen; omega)
    rw [List.headD_cons, forwardFrom, if_neg hy, hnext]
    simp only [Option.pure_def, Option.bind_eq_bind, Option.bind_some, ih]

theorem IsList.forward_eq (hl : IsList h l xs) {fuel : Nat} (hf : xs.length < fuel) :
    forward h l fuel = some xs := by
  rw [forward, hl.begin_eq]
  exact forwardFrom_of_chain hl.2.2 hl.tail_not_mem hf

theorem forwardFrom_mono {tl : α} : ∀ {n m : Nat} {e : α} {ys : List α},
    forwardFrom h tl n e = some ys → n ≤ m → forwardFrom h tl m e = some ys
  | 0, _, _, _, hf, _ => by simp [forwardFrom] at hf
  | _ + 1, 0, _, _, _, hnm => by omega
  | n + 1, m + 1, e, ys, hf, hnm => by
    by_cases he : e = tl
    · simpa [forwardFrom, he] using hf
    · simp only [forwardFrom, he, if_false] at hf ⊢
      obtain ⟨e', hn, hr⟩ := Option.bind_eq_some_iff.mp hf
      obtain ⟨rest, hrest, hys⟩ := Option.bind_eq_some_iff.mp hr
      have hm : forwardFrom h tl m e' = some rest := forwardFrom_mono hrest (by omega)
      rw [hn]
      simp only [Option.pure_def, Option.bind_eq_bind, Option.bind_some, hm]
      simpa using hys

theorem forward_mono {n m : Nat} {ys : List α} (hf : forward h l n = some ys) (hnm : n ≤ m) :
    forward h l m = some ys := by
  obtain ⟨b, hb, hw⟩ := Option.bind_eq_some_iff.mp hf
  exact Option.bind_eq_some_iff.mpr ⟨b, hb, forwardFrom_mono hw hnm⟩

theorem backwardFrom_eq_forwardFrom (hd : α) :
    ∀ (n : Nat) (e : α), backwardFrom h hd n e = forwardFrom h.flip hd n e
  | 0, _ => rfl
  | n + 1, e => by
    simp [backwardFrom, forwardFrom, listPrev_eq_listNext_flip, backwardFrom_eq_forwardFrom hd n]

theorem backward_eq_forward_flip (n : Nat) : backward h l n = forward h.flip l.flip n := by
  simp [backward, forward, listRbegin, listBegin, DList.flip, backwardFrom_eq_forwardFrom]

theorem IsList.backward_eq (hl : IsList h l xs) {fuel : Nat} (hf : xs.length < fuel) :
    backward h l fuel = some xs.reverse := by
  rw [backward_eq_forward_flip]
  exact (isList_flip_iff.mpr hl).forward_eq (by simpa using hf)

theorem backward_mono {n m : Nat} {ys : List α} (hf : backward h l n = some ys) (hnm : n ≤ m) :
    backward h l m = some ys := by
  rw [backward_eq_forward_flip] at hf ⊢
  exact forward_mono hf hnm

theorem IsList.walks_agree (hl : IsList h l xs) {n m : Nat} {ys zs : List α}
    (hf : forward h l n = some ys) (hb : backward h l m = some zs) : zs = ys.reverse := by
  have hf' := forward_mono hf (show n ≤ n + m + xs.length + 1 by omega)
  have hb' := backward_mono hb (show m ≤ n + m + xs.length + 1 by omega)
  rw [hl.forward_eq (by omega), Option.some.injEq] at hf'
  rw [hl.backward_eq (by omega), Option.some.injEq] at hb'
  rw [← hf', ← hb']

end Traversal

/-! ## Adding and removing one element -/

section Edit
variable [DecidableEq α]

theorem listInit_isList (hne : l.head ≠ l.tail) : IsList (listInit h l) l [] := by
  refine ⟨?_, ?_, ?_⟩
  · simp [listInit, hne]
  · simp [listInit]
  · simp [listInit, Adj, hne]

theorem listInit_of_ne {x : α} (hhd : x ≠ l.head) (htl : x ≠ l.tail) : listInit h l x = h x := by
  simp only [listInit]
  rw [Heap.setNext_of_ne _ _ htl, Heap.setPrev_of_ne _ _ htl, Heap.setNext_of_ne _ _ hhd,
    Heap.setPrev_of_ne _ _ hhd]

theorem IsList.insert {A B : List α} {e : α} (hl : IsList h l (A ++ B))
    (he : e ∉ DList.nodes l (A ++ B)) :
    ∃ h', listInsert h (B.headD l.tail) e = some h' ∧ IsList h' l (A ++ e :: B) ∧
      ∀ x ∉ DList.nodes l (A ++ B), x ≠ e → h' x = h x := by
  have hnd := hl.nodup
  obtain ⟨hhd, htl, hc⟩ := hl
  have hsplit := nodes_split l.head l.tail A B
  set P := (l.head :: A).dropLast
  set p := A.getLastD l.head
  set b := B.headD l.tail
  set Q := (B ++ [l.tail]).tail
  rw [DList.nodes, hsplit] at hnd he
  rw [hsplit] at hc
  have hp : p ∉ P ++ b :: Q := not_mem_of_nodup_middle hnd
  have hb : b ∉ (P ++ [p]) ++ Q := not_mem_of_nodup_middle (by simpa using hnd)
  have hep : e ≠ p := fun h => he (by simp [h])
  have heb : e ≠ b := fun h => he (by simp [h])
  have hbp : (h b).prev = some p := hc.adj_mid.2
  have hins : (isInterior h b || isTail h b) = true := by
    cases hn : (h b).next <;> simp [isInterior, isTail, hbp, hn]
  set h' := (((h.setPrev e (some p)).setNext e (some b)).setNext p (some e)).setPrev b (some e)
  have hframe : ∀ x, x ≠ p → x ≠ b → x ≠ e → h' x = h x := fun x hxp hxb hxe => by
    simp only [h']
    rw [Heap.setPrev_of_ne _ _ hxb, Heap.setNext_of_ne _ _ hxp, Heap.setNext_of_ne _ _ hxe,
      Heap.setPrev_of_ne _ _ hxe]
  have hsub1 : P ++ b :: Q ⊆ P ++ p :: b :: Q := fun v hv => by
    simp only [List.mem_append, List.mem_cons] at hv ⊢; tauto
  have hsub2 : P ++ p :: Q ⊆ P ++ p :: b :: Q := fun v hv => by
    simp only [List.mem_append, List.mem_cons] at hv ⊢; tauto
  have hc' : Chain h' (P ++ p :: ([e] ++ b :: Q)) := by
    refine hc.link (List.isChain_singleton e) rfl rfl ?_ ?_ ?_ ?_ ?_ ?_
    · simp [h']
    · simp [h', heb]
    · simp [h', hep]
    · simp [h']
    · intro v hv
      simp [h', ne_of_mem_of_not_mem hv hp, ne_of_mem_of_not_mem (hsub1 hv) he]
    · intro v hv
      have hvb : v ≠ b := ne_of_mem_of_not_mem (by simpa using hv) hb
      simp [h', hvb, ne_of_mem_of_not_mem (hsub2 hv) he]
  have hhead : l.head ∈ P ++ [p] := by
    rw [dropLast_append_getLastD]; exact List.mem_cons_self ..
  have htail : l.tail ∈ b :: Q := by
    rw [← append_singleton_eq_cons]; simp
  refine ⟨h', by simp [listInsert, hins, hbp, h'], ⟨?_, ?_, ?_⟩, ?_⟩
  · have hhb : l.head ≠ b := ne_of_mem_of_not_mem (List.mem_append_left _ hhead) hb
    have hhe : l.head ≠ e := ne_of_mem_of_not_mem (by simp at hhead ⊢; tauto) he
    simp [h', hhb, hhe, hhd]
  · have htp : l.tail ≠ p := ne_of_mem_of_not_mem (by simp at htail ⊢; tauto) hp
    have hte : l.tail ≠ e := ne_of_mem_of_not_mem (hsub1 (by simp at htail ⊢; tauto)) he
    simp [h', htp, hte, htl]
  · rw [(append_singleton_eq_cons l.tail B).symm] at hc'
    rw [nodes_split l.head l.tail A (e :: B)]
    exact hc'
  · intro x hx hxe
    refine hframe x (fun hxp => hx ?_) (fun hxb => hx ?_) hxe
    · rw [hxp, DList.nodes, hsplit]; simp
    · rw [hxb, DList.nodes, hsplit]; simp

/-- `list_remove` of an element `e` of a list that holds `A ++ e :: B`; it returns the node that
followed `e`. -/
theorem IsList.remove {A B : List α} {e : α} (hl : IsList h l (A ++ e :: B)) :
    ∃ h', listRemove h e = some (h', B.headD l.tail) ∧ IsList h' l (A ++ B) ∧
      ∀ x ∉ DList.nodes l (A ++ B), h' x = h x := by
  have hnd := hl.nodup
  have hint := hl.interior_of_mem (List.mem_append_right A (List.mem_cons_self ..))
  obtain ⟨hhd, htl, hc⟩ := hl
  have hsplit := nodes_split l.head l.tail A B
  set P := (l.head :: A).dropLast
  set p := A.getLastD l.head
  set n := B.headD l.tail
  set Q := (B ++ [l.tail]).tail
  have hbQ : B ++ [l.tail] = n :: Q := append_singleton_eq_cons l.tail B
  have hnodes : DList.nodes l (A ++ e :: B) = P ++ p :: ([e] ++ n :: Q) := by
    rw [DList.nodes, nodes_split l.head l.tail A (e :: B), ← hbQ]
    rfl
  rw [hnodes] at hnd
  rw [DList.nodes] at hnodes
  rw [hnodes] at hc
  have hp : p ∉ P ++ e :: n :: Q := not_mem_of_nodup_middle hnd
  have hn : n ∉ (P ++ [p, e]) ++ Q := not_mem_of_nodup_middle (by simpa using hnd)
  have hep : (h e).prev = some p := (show Chain h (P ++ p :: e :: n :: Q) from hc).adj_mid.2
  have hen : (h e).next = some n := (show Chain h ((P ++ [p]) ++ e :: n :: Q) by simpa using hc).adj_mid.1
  set h' := (h.setNext p (some n)).setPrev n (some p)
  have hframe : ∀ x, x ≠ p → x ≠ n → h' x = h x := fun x hxp hxn => by
    simp only [h']
    rw [Heap.setPrev_of_ne _ _ hxn, Heap.setNext_of_ne _ _ hxp]
  have hhead : l.head ∈ P ++ [p] := by
    rw [dropLast_append_getLastD]; exact List.mem_cons_self ..
  have htail : l.tail ∈ n :: Q := by rw [← hbQ]; simp
  refine ⟨h', by simp [listRemove, hint, hep, hen, h'], ⟨?_, ?_, ?_⟩, ?_⟩
  · have hhn : l.head ≠ n := ne_of_mem_of_not_mem (by simp at hhead ⊢; tauto) hn
    simp [h', hhn, hhd]
  · have htp : l.tail ≠ p := ne_of_mem_of_not_mem (by simp at htail ⊢; tauto) hp
    simp [h', htp, htl]
  · rw [hsplit]
    refine hc.unlink (by simp [h']) (by simp [h']) ?_ ?_
    · intro v hv
      have hvp : v ≠ p := ne_of_mem_of_not_mem (by simp at hv ⊢; tauto) hp
      simp [h', hvp]
    · intro v hv
      have hvn : v ≠ n := ne_of_mem_of_not_mem (by simp at hv ⊢; tauto) hn
      simp [h', hvn]
  · intro x hx
    refine hframe x (fun hxp => hx ?_) (fun hxn => hx ?_)
    · rw [hxp, DList.nodes, hsplit]; simp
    · rw [hxn, DList.nodes, hsplit]; simp

theorem IsList.pushFront {e : α} (hl : IsList h l xs) (he : e ∉ DList.nodes l xs) :
    ∃ h', listPushFront h l e = some h' ∧ IsList h' l (e :: xs) ∧
      ∀ x ∉ DList.nodes l xs, x ≠ e → h' x = h x := by
  obtain ⟨h', hins, hl', hfr⟩ := IsList.insert (show IsList h l ([] ++ xs) from hl) he
  exact ⟨h', by simpa [listPushFront, hl.begin_eq] using hins, hl', hfr⟩

theorem IsList.pushBack {e : α} (hl : IsList h l xs) (he : e ∉ DList.nodes l xs) :
    ∃ h', listPushBack h l e = some h' ∧ IsList h' l (xs ++ [e]) ∧
      ∀ x ∉ DList.nodes l xs, x ≠ e → h' x = h x := by
  obtain ⟨h', hins, hl', hfr⟩ :=
    IsList.insert (show IsList h l (xs ++ []) by simpa using hl) (by simpa using he)
  exact ⟨h', hins, hl', fun x hx => hfr x (by simpa using hx)⟩

theorem IsList.popFront {x : α} {ys : List α} (hl : IsList h l (x :: ys)) :
    ∃ h', listPopFront h l = some (h', x) ∧ IsList h' l ys ∧
      ∀ y ∉ DList.nodes l (x :: ys), h' y = h y := by
  have hne : listEmpty h l = false := by simpa using hl.empty_iff.not.mpr (List.cons_ne_nil x ys)
  have hfront : listFront h l = some x := by
    simpa [listFront, listBegin, hne] using hl.begin_eq
  obtain ⟨h', hrem, hl', hfr⟩ := IsList.remove (show IsList h l ([] ++ x :: ys) from hl)
  refine ⟨h', by simp [listPopFront, hfront, hrem], hl', fun y hy => hfr y ?_⟩
  simp only [DList.nodes, List.mem_cons, List.mem_append, List.nil_append] at hy ⊢
  tauto

theorem IsList.popBack {x : α} {ys : List α} (hl : IsList h l (ys ++ [x])) :
    ∃ h', listPopBack h l = some (h', x) ∧ IsList h' l ys ∧
      ∀ y ∉ DList.nodes l (ys ++ [x]), h' y = h y := by
  have hne : listEmpty h l = false := by simpa using hl.empty_iff.not.mpr (by simp)
  have hback : listBack h l = some x := by
    simpa [listBack, listRbegin, hne] using hl.rbegin_eq
  obtain ⟨h', hrem, hl', hfr⟩ := IsList.remove hl
  refine ⟨h', by simp [listPopBack, hback, hrem], by simpa using hl', fun y hy => hfr y ?_⟩
  simp only [DList.nodes, List.mem_cons, List.mem_append, List.append_nil] at hy ⊢
  tauto

end Edit

end Pintos.KList
