import Mathlib.Data.List.Chain
import Mathlib.Data.List.Nodup
import Mathlib.Algebra.Ring.Nat
import Mathlib.Algebra.Ring.Int.Defs

/-! # Heaps of link cells and the chains they thread

The generic layer under an intrusive doubly linked list: a heap gives every node a `prev` and a
`next` pointer (`none` is the null pointer), and `Chain h l` says that consecutive nodes of `l`
are linked both ways. Nothing here names a particular program.

* `Heap.setPrev`/`Heap.setNext`: one pointer field of one node written; their four read-back
  lemmas are the simp set of every pointer program built on them.
* `Chain.frame`: a chain reads only the `next` of all but its last node and the `prev` of all
  but its first, so a write anywhere else keeps it.
* `Chain.nodup_of_next_none`: a chain whose last node has a null `next` visits no node twice,
  so distinctness never has to be carried as an extra invariant.
* `Heap.flip` exchanges the two directions: a chain of `h` is a reversed chain of `h.flip`,
  which turns every backward walk into a forward one.
-/

namespace LinkHeap
set_option autoImplicit false

/-- One node's two pointer fields. -/
structure Link (α : Type) where
  prev : Option α
  next : Option α
deriving DecidableEq, Repr

/-- A heap of link cells, one per node. It is a structure rather than a bare function so that a
write is evaluated once, when it is made, and not again at every later read. -/
structure Heap (α : Type) where
  link : α → Link α

variable {α : Type}

instance : CoeFun (Heap α) (fun _ => α → Link α) := ⟨Heap.link⟩

namespace Heap

section Update
variable [DecidableEq α]

/-- Write node `x`'s `prev` field. -/
def setPrev (h : Heap α) (x : α) (v : Option α) : Heap α :=
  ⟨Function.update h x { h x with prev := v }⟩

/-- Write node `x`'s `next` field. -/
def setNext (h : Heap α) (x : α) (v : Option α) : Heap α :=
  ⟨Function.update h x { h x with next := v }⟩

@[simp] theorem setPrev_prev (h : Heap α) (x y : α) (v : Option α) :
    (h.setPrev x v y).prev = if y = x then v else (h y).prev := by
  by_cases hy : y = x
  · subst hy; simp [setPrev]
  · simp [setPrev, hy]

@[simp] theorem setPrev_next (h : Heap α) (x y : α) (v : Option α) :
    (h.setPrev x v y).next = (h y).next := by
  by_cases hy : y = x
  · subst hy; simp [setPrev]
  · simp [setPrev, hy]

@[simp] theorem setNext_next (h : Heap α) (x y : α) (v : Option α) :
    (h.setNext x v y).next = if y = x then v else (h y).next := by
  by_cases hy : y = x
  · subst hy; simp [setNext]
  · simp [setNext, hy]

@[simp] theorem setNext_prev (h : Heap α) (x y : α) (v : Option α) :
    (h.setNext x v y).prev = (h y).prev := by
  by_cases hy : y = x
  · subst hy; simp [setNext]
  · simp [setNext, hy]

theorem setPrev_of_ne (h : Heap α) {x y : α} (v : Option α) (hy : y ≠ x) : h.setPrev x v y = h y := by
  simp [setPrev, hy]

theorem setNext_of_ne (h : Heap α) {x y : α} (v : Option α) (hy : y ≠ x) : h.setNext x v y = h y := by
  simp [setNext, hy]

end Update

/-- The heap read backwards: every `prev` becomes a `next` and the other way round. -/
def flip (h : Heap α) : Heap α := ⟨fun x => ⟨(h x).next, (h x).prev⟩⟩

@[simp] theorem flip_prev (h : Heap α) (x : α) : (h.flip x).prev = (h x).next := rfl

@[simp] theorem flip_next (h : Heap α) (x : α) : (h.flip x).next = (h x).prev := rfl

@[simp] theorem flip_flip (h : Heap α) : h.flip.flip = h := rfl

theorem ext_links {h g : Heap α} (hp : ∀ x, (h x).prev = (g x).prev)
    (hn : ∀ x, (h x).next = (g x).next) : h = g := by
  obtain ⟨f⟩ := h
  obtain ⟨k⟩ := g
  congr 1
  funext x
  exact congrArg₂ Link.mk (hp x) (hn x)

end Heap

/-- `x` and `y` are neighbours: `x.next = y` and `y.prev = x`. -/
def Adj (h : Heap α) (x y : α) : Prop := (h x).next = some y ∧ (h y).prev = some x

instance [DecidableEq α] (h : Heap α) : DecidableRel (Adj h) := fun _ _ =>
  inferInstanceAs (Decidable (_ ∧ _))

/-- Consecutive nodes of `l` are neighbours. -/
abbrev Chain (h : Heap α) (l : List α) : Prop := List.IsChain (Adj h) l

theorem chain_cons_cons {h : Heap α} {x y : α} {l : List α} :
    Chain h (x :: y :: l) ↔ ((h x).next = some y ∧ (h y).prev = some x) ∧ Chain h (y :: l) :=
  List.isChain_cons_cons

/-- The frame rule of chains: only the `next` of all but the last node and the `prev` of all but
the first node are read. -/
theorem Chain.frame {h h' : Heap α} : ∀ {l : List α}, Chain h l →
    (∀ x ∈ l.dropLast, (h' x).next = (h x).next) → (∀ x ∈ l.tail, (h' x).prev = (h x).prev) →
    Chain h' l
  | [], _, _, _ => .nil
  | [_], _, _, _ => .singleton _
  | x :: y :: rest, hc, hn, hp => by
    obtain ⟨⟨hxy, hyx⟩, hrest⟩ := chain_cons_cons.mp hc
    have hx : (h' x).next = (h x).next := hn x (by simp)
    have hy : (h' y).prev = (h y).prev := hp y (by simp)
    refine chain_cons_cons.mpr ⟨⟨hx.trans hxy, hy.trans hyx⟩, hrest.frame ?_ ?_⟩
    · intro z hz
      exact hn z (by rw [List.dropLast_cons_cons]; exact List.mem_cons_of_mem x hz)
    · intro z hz
      exact hp z (List.mem_of_mem_tail (by simpa using hz))

theorem Chain.frame_of_agree {h h' : Heap α} {l : List α} (hc : Chain h l)
    (hs : ∀ x ∈ l, h' x = h x) : Chain h' l :=
  hc.frame (fun x hx => by rw [hs x (List.dropLast_subset l hx)])
    (fun x hx => by rw [hs x (List.mem_of_mem_tail hx)])

theorem Chain.next_eq_head {h : Heap α} {x : α} {l : List α} (hc : Chain h (x :: l))
    (hl : l ≠ []) : (h x).next = l.head? := by
  obtain ⟨y, l', rfl⟩ := List.exists_cons_of_ne_nil hl
  exact (chain_cons_cons.mp hc).1.1

theorem Chain.eq_of_next_none {h : Heap α} {t : α} (ht : (h t).next = none) :
    ∀ {x : α} {M N : List α}, Chain h (x :: M) → Chain h (x :: N) →
      (x :: M).getLast? = some t → (x :: N).getLast? = some t → M = N
  | _, [], [], _, _, _, _ => rfl
  | x, [], n :: N, _, hN, hM, _ => by
    have hx : x = t := by simpa using hM
    subst hx
    rw [hN.next_eq_head (by simp)] at ht
    simp at ht
  | x, m :: M, [], hM, _, _, hN => by
    have hx : x = t := by simpa using hN
    subst hx
    rw [hM.next_eq_head (by simp)] at ht
    simp at ht
  | x, m :: M, n :: N, hM, hN, hlM, hlN => by
    have e := (hM.next_eq_head (by simp)).symm.trans (hN.next_eq_head (by simp))
    simp only [List.head?_cons, Option.some.injEq] at e
    subst e
    rw [List.getLast?_cons_cons] at hlM hlN
    rw [Chain.eq_of_next_none ht (chain_cons_cons.mp hM).2 (chain_cons_cons.mp hN).2 hlM hlN]

theorem Chain.nodup_of_next_none {h : Heap α} {t : α} (ht : (h t).next = none) :
    ∀ {l : List α}, Chain h l → l.getLast? = some t → l.Nodup
  | [], _, _ => List.nodup_nil
  | [x], _, _ => List.nodup_singleton x
  | x :: y :: M, hc, hl => by
    rw [List.getLast?_cons_cons] at hl
    have ih := Chain.nodup_of_next_none ht (chain_cons_cons.mp hc).2 hl
    refine List.nodup_cons.mpr ⟨fun hx => ?_, ih⟩
    -- a second visit of `x` would start a shorter chain to the same end
    obtain ⟨P, S, hPS⟩ := List.append_of_mem hx
    have hsplit : Chain h ((x :: P) ++ x :: S) := by
      rw [List.cons_append, ← hPS]; exact hc
    have hsuf : Chain h (x :: S) := (List.isChain_split.mp hsplit).2
    have hlast : (x :: S).getLast? = some t := by
      rw [← hl, hPS, List.getLast?_append, List.getLast?_eq_some_getLast (List.cons_ne_nil x S)]
      rfl
    have e := Chain.eq_of_next_none ht hc hsuf (by rw [List.getLast?_cons_cons]; exact hl) hlast
    have hlen := congrArg List.length (e.symm.trans hPS)
    simp only [List.length_append, List.length_cons] at hlen
    omega

theorem Chain.prev_ne_none {h : Heap α} : ∀ {l : List α}, Chain h l → ∀ x ∈ l.tail, (h x).prev ≠ none
  | [], _, _, hx => by simp at hx
  | [_], _, _, hx => by simp at hx
  | _ :: y :: rest, hc, x, hx => by
    obtain ⟨⟨_, hyx⟩, hrest⟩ := chain_cons_cons.mp hc
    rcases List.mem_cons.mp hx with rfl | hx
    · simp [hyx]
    · exact Chain.prev_ne_none hrest x hx

theorem Chain.next_ne_none {h : Heap α} : ∀ {l : List α}, Chain h l →
    ∀ x ∈ l.dropLast, (h x).next ≠ none
  | [], _, _, hx => by simp at hx
  | [_], _, _, hx => by simp at hx
  | w :: y :: rest, hc, x, hx => by
    obtain ⟨⟨hwy, _⟩, hrest⟩ := chain_cons_cons.mp hc
    rw [List.dropLast_cons_cons] at hx
    rcases List.mem_cons.mp hx with rfl | hx
    · simp [hwy]
    · exact Chain.next_ne_none hrest x hx

theorem Chain.adj_mid {h : Heap α} {P Q : List α} {x y : α} (hc : Chain h (P ++ x :: y :: Q)) :
    Adj h x y :=
  (chain_cons_cons.mp (List.isChain_append.mp hc).2.1).1

/-! ## Unlinking and linking

The two edits of a doubly linked list, stated by what the new heap `h'` must satisfy rather than by
a particular sequence of writes: the seam pointers, and the old pointers everywhere the rest of
the chain reads them. -/

section Edit
variable {h h' : Heap α} {P Q S : List α} {x z : α}

/-- **Unlink** whatever lies between `x` and `z`: the new heap needs `x.next = z` and
`z.prev = x`. -/
theorem Chain.unlink (hc : Chain h (P ++ x :: (S ++ z :: Q)))
    (hx : (h' x).next = some z) (hz : (h' z).prev = some x)
    (hn : ∀ y ∈ P ++ z :: Q, (h' y).next = (h y).next)
    (hp : ∀ y ∈ P ++ x :: Q, (h' y).prev = (h y).prev) :
    Chain h' (P ++ x :: z :: Q) := by
  have hsplit : P ++ x :: (S ++ z :: Q) = (P ++ x :: S) ++ (z :: Q) := by simp
  rw [hsplit] at hc
  have hPx : Chain h (P ++ [x]) := (List.isChain_append.mp
    (show Chain h ((P ++ [x]) ++ (S ++ z :: Q)) by simpa using hc)).1
  have hzQ : Chain h (z :: Q) := (List.isChain_append.mp hc).2.1
  have hPx' : Chain h' (P ++ [x]) := hPx.frame
    (fun y hy => hn y (by rw [List.dropLast_concat] at hy; simp [hy]))
    (fun y hy => hp y (by
      have hy' := List.mem_of_mem_tail hy
      simp only [List.mem_append, List.mem_cons] at hy' ⊢
      tauto))
  have hzQ' : Chain h' (z :: Q) := hzQ.frame
    (fun y hy => hn y (by simp [List.dropLast_subset _ hy]))
    (fun y hy => hp y (by simp only [List.tail_cons] at hy; simp [hy]))
  have hjoin : P ++ x :: z :: Q = (P ++ [x]) ++ (z :: Q) := by simp
  rw [hjoin]
  exact List.isChain_append.mpr ⟨hPx', hzQ', by simp [Adj, hx, hz]⟩

/-- **Link** a chain `S`, from `y` to `w`, in between `x` and `z`: the new heap needs the four seam
pointers. -/
theorem Chain.link {y w : α} (hc : Chain h (P ++ x :: z :: Q)) (hS : Chain h' S)
    (hy : S.head? = some y) (hw : S.getLast? = some w)
    (hxy : (h' x).next = some y) (hyx : (h' y).prev = some x)
    (hwz : (h' w).next = some z) (hzw : (h' z).prev = some w)
    (hn : ∀ v ∈ P ++ z :: Q, (h' v).next = (h v).next)
    (hp : ∀ v ∈ P ++ x :: Q, (h' v).prev = (h v).prev) :
    Chain h' (P ++ x :: (S ++ z :: Q)) := by
  have hsplit : P ++ x :: z :: Q = (P ++ [x]) ++ (z :: Q) := by simp
  rw [hsplit] at hc
  have hPx : Chain h (P ++ [x]) := (List.isChain_append.mp hc).1
  have hzQ : Chain h (z :: Q) := (List.isChain_append.mp hc).2.1
  have hPx' : Chain h' (P ++ [x]) := hPx.frame
    (fun v hv => hn v (by rw [List.dropLast_concat] at hv; simp [hv]))
    (fun v hv => hp v (by
      have hv' := List.mem_of_mem_tail hv
      simp only [List.mem_append, List.mem_cons] at hv' ⊢
      tauto))
  have hzQ' : Chain h' (z :: Q) := hzQ.frame
    (fun v hv => hn v (by simp [List.dropLast_subset _ hv]))
    (fun v hv => hp v (by simp only [List.tail_cons] at hv; simp [hv]))
  have hSz : Chain h' (S ++ z :: Q) :=
    List.isChain_append.mpr ⟨hS, hzQ', by simp [hw, Adj, hwz, hzw]⟩
  have hjoin : P ++ x :: (S ++ z :: Q) = (P ++ [x]) ++ (S ++ z :: Q) := by simp
  rw [hjoin]
  refine List.isChain_append.mpr ⟨hPx', hSz, ?_⟩
  rcases S with _ | ⟨y', S⟩
  · simp at hy
  · simp only [List.head?_cons, Option.some.injEq] at hy
    subst hy
    simp [Adj, hxy, hyx]

end Edit

/-! ## Joining two nodes

The pointer programs of a list library are sequences of joins: `Heap.join h x y` makes `x` and `y`
neighbours. Unlinking a run of nodes is one join; linking a run in between two neighbours is two. -/

section Seam
variable {P Q S : List α} {x w z : α}

theorem not_mem_dropLast_of_getLast? {l : List α} (hnd : l.Nodup) (hw : l.getLast? = some w) :
    w ∉ l.dropLast := by
  have hl : l ≠ [] := by rintro rfl; simp at hw
  rw [List.getLast?_eq_some_getLast hl, Option.some.injEq] at hw
  have hsplit := List.dropLast_append_getLast hl
  rw [hw] at hsplit
  rw [← hsplit, List.nodup_append] at hnd
  exact fun hm => hnd.2.2 w hm w (List.mem_singleton_self w) rfl

/-- Where a run `S` lies between `x` and `z` in a list without duplicates, the two seam nodes and
the run's nodes are apart from everything else. -/
theorem nodup_seam (hnd : (P ++ x :: (S ++ z :: Q)).Nodup) :
    x ∉ P ++ z :: Q ∧ z ∉ P ++ x :: Q ∧ ∀ u ∈ S, u ∉ P ++ x :: z :: Q := by
  have hsub : (P ++ x :: z :: Q).Sublist (P ++ x :: (S ++ z :: Q)) :=
    ((List.sublist_append_right S (z :: Q)).cons_cons x).append_left P
  have hnd' := hnd.sublist hsub
  refine ⟨(List.nodup_cons.mp (List.nodup_middle.mp hnd')).1, ?_, ?_⟩
  · have hz := (List.nodup_cons.mp (List.nodup_middle.mp
      (show ((P ++ [x]) ++ z :: Q).Nodup by simpa using hnd'))).1
    simpa using hz
  · rw [show P ++ x :: (S ++ z :: Q) = (P ++ [x]) ++ (S ++ z :: Q) by simp] at hnd
    obtain ⟨-, hSzQ, hPxS⟩ := List.nodup_append.mp hnd
    obtain ⟨-, -, hSz⟩ := List.nodup_append.mp hSzQ
    intro u hu hm
    simp only [List.mem_append, List.mem_cons] at hm
    rcases hm with hm | rfl | rfl | hm
    · exact hPxS u (by simp [hm]) u (by simp [hu]) rfl
    · exact hPxS u (by simp) u (by simp [hu]) rfl
    · exact hSz u hu u (List.mem_cons_self ..) rfl
    · exact hSz u hu u (List.mem_cons_of_mem z hm) rfl

end Seam

section Join
variable [DecidableEq α] {h g : Heap α} {P Q S : List α} {v x y w z : α}

/-- `x->next = y; y->prev = x`. -/
def Heap.join (h : Heap α) (x y : α) : Heap α := (h.setNext x (some y)).setPrev y (some x)

@[simp] theorem Heap.join_next (h : Heap α) (x y v : α) :
    (h.join x y v).next = if v = x then some y else (h v).next := by
  simp [Heap.join]

@[simp] theorem Heap.join_prev (h : Heap α) (x y v : α) :
    (h.join x y v).prev = if v = y then some x else (h v).prev := by
  simp [Heap.join]

theorem Heap.join_of_ne (h : Heap α) (hx : v ≠ x) (hy : v ≠ y) : h.join x y v = h v := by
  rw [Heap.join, Heap.setPrev_of_ne _ _ hy, Heap.setNext_of_ne _ _ hx]

/-- **Unlink** the run `S` between `x` and `z` by joining `x` to `z`; the run keeps its own links. -/
theorem Chain.join_unlink (hc : Chain h (P ++ x :: (S ++ z :: Q)))
    (hnd : (P ++ x :: (S ++ z :: Q)).Nodup) :
    Chain (h.join x z) (P ++ x :: z :: Q) ∧ Chain (h.join x z) S := by
  obtain ⟨hx, hz, hS⟩ := nodup_seam hnd
  refine ⟨hc.unlink (by simp) (by simp) ?_ ?_, ?_⟩
  · intro u hu
    simp [ne_of_mem_of_not_mem hu hx]
  · intro u hu
    simp [ne_of_mem_of_not_mem hu hz]
  · have hSc : Chain h S := List.IsChain.infix hc ⟨P ++ [x], z :: Q, by simp⟩
    refine hSc.frame_of_agree fun u hu => Heap.join_of_ne h ?_ ?_
    · exact fun e => hS u hu (by simp [e])
    · exact fun e => hS u hu (by simp [e])

/-- **Link** the run `S`, from `y` to `w`, in between the neighbours `x` and `z`: join `x` to `y`
and `w` to `z`. -/
theorem Chain.join_link (hc : Chain g (P ++ x :: z :: Q)) (hS : Chain g S)
    (hy : S.head? = some y) (hw : S.getLast? = some w)
    (hnd : (P ++ x :: (S ++ z :: Q)).Nodup) :
    Chain ((g.join x y).join w z) (P ++ x :: (S ++ z :: Q)) := by
  obtain ⟨hx, hz, hout⟩ := nodup_seam hnd
  have hSnd : S.Nodup := hnd.sublist ((List.sublist_append_left S _).trans
    ((List.sublist_cons_self x _).trans (List.sublist_append_right P _)))
  have hyS : y ∈ S := List.mem_of_mem_head? hy
  have hwS : w ∈ S := List.mem_of_getLast? hw
  have hxS : x ∉ S := fun hm => hout x hm (by simp)
  have hzS : z ∉ S := fun hm => hout z hm (by simp)
  have hyt : y ∉ S.tail := by
    obtain ⟨S', rfl⟩ : ∃ S', S = y :: S' := by
      cases S with
      | nil => simp at hy
      | cons a S' => exact ⟨S', by simpa using hy⟩
    exact (List.nodup_cons.mp hSnd).1
  have hwd : w ∉ S.dropLast := not_mem_dropLast_of_getLast? hSnd hw
  refine hc.link ?_ hy hw ?_ ?_ ?_ ?_ ?_ ?_
  · refine hS.frame ?_ ?_
    · intro u hu
      have hux : u ≠ x := ne_of_mem_of_not_mem (List.dropLast_subset _ hu) hxS
      simp [hux, ne_of_mem_of_not_mem hu hwd]
    · intro u hu
      have huz : u ≠ z := ne_of_mem_of_not_mem (List.mem_of_mem_tail hu) hzS
      simp [huz, ne_of_mem_of_not_mem hu hyt]
  · simp [(ne_of_mem_of_not_mem hwS hxS).symm]
  · simp [ne_of_mem_of_not_mem hyS hzS]
  · simp
  · simp
  · intro u hu
    have huw : u ≠ w := fun e => hout w hwS (by simp at hu ⊢; subst e; tauto)
    simp [ne_of_mem_of_not_mem hu hx, huw]
  · intro u hu
    have huy : u ≠ y := fun e => hout y hyS (by simp at hu ⊢; subst e; tauto)
    simp [ne_of_mem_of_not_mem hu hz, huy]

theorem Chain.join_wrap (hS : Chain g S) (hy : S.head? = some y) (hw : S.getLast? = some w)
    (hnd : (x :: (S ++ [z])).Nodup) :
    Chain ((g.join x y).join w z) (x :: (S ++ [z])) := by
  obtain ⟨hx, hz, hout⟩ := nodup_seam (P := []) (Q := []) hnd
  have hSnd : S.Nodup := hnd.sublist ((List.sublist_append_left S _).trans (List.sublist_cons_self x _))
  have hyS : y ∈ S := List.mem_of_mem_head? hy
  have hwS : w ∈ S := List.mem_of_getLast? hw
  have hxS : x ∉ S := fun hm => hout x hm (by simp)
  have hzS : z ∉ S := fun hm => hout z hm (by simp)
  have hyt : y ∉ S.tail := by
    obtain ⟨S', rfl⟩ : ∃ S', S = y :: S' := by
      cases S with
      | nil => simp at hy
      | cons a S' => exact ⟨S', by simpa using hy⟩
    exact (List.nodup_cons.mp hSnd).1
  have hwd : w ∉ S.dropLast := not_mem_dropLast_of_getLast? hSnd hw
  have hS' : Chain ((g.join x y).join w z) S := by
    refine hS.frame ?_ ?_
    · intro u hu
      have hux : u ≠ x := ne_of_mem_of_not_mem (List.dropLast_subset _ hu) hxS
      simp [hux, ne_of_mem_of_not_mem hu hwd]
    · intro u hu
      have huz : u ≠ z := ne_of_mem_of_not_mem (List.mem_of_mem_tail hu) hzS
      simp [huz, ne_of_mem_of_not_mem hu hyt]
  rw [show x :: (S ++ [z]) = ([x] ++ S) ++ [z] by simp]
  refine List.isChain_append.mpr ⟨List.isChain_append.mpr ⟨.singleton x, hS', ?_⟩, .singleton z, ?_⟩
  · intro a ha b hb
    obtain rfl : x = a := by simpa using ha
    obtain rfl : y = b := by simpa [hy] using hb
    simp [Adj, (ne_of_mem_of_not_mem hwS hxS).symm, ne_of_mem_of_not_mem hyS hzS]
  · intro a ha b hb
    obtain rfl : w = a := by
      simpa [List.getLast?_cons, List.getLastD_eq_getLast?, hw] using ha
    obtain rfl : z = b := by simpa using hb
    simp [Adj]

end Join

theorem chain_flip_reverse {h : Heap α} {l : List α} : Chain h.flip l.reverse ↔ Chain h l := by
  rw [Chain, List.isChain_reverse]
  exact List.IsChain.iff (fun a b => by simp [Adj, and_comm])

end LinkHeap
