import Pintos.List.Ordered
import Mathlib.Logic.Relation

/-! # A family of lists, and the sequences they refine

The kernel keeps many lists in one heap, and an element moves between them. `Call` is the calls
of `list.c` that change lists, with the documented precondition of each (`Call.Allowed`), run on
a heap by `Call.run`. The abstract state gives every list its sequence; `Call.abs` is what a
structural call does to the sequences and what it returns.

* `Inv L h seqs`: every list `L i` holds `seqs i`, and no node belongs to two lists.
* `Inv.update`: a call that rewires some lists, keeps the others' nodes and brings in only fresh
  elements keeps the invariant; every call is reduced to it.
* `Inv.structural`: the structural calls return, and refine `Call.abs`.
* `Inv.step`: every allowed call that returns keeps the invariant, the ordered ones included.
-/

namespace Pintos.KList
open LinkHeap
set_option autoImplicit false

variable {ι α : Type}

theorem IsList.nodup_elems {h : Heap α} {l : DList α} {xs : List α} (hl : IsList h l xs) :
    xs.Nodup :=
  hl.nodup.sublist ((List.sublist_append_left xs _).cons _)

theorem nodes_of_insert {l : DList α} {C D : List α} {e x : α}
    (hx : x ∈ DList.nodes l (C ++ e :: D)) : x = e ∨ x ∈ DList.nodes l (C ++ D) := by
  simp only [DList.nodes, List.mem_cons, List.mem_append] at hx ⊢
  tauto

theorem nodes_of_range {l : DList α} {C R D : List α} {x : α}
    (hx : x ∈ DList.nodes l (C ++ R ++ D)) : x ∈ R ∨ x ∈ DList.nodes l (C ++ D) := by
  simp only [DList.nodes, List.mem_cons, List.mem_append] at hx ⊢
  tauto

theorem nodes_of_sublist {l : DList α} {ys xs : List α} (hs : ys.Sublist xs) :
    DList.nodes l ys ⊆ DList.nodes l xs := by
  intro x hx
  simp only [DList.nodes, List.mem_cons, List.mem_append] at hx ⊢
  rcases hx with hx | hx | hx
  · exact Or.inl hx
  · exact Or.inr (Or.inl (hs.subset hx))
  · exact Or.inr (Or.inr hx)

/-! ## The abstract sequences -/

section Seq
variable [DecidableEq α]

/-- `list_insert (before, elem)` on a sequence: `elem` goes in front of `before`, or at the end
when `before` is not in the sequence (it is the tail). -/
def seqInsert (xs : List α) (before : α) (R : List α) : List α :=
  xs.takeWhile (· != before) ++ R ++ xs.dropWhile (· != before)

/-- The element after `e`, or the tail `t` when `e` is the last one. -/
def seqNext (xs : List α) (e t : α) : α := ((xs.dropWhile (· != e)).drop 1).headD t

/-- The range `[first, last)` of a sequence. -/
def seqRange (xs : List α) (first last : α) : List α :=
  (xs.dropWhile (· != first)).takeWhile (· != last)

/-- The sequence without the range `[first, last)`. -/
def seqCut (xs : List α) (first last : α) : List α :=
  xs.takeWhile (· != first) ++ (xs.dropWhile (· != first)).dropWhile (· != last)

theorem takeWhile_ne_append {A B : List α} {b : α} (hb : b ∉ A) :
    (A ++ B).takeWhile (· != b) = A ++ B.takeWhile (· != b) ∧
      (A ++ B).dropWhile (· != b) = B.dropWhile (· != b) := by
  induction A with
  | nil => simp
  | cons a A ih =>
    have hab : a ≠ b := fun e => hb (by simp [e])
    obtain ⟨h1, h2⟩ := ih (fun hm => hb (List.mem_cons_of_mem a hm))
    simp [hab, h1, h2]

theorem takeWhile_ne_cut {C D : List α} {t : α} (hnd : (C ++ D).Nodup) (ht : t ∉ C ++ D) :
    (C ++ D).takeWhile (· != D.headD t) = C ∧ (C ++ D).dropWhile (· != D.headD t) = D := by
  cases D with
  | nil =>
    have htC : t ∉ C := by simpa using ht
    obtain ⟨h1, h2⟩ := takeWhile_ne_append (B := []) htC
    simp only [List.append_nil, List.takeWhile_nil, List.dropWhile_nil, List.headD_nil] at h1 h2 ⊢
    exact ⟨h1, h2⟩
  | cons d D =>
    have hdC : d ∉ C := fun hm => (List.nodup_append.mp hnd).2.2 d hm d (by simp) rfl
    obtain ⟨h1, h2⟩ := takeWhile_ne_append (B := d :: D) hdC
    simp [h1, h2]

theorem seqInsert_cut {C D R : List α} {t : α} (hnd : (C ++ D).Nodup) (ht : t ∉ C ++ D) :
    seqInsert (C ++ D) (D.headD t) R = C ++ R ++ D := by
  obtain ⟨h1, h2⟩ := takeWhile_ne_cut hnd ht
  rw [seqInsert, h1, h2]

theorem seqNext_cut {A B : List α} {e t : α} (he : e ∉ A) : seqNext (A ++ e :: B) e t = B.headD t := by
  obtain ⟨-, h2⟩ := takeWhile_ne_append (B := e :: B) he
  simp [seqNext, h2]

theorem seqRange_cut {A R B : List α} {t : α} (hnd : (A ++ R ++ B).Nodup) (ht : t ∉ A ++ R ++ B) :
    seqRange (A ++ R ++ B) ((R ++ B).headD t) (B.headD t) = R ∧
      seqCut (A ++ R ++ B) ((R ++ B).headD t) (B.headD t) = A ++ B := by
  have hnd' : (A ++ (R ++ B)).Nodup := by simpa using hnd
  have ht' : t ∉ A ++ (R ++ B) := by simpa using ht
  obtain ⟨h1, h2⟩ := takeWhile_ne_cut hnd' ht'
  have hRB : (R ++ B).Nodup := hnd'.sublist (List.sublist_append_right A _)
  have htRB : t ∉ R ++ B := fun hm => ht' (List.mem_append_right A hm)
  obtain ⟨h3, h4⟩ := takeWhile_ne_cut hRB htRB
  simp only [seqRange, seqCut, List.append_assoc] at h1 h2 ⊢
  rw [h1, h2, h3, h4]
  exact ⟨rfl, rfl⟩

end Seq

/-! ## Calls, their preconditions and their effect -/

/-- The calls of `list.c` that change lists. The list named by `i` in `insert`, `remove` and
`splice` is the one the C pointers are in; the code itself never reads it. -/
inductive Call (ι α : Type) where
  | init (i : ι)
  | insert (i : ι) (before elem : α)
  | pushFront (i : ι) (elem : α)
  | pushBack (i : ι) (elem : α)
  | remove (i : ι) (elem : α)
  | popFront (i : ι)
  | popBack (i : ι)
  | splice (i : ι) (before : α) (j : ι) (first last : α)
  | reverse (i : ι)
  | sort (i : ι) (less : α → α → Option Bool)
  | insertOrdered (i : ι) (elem : α) (less : α → α → Option Bool)
  | unique (i : ι) (duplicates : Option ι) (less : α → α → Option Bool)

/-- The calls whose result is a function of the sequences alone. -/
def Call.Structural : Call ι α → Prop
  | .sort .. | .insertOrdered .. | .unique .. => False
  | _ => True

/-- An element that is in no list. -/
def Fresh (L : ι → DList α) (seqs : ι → List α) (e : α) : Prop :=
  ∀ k, e ∉ DList.nodes (L k) (seqs k)

/-- The documented precondition of each call: removed and spliced elements are interior,
`before` is an interior element or a tail, a range does not contain `before`, an inserted
element is in no list, and `duplicates` is another list. -/
def Call.Allowed (L : ι → DList α) (seqs : ι → List α) : Call ι α → Prop
  | .init _ => True
  | .insert i before elem => before ∈ seqs i ++ [(L i).tail] ∧ Fresh L seqs elem
  | .pushFront _ elem => Fresh L seqs elem
  | .pushBack _ elem => Fresh L seqs elem
  | .remove i elem => elem ∈ seqs i
  | .popFront i => seqs i ≠ []
  | .popBack i => seqs i ≠ []
  | .splice i before j first last => before ∈ seqs i ++ [(L i).tail] ∧
      ∃ A R B, seqs j = A ++ R ++ B ∧ R ≠ [] ∧ first = (R ++ B).headD (L j).tail ∧
        last = B.headD (L j).tail ∧ before ∉ R
  | .reverse _ => True
  | .sort _ _ => True
  | .insertOrdered _ elem _ => Fresh L seqs elem
  | .unique i dup _ => dup ≠ some i

/-! ## The invariant -/

/-- Every list holds its sequence, and no node is in two lists. -/
structure Inv (L : ι → DList α) (h : Heap α) (seqs : ι → List α) : Prop where
  lists : ∀ i, IsList h (L i) (seqs i)
  apart : ∀ i j, i ≠ j → ∀ x ∈ DList.nodes (L i) (seqs i), x ∉ DList.nodes (L j) (seqs j)

variable {L : ι → DList α} {h h' : Heap α} {seqs seqs' : ι → List α}

/-- A call that rewires the lists `T`, brings in only the fresh nodes `new`, writes no other node,
and leaves the lists `T` apart keeps the invariant. -/
theorem Inv.update (hi : Inv L h seqs) (T : ι → Prop) (new : List α)
    (hnew : ∀ e ∈ new, Fresh L seqs e) (hsame : ∀ k, ¬T k → seqs' k = seqs k)
    (hlists : ∀ k, T k → IsList h' (L k) (seqs' k))
    (hframe : ∀ x, (∀ k, T k → x ∉ DList.nodes (L k) (seqs k)) → x ∉ new → h' x = h x)
    (hfrom : ∀ k, T k → ∀ x ∈ DList.nodes (L k) (seqs' k),
      x ∈ new ∨ ∃ k', T k' ∧ x ∈ DList.nodes (L k') (seqs k'))
    (hapart : ∀ k k', T k → T k' → k ≠ k' →
      ∀ x ∈ DList.nodes (L k) (seqs' k), x ∉ DList.nodes (L k') (seqs' k')) :
    Inv L h' seqs' := by
  -- a node of an untouched list is in no touched list and is not new
  have hout : ∀ k, ¬T k → ∀ x ∈ DList.nodes (L k) (seqs k),
      (∀ k', T k' → x ∉ DList.nodes (L k') (seqs k')) ∧ x ∉ new := by
    intro k hk x hx
    refine ⟨fun k' hk' => hi.apart k k' (fun e => hk (e ▸ hk')) x hx, fun hm => hnew x hm k hx⟩
  refine ⟨fun k => ?_, fun i j hij x hx hxj => ?_⟩
  · by_cases hk : T k
    · exact hlists k hk
    · rw [hsame k hk]
      exact (hi.lists k).frame fun x hx => hframe x (hout k hk x hx).1 (hout k hk x hx).2
  · by_cases hTi : T i <;> by_cases hTj : T j
    · exact hapart i j hTi hTj hij x hx hxj
    · rw [hsame j hTj] at hxj
      rcases hfrom i hTi x hx with hm | ⟨k', hk', hm⟩
      · exact hnew x hm j hxj
      · exact (hout j hTj x hxj).1 k' hk' hm
    · rw [hsame i hTi] at hx
      rcases hfrom j hTj x hxj with hm | ⟨k', hk', hm⟩
      · exact hnew x hm i hx
      · exact (hout i hTi x hx).1 k' hk' hm
    · rw [hsame i hTi] at hx
      rw [hsame j hTj] at hxj
      exact hi.apart i j hij x hx hxj

theorem Inv.update_one [DecidableEq ι] (hi : Inv L h seqs) {i : ι} {ys : List α} (new : List α)
    (hnew : ∀ e ∈ new, Fresh L seqs e) (hl : IsList h' (L i) ys)
    (hframe : ∀ x ∉ DList.nodes (L i) (seqs i), x ∉ new → h' x = h x)
    (hfrom : ∀ x ∈ DList.nodes (L i) ys, x ∈ new ∨ x ∈ DList.nodes (L i) (seqs i)) :
    Inv L h' (Function.update seqs i ys) := by
  refine hi.update (· = i) new hnew (fun k hk => Function.update_of_ne hk _ _) ?_ ?_ ?_ ?_
  · rintro k rfl
    simpa using hl
  · exact fun x hx hxn => hframe x (hx i rfl) hxn
  · rintro k rfl x hx
    rw [Function.update_self] at hx
    rcases hfrom x hx with hm | hm
    · exact Or.inl hm
    · exact Or.inr ⟨k, rfl, hm⟩
  · rintro k k' rfl rfl hne
    exact absurd rfl hne

variable [DecidableEq α]

/-- The call run on the heap, with the element it returns, if any. The loops take `fuel`. -/
def Call.run (L : ι → DList α) (fuel : Nat) (h : Heap α) : Call ι α → Option (Heap α × Option α)
  | .init i => some (listInit h (L i), none)
  | .insert _ before elem => (listInsert h before elem).map fun h => (h, none)
  | .pushFront i elem => (listPushFront h (L i) elem).map fun h => (h, none)
  | .pushBack i elem => (listPushBack h (L i) elem).map fun h => (h, none)
  | .remove _ elem => (listRemove h elem).map fun r => (r.1, some r.2)
  | .popFront i => (listPopFront h (L i)).map fun r => (r.1, some r.2)
  | .popBack i => (listPopBack h (L i)).map fun r => (r.1, some r.2)
  | .splice _ before _ first last => (listSplice h before first last).map fun h => (h, none)
  | .reverse i => (listReverse h (L i) fuel).map fun h => (h, none)
  | .sort i less => (listSort h (L i) less fuel).map fun h => (h, none)
  | .insertOrdered i elem less => (listInsertOrdered h (L i) elem less fuel).map fun h => (h, none)
  | .unique i dup less => (listUnique h (L i) (dup.map L) less fuel).map fun h => (h, none)

variable [DecidableEq ι]

/-- What a structural call does to the sequences, and what it returns. -/
def Call.abs (L : ι → DList α) (seqs : ι → List α) : Call ι α → (ι → List α) × Option α
  | .init i => (Function.update seqs i [], none)
  | .insert i before elem => (Function.update seqs i (seqInsert (seqs i) before [elem]), none)
  | .pushFront i elem => (Function.update seqs i (elem :: seqs i), none)
  | .pushBack i elem => (Function.update seqs i (seqs i ++ [elem]), none)
  | .remove i elem =>
    (Function.update seqs i ((seqs i).erase elem), some (seqNext (seqs i) elem (L i).tail))
  | .popFront i => (Function.update seqs i (seqs i).tail, (seqs i).head?)
  | .popBack i => (Function.update seqs i (seqs i).dropLast, (seqs i).getLast?)
  | .splice i before j first last =>
    let cut := Function.update seqs j (seqCut (seqs j) first last)
    (Function.update cut i (seqInsert (cut i) before (seqRange (seqs j) first last)), none)
  | .reverse i => (Function.update seqs i (seqs i).reverse, none)
  | .sort .. | .insertOrdered .. | .unique .. => (seqs, none)

/-! ## The structural calls -/

section Structural
variable (hi : Inv L h seqs)
include hi

theorem Inv.insert {i : ι} {before elem : α} (hb : before ∈ seqs i ++ [(L i).tail])
    (he : Fresh L seqs elem) :
    ∃ h', listInsert h before elem = some h' ∧
      Inv L h' (Function.update seqs i (seqInsert (seqs i) before [elem])) := by
  obtain ⟨C, D, hCD, rfl⟩ := split_of_mem hb
  have hl : IsList h (L i) (C ++ D) := hCD ▸ hi.lists i
  obtain ⟨h', hins, hl', hfr⟩ := hl.insert (hCD ▸ he i)
  refine ⟨h', hins, ?_⟩
  rw [hCD, seqInsert_cut hl.nodup_elems hl.tail_not_mem]
  refine hi.update_one [elem] (by simpa using he) (by simpa using hl')
    (fun x hx hxn => hfr x (hCD ▸ hx) (by simpa using hxn)) fun x hx => ?_
  rcases nodes_of_insert (by simpa using hx) with rfl | hx
  · exact Or.inl (List.mem_singleton_self x)
  · exact Or.inr (hCD ▸ hx)

theorem Inv.pushFront {i : ι} {elem : α} (he : Fresh L seqs elem) :
    ∃ h', listPushFront h (L i) elem = some h' ∧
      Inv L h' (Function.update seqs i (elem :: seqs i)) := by
  obtain ⟨h', hpush, hl', hfr⟩ := (hi.lists i).pushFront (he i)
  refine ⟨h', hpush, hi.update_one [elem] (by simpa using he) hl'
    (fun x hx hxn => hfr x hx (by simpa using hxn)) fun x hx => ?_⟩
  rcases nodes_of_insert (C := []) (by simpa using hx) with rfl | hx
  · exact Or.inl (List.mem_singleton_self x)
  · exact Or.inr (by simpa using hx)

theorem Inv.pushBack {i : ι} {elem : α} (he : Fresh L seqs elem) :
    ∃ h', listPushBack h (L i) elem = some h' ∧
      Inv L h' (Function.update seqs i (seqs i ++ [elem])) := by
  obtain ⟨h', hpush, hl', hfr⟩ := (hi.lists i).pushBack (he i)
  refine ⟨h', hpush, hi.update_one [elem] (by simpa using he) hl'
    (fun x hx hxn => hfr x hx (by simpa using hxn)) fun x hx => ?_⟩
  rcases nodes_of_insert (D := []) (by simpa using hx) with rfl | hx
  · exact Or.inl (List.mem_singleton_self x)
  · exact Or.inr (by simpa using hx)

theorem Inv.remove {i : ι} {elem : α} (he : elem ∈ seqs i) :
    ∃ h', listRemove h elem = some (h', seqNext (seqs i) elem (L i).tail) ∧
      Inv L h' (Function.update seqs i ((seqs i).erase elem)) := by
  obtain ⟨A, B, hAB⟩ := List.append_of_mem he
  have hl : IsList h (L i) (A ++ elem :: B) := hAB ▸ hi.lists i
  have heA : elem ∉ A := (List.nodup_middle.mp hl.nodup_elems |> List.nodup_cons.mp).1 ∘
    List.mem_append_left B
  obtain ⟨h', hrem, hl', hfr⟩ := hl.remove
  have hsub : DList.nodes (L i) (A ++ B) ⊆ DList.nodes (L i) (seqs i) :=
    hAB ▸ nodes_of_sublist ((List.sublist_cons_self elem B).append_left A)
  refine ⟨h', by rw [hrem, hAB, seqNext_cut heA], ?_⟩
  rw [hAB, List.erase_append_right _ heA, List.erase_cons_head]
  exact hi.update_one [] (by simp) hl' (fun x hx _ => hfr x fun hm => hx (hsub hm))
    fun x hx => Or.inr (hsub hx)

theorem Inv.popFront {i : ι} (hne : seqs i ≠ []) :
    ∃ h' x, listPopFront h (L i) = some (h', x) ∧ (seqs i).head? = some x ∧
      Inv L h' (Function.update seqs i (seqs i).tail) := by
  obtain ⟨x, ys, hxs⟩ := List.exists_cons_of_ne_nil hne
  obtain ⟨h', hpop, hl', hfr⟩ := (show IsList h (L i) (x :: ys) from hxs ▸ hi.lists i).popFront
  have hsub : DList.nodes (L i) ys ⊆ DList.nodes (L i) (seqs i) :=
    hxs ▸ nodes_of_sublist (List.sublist_cons_self x ys)
  refine ⟨h', x, hpop, by simp [hxs], ?_⟩
  rw [hxs, List.tail_cons]
  exact hi.update_one [] (by simp) hl' (fun y hy _ => hfr y (hxs ▸ hy)) fun y hy => Or.inr (hsub hy)

theorem Inv.popBack {i : ι} (hne : seqs i ≠ []) :
    ∃ h' x, listPopBack h (L i) = some (h', x) ∧ (seqs i).getLast? = some x ∧
      Inv L h' (Function.update seqs i (seqs i).dropLast) := by
  have hxs := (List.dropLast_append_getLast hne).symm
  obtain ⟨h', hpop, hl', hfr⟩ :=
    (show IsList h (L i) ((seqs i).dropLast ++ [(seqs i).getLast hne]) from hxs ▸ hi.lists i).popBack
  have hsub : DList.nodes (L i) (seqs i).dropLast ⊆ DList.nodes (L i) (seqs i) :=
    nodes_of_sublist (List.dropLast_sublist _)
  refine ⟨h', _, hpop, List.getLast?_eq_some_getLast hne, ?_⟩
  exact hi.update_one [] (by simp) hl' (fun y hy _ => hfr y (hxs ▸ hy)) fun y hy => Or.inr (hsub hy)

theorem Inv.init (i : ι) : Inv L (listInit h (L i)) (Function.update seqs i []) := by
  have hne := (hi.lists i).head_not_mem.2
  refine hi.update_one [] (by simp) (listInit_isList hne) (fun x hx _ => ?_) fun x hx => ?_
  · exact listInit_of_ne (fun e => hx (by simp [DList.nodes, e]))
      (fun e => hx (by simp [DList.nodes, e]))
  · right
    simp only [DList.nodes, List.nil_append, List.mem_cons, List.not_mem_nil, or_false] at hx ⊢
    rcases hx with rfl | rfl
    · exact Or.inl rfl
    · simp

theorem Inv.reverse {i : ι} {fuel : Nat} (hf : (seqs i).length < fuel) :
    ∃ h', listReverse h (L i) fuel = some h' ∧
      Inv L h' (Function.update seqs i (seqs i).reverse) := by
  obtain ⟨h', hrev, hl', hfr⟩ := (hi.lists i).reverse hf
  refine ⟨h', hrev, hi.update_one [] (by simp) hl' (fun x hx _ => hfr x hx) fun x hx => ?_⟩
  right
  simpa [DList.nodes] using hx

theorem Inv.splice {i j : ι} {before : α} {A R B : List α} (hb : before ∈ seqs i ++ [(L i).tail])
    (hAB : seqs j = A ++ R ++ B) (hR : R ≠ []) (hbR : before ∉ R) :
    ∃ h', listSplice h before ((R ++ B).headD (L j).tail) (B.headD (L j).tail) = some h' ∧
      Inv L h' (Call.abs L seqs (.splice i before j ((R ++ B).headD (L j).tail)
        (B.headD (L j).tail))).1 := by
  have hlj : IsList h (L j) (A ++ R ++ B) := hAB ▸ hi.lists j
  obtain ⟨hrange, hcut⟩ := seqRange_cut hlj.nodup_elems hlj.tail_not_mem
  have hfirst : R.head? = some ((R ++ B).headD (L j).tail) := by
    cases R with
    | nil => exact absurd rfl hR
    | cons r R => rfl
  simp only [Call.abs, hAB, hrange, hcut]
  by_cases hij : i = j
  · -- within one list
    subst hij
    rw [Function.update_self, Function.update_idem]
    have hb' : before ∈ (A ++ B) ++ [(L i).tail] := by
      rw [hAB] at hb
      simp only [List.mem_append] at hb ⊢
      tauto
    obtain ⟨C, D, hCD, rfl⟩ := split_of_mem hb'
    obtain ⟨h', hsp, hl', hfr⟩ := hlj.spliceSelf hfirst hCD
    have hsub : (C ++ D).Sublist (A ++ R ++ B) :=
      hCD ▸ (List.sublist_append_left A R).append (List.Sublist.refl B)
    refine ⟨h', hsp, ?_⟩
    rw [hCD, seqInsert_cut (hlj.nodup_elems.sublist hsub)
      fun hm => hlj.tail_not_mem (hsub.subset hm)]
    have hperm := perm_move A R B C D hCD
    exact hi.update_one [] (by simp) hl' (fun x hx _ => hfr x (hAB ▸ hx))
      fun x hx => Or.inr (hAB ▸ (mem_nodes_of_perm hperm).mp hx)
  · -- from list `j` into list `i`
    rw [Function.update_of_ne hij]
    obtain ⟨C, D, hCD, rfl⟩ := split_of_mem hb
    have hli : IsList h (L i) (C ++ D) := hCD ▸ hi.lists i
    have hdisj : ∀ x ∈ DList.nodes (L i) (C ++ D), x ∉ DList.nodes (L j) (A ++ R ++ B) :=
      fun x hx => hAB ▸ hi.apart i j hij x (hCD ▸ hx)
    obtain ⟨h', hsp, hl₁, hl₂, hfr⟩ := hli.splice hlj hdisj hfirst
    refine ⟨h', hsp, ?_⟩
    rw [hCD, seqInsert_cut hli.nodup_elems hli.tail_not_mem]
    have hRj : ∀ x ∈ R, x ∈ DList.nodes (L j) (seqs j) := fun x hx => by
      rw [hAB]; simp [DList.nodes, hx]
    have hij' : ∀ x ∈ DList.nodes (L i) (C ++ R ++ D), x ∉ DList.nodes (L j) (A ++ B) := by
      intro x hx hxj
      rcases nodes_of_range hx with hxR | hx
      · exact run_not_mem_nodes hlj.nodup hxR hxj
      · exact hdisj x hx (nodes_subset_range A R B hxj)
    refine hi.update (fun k => k = i ∨ k = j) [] (by simp) ?_ ?_ ?_ ?_ ?_
    · intro k hk
      simp only [not_or] at hk
      rw [Function.update_of_ne hk.1, Function.update_of_ne hk.2]
    · rintro k (rfl | rfl)
      · simpa using hl₁
      · rw [Function.update_of_ne (Ne.symm hij), Function.update_self]
        exact hl₂
    · intro x hx _
      exact hfr x (hCD ▸ hx i (Or.inl rfl)) (hAB ▸ hx j (Or.inr rfl))
    · rintro k (rfl | rfl) x hx
      · rw [Function.update_self] at hx
        rcases nodes_of_range hx with hxR | hx
        · exact Or.inr ⟨j, Or.inr rfl, hRj x hxR⟩
        · exact Or.inr ⟨k, Or.inl rfl, hCD ▸ hx⟩
      · rw [Function.update_of_ne (Ne.symm hij), Function.update_self] at hx
        exact Or.inr ⟨k, Or.inr rfl, hAB ▸ nodes_subset_range A R B hx⟩
    · rintro k k' (rfl | rfl) (rfl | rfl) hne x hx hx'
      · exact hne rfl
      · rw [Function.update_self] at hx
        rw [Function.update_of_ne (Ne.symm hij), Function.update_self] at hx'
        exact hij' x hx hx'
      · rw [Function.update_of_ne (Ne.symm hij), Function.update_self] at hx
        rw [Function.update_self] at hx'
        exact hij' x hx' hx
      · exact hne rfl

end Structural

/-- **The structural calls refine the sequences**: from the invariant, each allowed structural
call returns, with the value `Call.abs` returns, in a heap whose lists hold `Call.abs`'s
sequences. Only `list_reverse` loops, and needs more fuel than the list has elements. -/
theorem Inv.structural (hi : Inv L h seqs) {fuel : Nat} {c : Call ι α}
    (hf : ∀ i, c = .reverse i → (seqs i).length < fuel) (hc : c.Allowed L seqs)
    (hs : c.Structural) :
    ∃ h', c.run L fuel h = some (h', (c.abs L seqs).2) ∧ Inv L h' (c.abs L seqs).1 := by
  cases c with
  | init i => exact ⟨_, rfl, hi.init i⟩
  | insert i before elem =>
    obtain ⟨h', hins, hinv⟩ := hi.insert hc.1 hc.2
    exact ⟨h', by simp [Call.run, hins, Call.abs], hinv⟩
  | pushFront i elem =>
    obtain ⟨h', hpush, hinv⟩ := hi.pushFront hc
    exact ⟨h', by simp [Call.run, hpush, Call.abs], hinv⟩
  | pushBack i elem =>
    obtain ⟨h', hpush, hinv⟩ := hi.pushBack hc
    exact ⟨h', by simp [Call.run, hpush, Call.abs], hinv⟩
  | remove i elem =>
    obtain ⟨h', hrem, hinv⟩ := hi.remove hc
    exact ⟨h', by simp [Call.run, hrem, Call.abs], hinv⟩
  | popFront i =>
    obtain ⟨h', x, hpop, hx, hinv⟩ := hi.popFront hc
    exact ⟨h', by simp [Call.run, hpop, Call.abs, hx], hinv⟩
  | popBack i =>
    obtain ⟨h', x, hpop, hx, hinv⟩ := hi.popBack hc
    exact ⟨h', by simp [Call.run, hpop, Call.abs, hx], hinv⟩
  | splice i before j first last =>
    obtain ⟨hb, A, R, B, hAB, hR, rfl, rfl, hbR⟩ := hc
    obtain ⟨h', hsp, hinv⟩ := hi.splice hb hAB hR hbR
    exact ⟨h', by rw [Call.run, hsp]; rfl, hinv⟩
  | reverse i =>
    obtain ⟨h', hrev, hinv⟩ := hi.reverse (hf i rfl)
    exact ⟨h', by simp [Call.run, hrev, Call.abs], hinv⟩
  | sort => exact hs.elim
  | insertOrdered => exact hs.elim
  | unique => exact hs.elim

/-! ## The ordered calls -/

theorem Inv.sort (hi : Inv L h seqs) {i : ι} {less : α → α → Option Bool} {fuel : Nat}
    (hrun : listSort h (L i) less fuel = some h') :
    ∃ ys, ys.Perm (seqs i) ∧ Inv L h' (Function.update seqs i ys) := by
  obtain ⟨ys, hp, hl', hfr⟩ := (hi.lists i).sort hrun
  exact ⟨ys, hp, hi.update_one [] (by simp) hl' (fun x hx _ => hfr x hx)
    fun x hx => Or.inr ((mem_nodes_of_perm hp).mp hx)⟩

theorem Inv.insertOrdered (hi : Inv L h seqs) {i : ι} {elem : α} (he : Fresh L seqs elem)
    {less : α → α → Option Bool} {fuel : Nat}
    (hrun : listInsertOrdered h (L i) elem less fuel = some h') :
    ∃ A B, seqs i = A ++ B ∧ Inv L h' (Function.update seqs i (A ++ elem :: B)) := by
  obtain ⟨A, B, hAB, hl', hfr⟩ := (hi.lists i).insertOrdered (he i) hrun
  refine ⟨A, B, hAB, hi.update_one [elem] (by simpa using he) hl'
    (fun x hx hxn => hfr x hx (by simpa using hxn)) fun x hx => ?_⟩
  rcases nodes_of_insert hx with rfl | hx
  · exact Or.inl (List.mem_singleton_self x)
  · exact Or.inr (hAB ▸ hx)

theorem Inv.unique (hi : Inv L h seqs) {i : ι} {dup : Option ι} (hd : dup ≠ some i)
    {less : α → α → Option Bool} {fuel : Nat}
    (hrun : listUnique h (L i) (dup.map L) less fuel = some h') :
    ∃ ys zs, ys.Sublist (seqs i) ∧ (ys ++ zs).Perm (seqs i) ∧
      Inv L h' (match dup with
        | none => Function.update seqs i ys
        | some d => Function.update (Function.update seqs d (seqs d ++ zs)) i ys) := by
  cases dup with
  | none =>
    obtain ⟨ys, zs, hsub, hp, hl', -, hfr⟩ :=
      (hi.lists i).unique (show DupInv h (L i) (seqs i) none [] from trivial) hrun
    exact ⟨ys, zs, hsub, hp, hi.update_one [] (by simp) hl'
      (fun x hx _ => hfr x hx (by simp [dupNodes]))
      fun x hx => Or.inr (nodes_of_sublist hsub hx)⟩
  | some d =>
    have hdi : d ≠ i := fun e => hd (by rw [e])
    obtain ⟨ys, zs, hsub, hp, hl', ⟨hld, hap⟩, hfr⟩ := (hi.lists i).unique
      (show DupInv h (L i) (seqs i) (some (L d)) (seqs d) from ⟨hi.lists d, hi.apart d i hdi⟩) hrun
    refine ⟨ys, zs, hsub, hp, ?_⟩
    show Inv L h' (Function.update (Function.update seqs d (seqs d ++ zs)) i ys)
    refine hi.update (fun k => k = i ∨ k = d) [] (by simp) ?_ ?_ ?_ ?_ ?_
    · intro k hk
      simp only [not_or] at hk
      rw [Function.update_of_ne hk.1, Function.update_of_ne hk.2]
    · rintro k (rfl | rfl)
      · simpa using hl'
      · rw [Function.update_of_ne hdi, Function.update_self]
        exact hld
    · exact fun x hx _ => hfr x (hx i (Or.inl rfl)) (hx d (Or.inr rfl))
    · rintro k (rfl | rfl) x hx
      · rw [Function.update_self] at hx
        exact Or.inr ⟨k, Or.inl rfl, nodes_of_sublist hsub hx⟩
      · rw [Function.update_of_ne hdi, Function.update_self] at hx
        rcases nodes_of_range (C := seqs k) (R := zs) (D := []) (by simpa using hx) with hx | hx
        · have hxi : x ∈ seqs i := hp.subset (List.mem_append_right ys hx)
          exact Or.inr ⟨i, Or.inl rfl, by simp [DList.nodes, hxi]⟩
        · exact Or.inr ⟨k, Or.inr rfl, by simpa using hx⟩
    · rintro k k' (rfl | rfl) (rfl | rfl) hne x hx hx'
      · exact hne rfl
      · rw [Function.update_self] at hx
        rw [Function.update_of_ne hdi, Function.update_self] at hx'
        exact hap x hx' hx
      · rw [Function.update_of_ne hdi, Function.update_self] at hx
        rw [Function.update_self] at hx'
        exact hap x hx hx'
      · exact hne rfl

/-! ## Runs -/

/-- The lists a call acts on. -/
def Call.lists : Call ι α → List ι
  | .splice i _ j _ _ => [i, j]
  | .unique i dup _ => i :: dup.toList
  | .init i | .insert i .. | .pushFront i _ | .pushBack i _ | .remove i _ | .popFront i
  | .popBack i | .reverse i | .sort i _ | .insertOrdered i .. => [i]

theorem Call.abs_of_not_mem (c : Call ι α) {k : ι} (hk : k ∉ c.lists) :
    (c.abs L seqs).1 k = seqs k := by
  cases c <;> simp_all [Call.lists, Call.abs, Function.update_of_ne]

theorem IsList.eq {l : DList α} {xs ys : List α} (hx : IsList h l xs) (hy : IsList h l ys) :
    xs = ys := by
  have e := (hx.forward_eq (show xs.length < xs.length + ys.length + 1 by omega)).symm.trans
    (hy.forward_eq (show ys.length < xs.length + ys.length + 1 by omega))
  exact Option.some.inj e

/-- **Every allowed call that returns keeps the invariant**, and changes no list it does not act
on. -/
theorem Inv.step (hi : Inv L h seqs) {fuel : Nat} {c : Call ι α} (hc : c.Allowed L seqs)
    {r : Option α} (hrun : c.run L fuel h = some (h', r)) :
    ∃ seqs', Inv L h' seqs' ∧ ∀ k ∉ c.lists, seqs' k = seqs k := by
  have hstruct : c.Structural → (∀ i, c = .reverse i → (seqs i).length < fuel) →
      ∃ seqs', Inv L h' seqs' ∧ ∀ k ∉ c.lists, seqs' k = seqs k := fun hs hf => by
    obtain ⟨h'', hrun', hinv⟩ := hi.structural hf hc hs
    rw [hrun, Option.some.injEq, Prod.mk.injEq] at hrun'
    exact ⟨_, hrun'.1 ▸ hinv, fun k hk => c.abs_of_not_mem hk⟩
  cases c with
  | reverse i =>
    simp only [Call.run, Option.map_eq_some_iff, Prod.mk.injEq] at hrun
    obtain ⟨g, hrev, rfl, -⟩ := hrun
    obtain ⟨h'', hrev', hinv⟩ := hi.reverse (show (seqs i).length < (seqs i).length + fuel + 1 by omega)
    rw [listReverse_mono hrev (by omega), Option.some.injEq] at hrev'
    exact ⟨_, hrev' ▸ hinv, fun k hk => Function.update_of_ne (by simpa [Call.lists] using hk) _ _⟩
  | sort i less =>
    simp only [Call.run, Option.map_eq_some_iff, Prod.mk.injEq] at hrun
    obtain ⟨g, hsort, rfl, -⟩ := hrun
    obtain ⟨ys, -, hinv⟩ := hi.sort hsort
    exact ⟨_, hinv, fun k hk => Function.update_of_ne (by simpa [Call.lists] using hk) _ _⟩
  | insertOrdered i elem less =>
    simp only [Call.run, Option.map_eq_some_iff, Prod.mk.injEq] at hrun
    obtain ⟨g, hins, rfl, -⟩ := hrun
    obtain ⟨A, B, -, hinv⟩ := hi.insertOrdered hc hins
    exact ⟨_, hinv, fun k hk => Function.update_of_ne (by simpa [Call.lists] using hk) _ _⟩
  | unique i dup less =>
    simp only [Call.run, Option.map_eq_some_iff, Prod.mk.injEq] at hrun
    obtain ⟨g, huniq, rfl, -⟩ := hrun
    obtain ⟨ys, zs, -, -, hinv⟩ := hi.unique hc huniq
    refine ⟨_, hinv, fun k hk => ?_⟩
    cases dup with
    | none => exact Function.update_of_ne (by simpa [Call.lists] using hk) _ _
    | some d =>
      simp only [Call.lists, Option.toList_some, List.mem_cons, not_or, List.not_mem_nil] at hk
      show Function.update (Function.update seqs d (seqs d ++ zs)) i ys k = seqs k
      rw [Function.update_of_ne hk.1, Function.update_of_ne hk.2.1]
  | init i => exact hstruct trivial (by simp)
  | insert => exact hstruct trivial (by simp)
  | pushFront => exact hstruct trivial (by simp)
  | pushBack => exact hstruct trivial (by simp)
  | remove => exact hstruct trivial (by simp)
  | popFront => exact hstruct trivial (by simp)
  | popBack => exact hstruct trivial (by simp)
  | splice => exact hstruct trivial (by simp)

/-- One call on the lists of the heap: every list is well formed, and the call's precondition
holds of what they hold. -/
def Step (L : ι → DList α) (fuel : Nat) (h h' : Heap α) : Prop :=
  ∃ seqs c r, (∀ i, IsList h (L i) (seqs i)) ∧ Call.Allowed L seqs c ∧ c.run L fuel h = some (h', r)

theorem Inv.of_reachable {fuel : Nat} {h₀ : Heap α} (h0 : Inv L h₀ fun _ => [])
    (hr : Relation.ReflTransGen (Step L fuel) h₀ h) : ∃ seqs, Inv L h seqs := by
  induction hr with
  | refl => exact ⟨_, h0⟩
  | tail _ hstep ih =>
    obtain ⟨seqs, hi⟩ := ih
    obtain ⟨seqs₁, c, r, hl, hc, hrun⟩ := hstep
    have e : seqs₁ = seqs := funext fun i => (hl i).eq (hi.lists i)
    subst e
    obtain ⟨seqs', hi', -⟩ := hi.step hc hrun
    exact ⟨seqs', hi'⟩

theorem list_refines_seq {fuel : Nat} {h₀ : Heap α} (h0 : Inv L h₀ fun _ => [])
    (hr : Relation.ReflTransGen (Step L fuel) h₀ h) :
    ∃ seqs, Inv L h seqs ∧
      (∀ i n, (seqs i).length < n →
        forward h (L i) n = some (seqs i) ∧ backward h (L i) n = some (seqs i).reverse) ∧
      (∀ c : Call ι α, c.Allowed L seqs → c.Structural → (∀ k, (seqs k).length < fuel) →
        ∃ h', c.run L fuel h = some (h', (c.abs L seqs).2) ∧ Inv L h' (c.abs L seqs).1 ∧
          ∀ k ∉ c.lists, (c.abs L seqs).1 k = seqs k) ∧
      ∀ (c : Call ι α) h' r, c.Allowed L seqs → c.run L fuel h = some (h', r) →
        ∃ seqs', Inv L h' seqs' ∧ ∀ k ∉ c.lists, seqs' k = seqs k := by
  obtain ⟨seqs, hi⟩ := Inv.of_reachable h0 hr
  refine ⟨seqs, hi, fun i n hn => ⟨(hi.lists i).forward_eq hn, (hi.lists i).backward_eq hn⟩,
    fun c hc hs hf => ?_, fun c h' r hc hrun => hi.step hc hrun⟩
  obtain ⟨h', hrun, hinv⟩ := hi.structural (fun i _ => hf i) hc hs
  exact ⟨h', hrun, hinv, fun k hk => c.abs_of_not_mem hk⟩

/-! ## Two lists, initialised and pushed to -/

/-- Two lists with headers `0, 1` and `2, 3`. -/
def twoLists (b : Bool) : DList Nat := if b then ⟨0, 1⟩ else ⟨2, 3⟩

/-- Both lists after `list_init`. -/
def listsInit : Heap Nat :=
  listInit (listInit ⟨fun _ => ⟨none, none⟩⟩ (twoLists true)) (twoLists false)

/-- Element `5` pushed to the back of the first list. -/
def listsPushed : Heap Nat := (listPushBack listsInit (twoLists true) 5).getD listsInit

theorem listsInit_inv : Inv twoLists listsInit fun _ => [] := by
  refine ⟨fun i => ?_, fun i j hij => ?_⟩
  · cases i <;> decide
  · cases i <;> cases j <;> first | exact absurd rfl hij | decide

theorem list_refines_seq_push :
    ∃ seqs, Inv twoLists listsPushed seqs ∧
      (∀ i n, (seqs i).length < n → forward listsPushed (twoLists i) n = some (seqs i) ∧
        backward listsPushed (twoLists i) n = some (seqs i).reverse) ∧
      (∀ c : Call Bool Nat, c.Allowed twoLists seqs → c.Structural → (∀ k, (seqs k).length < 4) →
        ∃ h', c.run twoLists 4 listsPushed = some (h', (c.abs twoLists seqs).2) ∧
          Inv twoLists h' (c.abs twoLists seqs).1 ∧ ∀ k ∉ c.lists, (c.abs twoLists seqs).1 k = seqs k) ∧
      ∀ (c : Call Bool Nat) h' r, c.Allowed twoLists seqs → c.run twoLists 4 listsPushed = some (h', r) →
        ∃ seqs', Inv twoLists h' seqs' ∧ ∀ k ∉ c.lists, seqs' k = seqs k := by
  have hfresh : Fresh twoLists (fun _ => []) 5 := fun k => by cases k <;> decide
  exact list_refines_seq listsInit_inv (.single ⟨fun _ => [], .pushBack true 5, none,
    listsInit_inv.lists, hfresh, rfl⟩)

end Pintos.KList
