import Mathlib.Data.List.Perm.Basic
import Mathlib.Algebra.Ring.Nat
import Mathlib.Algebra.Ring.Int.Defs

/-! # Tables of slots read as association lists

A table is a list of slots, each of which holds a binding or nothing (`view : α → Option β`).
Overwriting one slot changes the bindings by what it held and what it now holds, up to order;
and an association list whose keys are distinct is the finite map that `List.lookup` reads.
-/

namespace Slots
set_option autoImplicit false

variable {α β κ ν : Type}

theorem filterMap_cons_eq (f : α → Option β) (x : α) (l : List α) :
    (x :: l).filterMap f = (f x).toList ++ l.filterMap f := by
  cases h : f x <;> simp [h]

theorem filterMap_set_perm (f : α → Option β) (b : α) :
    ∀ (l : List α) (j : Nat) {a : α}, l[j]? = some a →
      ((l.set j b).filterMap f ++ (f a).toList).Perm (l.filterMap f ++ (f b).toList)
  | [], _, _, h => by simp at h
  | x :: l, 0, a, h => by
    obtain rfl : x = a := by simpa using h
    rw [List.set_cons_zero, filterMap_cons_eq, filterMap_cons_eq]
    calc List.Perm ((f b).toList ++ l.filterMap f ++ (f x).toList)
          ((f x).toList ++ ((f b).toList ++ l.filterMap f)) := List.perm_append_comm
      List.Perm _ ((f x).toList ++ (l.filterMap f ++ (f b).toList)) :=
          List.perm_append_comm.append_left _
      _ = (f x).toList ++ l.filterMap f ++ (f b).toList := (List.append_assoc _ _ _).symm
  | x :: l, j + 1, a, h => by
    rw [List.set_cons_succ, filterMap_cons_eq, filterMap_cons_eq, List.append_assoc,
      List.append_assoc]
    exact (filterMap_set_perm f b l j (by simpa using h)).append_left _

theorem eq_of_nodup_keys {f : α → Option β} {g : β → κ} :
    ∀ {l : List α}, ((l.filterMap f).map g).Nodup → ∀ {i j : Nat} {a b : α} {x y : β},
      l[i]? = some a → l[j]? = some b → f a = some x → f b = some y → g x = g y → i = j
  | [], _, _, _, _, _, _, _, h, _, _, _, _ => by simp at h
  | c :: l, hnd, i, j, a, b, x, y, hi, hj, hx, hy, hg => by
    have hmem : ∀ {k : Nat} {d : α} {z : β}, l[k]? = some d → f d = some z →
        g z ∈ (l.filterMap f).map g := fun hk hz =>
      List.mem_map.mpr ⟨_, List.mem_filterMap.mpr ⟨_, List.mem_of_getElem? hk, hz⟩, rfl⟩
    cases i with
    | zero =>
      obtain rfl : c = a := by simpa using hi
      rw [List.filterMap_cons_some hx, List.map_cons, List.nodup_cons] at hnd
      cases j with
      | zero => rfl
      | succ j => exact absurd (hg ▸ hmem (by simpa using hj) hy) hnd.1
    | succ i =>
      cases j with
      | zero =>
        obtain rfl : c = b := by simpa using hj
        rw [List.filterMap_cons_some hy, List.map_cons, List.nodup_cons] at hnd
        exact absurd (hg.symm ▸ hmem (by simpa using hi) hx) hnd.1
      | succ j =>
        have hnd' : ((l.filterMap f).map g).Nodup := by
          rw [filterMap_cons_eq, List.map_append] at hnd
          exact List.Nodup.sublist (List.sublist_append_right _ _) hnd
        exact congrArg (· + 1) (eq_of_nodup_keys hnd' (by simpa using hi) (by simpa using hj) hx hy hg)

variable [BEq κ] [LawfulBEq κ]

theorem lookup_eq_some_iff_mem : ∀ {L : List (κ × ν)}, (L.map Prod.fst).Nodup →
    ∀ {k : κ} {v : ν}, List.lookup k L = some v ↔ (k, v) ∈ L
  | [], _, _, _ => by simp
  | (k', v') :: L, hnd, k, v => by
    have ⟨hk', hnd'⟩ := List.nodup_cons.mp hnd
    rw [List.lookup_cons, List.mem_cons]
    by_cases hk : k = k'
    · subst hk
      have : (k, v) ∉ L := fun hm => hk' (List.mem_map.mpr ⟨_, hm, rfl⟩)
      simp [this, eq_comm]
    · have : (k == k') = false := beq_false_of_ne hk
      simp only [this, lookup_eq_some_iff_mem hnd', Prod.mk.injEq, hk, false_and, false_or]

theorem lookup_eq_none_iff {L : List (κ × ν)} {k : κ} :
    List.lookup k L = none ↔ k ∉ L.map Prod.fst := by
  induction L with
  | nil => simp
  | cons p L ih =>
    obtain ⟨k', v'⟩ := p
    rw [List.lookup_cons]
    by_cases hk : k = k'
    · subst hk
      simp
    · simp [beq_false_of_ne hk, ih, hk]

theorem lookup_of_perm_cons [DecidableEq κ] {L L' : List (κ × ν)} {k : κ} {v : ν}
    (hp : L'.Perm ((k, v) :: L)) (hnd : (L'.map Prod.fst).Nodup) :
    (fun k' => List.lookup k' L') = Function.update (fun k' => List.lookup k' L) k (some v) := by
  have hnd₀ : ((k, v) :: L).map Prod.fst |>.Nodup := (hp.map Prod.fst).nodup_iff.mp hnd
  have hnd₁ : (L.map Prod.fst).Nodup := (List.nodup_cons.mp hnd₀).2
  have hk : k ∉ L.map Prod.fst := (List.nodup_cons.mp hnd₀).1
  funext k'
  by_cases hkk : k' = k
  · subst hkk
    rw [Function.update_self, lookup_eq_some_iff_mem hnd, hp.mem_iff]
    exact List.mem_cons_self
  · rw [Function.update_of_ne hkk]
    cases hv : List.lookup k' L with
    | none =>
      rw [lookup_eq_none_iff, (hp.map Prod.fst).mem_iff]
      rw [lookup_eq_none_iff] at hv
      simpa [hkk] using hv
    | some w =>
      rw [lookup_eq_some_iff_mem hnd, hp.mem_iff, List.mem_cons]
      exact Or.inr ((lookup_eq_some_iff_mem hnd₁).mp hv)

theorem lookup_of_perm_cons_erase [DecidableEq κ] {L L' : List (κ × ν)} {k : κ} {v : ν}
    (hp : L.Perm ((k, v) :: L')) (hnd : (L.map Prod.fst).Nodup) :
    (fun k' => List.lookup k' L') = Function.update (fun k' => List.lookup k' L) k none := by
  have hnd₀ : ((k, v) :: L').map Prod.fst |>.Nodup := (hp.map Prod.fst).nodup_iff.mp hnd
  have hk : k ∉ L'.map Prod.fst := (List.nodup_cons.mp hnd₀).1
  rw [lookup_of_perm_cons hp hnd]
  funext k'
  by_cases hkk : k' = k
  · subst hkk
    rw [Function.update_self]
    exact lookup_eq_none_iff.mpr hk
  · rw [Function.update_of_ne hkk, Function.update_of_ne hkk]

end Slots
