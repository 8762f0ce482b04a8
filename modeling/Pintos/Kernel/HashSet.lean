import Pintos.Kernel.Hash
import Mathlib.Data.Nat.Log

/-! # The hash table refines a set of elements up to equivalence

For `LESS` a strict weak order and `HASH` equal on equivalent elements, a table holds a finite set
in which no two elements are equivalent, and each operation answers as the set does: with the
element equivalent to its argument, if there is one. `Inv` is the representation invariant:
`bucket_cnt` is a power of two of at least `4`, every element lies in the bucket of its hash,
no two elements are equivalent, and `elem_cnt` counts them. Every operation keeps it, whatever
`rehash`'s `malloc` returns, and a run of operations on a table is a run of the same operations
on its set (`hash_refines_equiv_set`).
-/

namespace Pintos.KHash
open WeakOrder
set_option autoImplicit false

variable {α : Type}

/-- `a` and `b` are equal under `LESS`: neither is less than the other. -/
def Same (less : α → α → Bool) (a b : α) : Prop := Equiv (fun a b => less a b = true) a b

/-! ## The abstract set -/

section Abstract
variable (less : α → α → Bool)

/-- No two elements of `S` are equivalent. -/
def Apart (S : Set α) : Prop := ∀ x ∈ S, ∀ y ∈ S, Same less x y → x = y

/-- What a lookup of `e` in `S` may answer: an element equivalent to `e`, or `none` when `S`
has none. -/
def IsLookup (S : Set α) (e : α) : Option α → Prop
  | some x => x ∈ S ∧ Same less x e
  | none => ∀ x ∈ S, ¬Same less x e

open Classical in
/-- The element of `S` equivalent to `e`, if there is one. -/
noncomputable def lookup (S : Set α) (e : α) : Option α :=
  if h : ∃ x ∈ S, Same less x e then some (Classical.choose h) else none

inductive Op (α : Type) where
  | insert (e : α) (allocOk : Bool)
  | replace (e : α) (allocOk : Bool)
  | delete (e : α) (allocOk : Bool)
  | find (e : α)
  | clear

/-- The set after an operation whose lookup answered `o`. -/
def Op.next (S : Set α) : Op α → Option α → Set α
  | .insert _ _, some _ => S
  | .insert e _, none => Set.insert e S
  | .replace e _, some x => Set.insert e (S \ {x})
  | .replace e _, none => Set.insert e S
  | .delete _ _, some x => S \ {x}
  | .delete _ _, none => S
  | .find _, _ => S
  | .clear, _ => ∅

/-- What an operation returns on the set. -/
noncomputable def Op.answer (S : Set α) : Op α → Option α
  | .insert e _ | .replace e _ | .delete e _ | .find e => lookup less S e
  | .clear => none

/-- A run of operations on the set: the set at the end and the answers. -/
noncomputable def absRun : Set α → List (Op α) → Set α × List (Option α)
  | S, [] => (S, [])
  | S, op :: ops =>
    let o := op.answer less S
    let r := absRun (op.next S o) ops
    (r.1, o :: r.2)

theorem isLookup_lookup (S : Set α) (e : α) : IsLookup less S e (lookup less S e) := by
  unfold lookup
  split
  · rename_i h
    exact Classical.choose_spec h
  · rename_i h
    exact fun x hx hxe => h ⟨x, hx, hxe⟩

variable {less} [IsStrictWeakOrder α fun a b => less a b = true]

theorem same_trans {a b c : α} (hab : Same less a b) (hbc : Same less b c) : Same less a c :=
  equivalence_equiv.trans hab hbc

theorem same_symm {a b : α} (hab : Same less a b) : Same less b a := equivalence_equiv.symm hab

theorem IsLookup.eq_lookup {S : Set α} (hS : Apart less S) {e : α} {o : Option α}
    (h : IsLookup less S e o) : o = lookup less S e := by
  have hl := isLookup_lookup less S e
  cases o with
  | none =>
    cases hlo : lookup less S e with
    | none => rfl
    | some y =>
      rw [hlo] at hl
      exact absurd hl.2 (h y hl.1)
  | some x =>
    cases hlo : lookup less S e with
    | none =>
      rw [hlo] at hl
      exact absurd h.2 (hl x h.1)
    | some y =>
      rw [hlo] at hl
      rw [hS x h.1 y hl.1 (same_trans h.2 (same_symm hl.2))]

end Abstract

/-! ## The invariant -/

/-- The elements a table holds. -/
def elems (h : Hash α) : Set α := {x | x ∈ h.buckets.flatten}

structure Inv (hash : α → UInt32) (less : α → α → Bool) (h : Hash α) : Prop where
  fns : h.hash = hash ∧ h.less = less
  pow : ∃ k, h.bucketCnt = 2 ^ k
  four : 4 ≤ h.bucketCnt
  length : h.buckets.length = h.bucketCnt
  home : ∀ i, ∀ e ∈ h.bucket i, findBucket h e = i
  apart : h.buckets.flatten.Pairwise fun a b => ¬Same less a b
  count : h.elemCnt = h.buckets.flatten.length

section Inv
variable {hash : α → UInt32} {less : α → α → Bool} {h : Hash α}

theorem findBucket_eq_mod {k : Nat} (hk : h.bucketCnt = 2 ^ k) (e : α) :
    findBucket h e = (h.hash e).toNat % 2 ^ k := by
  rw [findBucket, hk, Nat.and_two_pow_sub_one_eq_mod]

theorem Inv.findBucket_lt (hinv : Inv hash less h) (e : α) : findBucket h e < h.buckets.length := by
  obtain ⟨k, hk⟩ := hinv.pow
  rw [findBucket_eq_mod hk, hinv.length, hk]
  exact Nat.mod_lt _ (Nat.two_pow_pos k)

theorem mem_flatten_iff_bucket {x : α} :
    x ∈ h.buckets.flatten ↔ ∃ i < h.buckets.length, x ∈ h.bucket i := by
  rw [List.mem_flatten]
  constructor
  · rintro ⟨l, hl, hx⟩
    obtain ⟨i, hi, rfl⟩ := List.mem_iff_getElem.mp hl
    refine ⟨i, hi, ?_⟩
    rwa [Hash.bucket, List.getD_eq_getElem?_getD, List.getElem?_eq_getElem hi, Option.getD_some]
  · rintro ⟨i, hi, hx⟩
    rw [Hash.bucket, List.getD_eq_getElem?_getD, List.getElem?_eq_getElem hi, Option.getD_some] at hx
    exact ⟨_, List.getElem_mem hi, hx⟩

theorem Inv.mem_iff_bucket (hinv : Inv hash less h) {x : α} :
    x ∈ elems h ↔ x ∈ h.bucket (findBucket h x) := by
  refine ⟨fun hx => ?_, fun hx => mem_flatten_iff_bucket.mpr ⟨_, hinv.findBucket_lt x, hx⟩⟩
  obtain ⟨i, -, hxi⟩ := mem_flatten_iff_bucket.mp hx
  rwa [hinv.home i x hxi]

theorem Inv.nodup (hinv : Inv hash less h) [IsStrictWeakOrder α fun a b => less a b = true] :
    h.buckets.flatten.Nodup :=
  hinv.apart.imp fun {a _} hne hab => by
    subst hab
    exact hne (equivalence_equiv.refl a)

theorem Inv.elems_apart (hinv : Inv hash less h) [IsStrictWeakOrder α fun a b => less a b = true] :
    Apart less (elems h) := by
  have : Std.Symm fun a b => ¬Same less a b := ⟨fun _ _ h h' => h (same_symm h')⟩
  intro x hx y hy hxy
  by_contra hne
  exact hinv.apart.forall hx hy hne hxy

theorem same_iff {less : α → α → Bool} {a b : α} :
    Same less a b ↔ (!less a b && !less b a) = true := by
  simp [Same, WeakOrder.Equiv]

@[simp] theorem findBucket_insertElem (b : Nat) (e : α) :
    findBucket (insertElem h b e) = findBucket h := rfl

@[simp] theorem findBucket_removeElem [DecidableEq α] (x : α) :
    findBucket (removeElem h x) = findBucket h := rfl

theorem bucket_removeElem [DecidableEq α] (x : α) (i : Nat) :
    (removeElem h x).bucket i = (h.bucket i).erase x := by
  simp only [Hash.bucket, removeElem, List.getD_eq_getElem?_getD, List.getElem?_map]
  cases h.buckets[i]? <;> rfl

/-- `find_elem` in the bucket of `e` answers the lookup of `e`: an element equivalent to `e` has
the hash of `e`, so it lies in that bucket. -/
theorem Inv.findElem_isLookup (hinv : Inv hash less h)
    (hcompat : ∀ a b, Same less a b → hash a = hash b) (e : α) :
    IsLookup less (elems h) e (findElem h (findBucket h e) e) := by
  unfold findElem
  cases hf : (h.bucket (findBucket h e)).find? (fun hi => !h.less hi e && !h.less e hi) with
  | some x =>
    have hx := List.mem_of_find?_eq_some hf
    have hp := List.find?_some hf
    refine ⟨hinv.mem_iff_bucket.mpr (by rwa [hinv.home _ x hx]), same_iff.mpr ?_⟩
    rw [← hinv.fns.2]
    exact hp
  | none =>
    intro x hx hxe
    have hb : findBucket h x = findBucket h e := by
      simp only [findBucket, hinv.fns.1, hcompat x e hxe]
    refine List.find?_eq_none.mp hf x (hb ▸ hinv.mem_iff_bucket.mp hx) ?_
    rw [hinv.fns.2]
    exact same_iff.mp hxe

variable [IsStrictWeakOrder α fun a b => less a b = true]

theorem Inv.findElem_eq (hinv : Inv hash less h) (hcompat : ∀ a b, Same less a b → hash a = hash b)
    (e : α) : findElem h (findBucket h e) e = lookup less (elems h) e :=
  (hinv.findElem_isLookup hcompat e).eq_lookup hinv.elems_apart

theorem apart_perm {l l' : List α} (hp : l.Perm l') (h : l.Pairwise fun a b => ¬Same less a b) :
    l'.Pairwise fun a b => ¬Same less a b :=
  (hp.pairwise_iff fun {_ _} hab hba => hab (same_symm hba)).mp h

theorem Inv.insertElem_fresh (hinv : Inv hash less h) {e : α} (hfresh : ∀ x ∈ elems h, ¬Same less x e) :
    Inv hash less (insertElem h (findBucket h e) e) ∧
      elems (insertElem h (findBucket h e) e) = Set.insert e (elems h) := by
  have hb := hinv.findBucket_lt e
  have hperm : (insertElem h (findBucket h e) e).buckets.flatten.Perm (e :: h.buckets.flatten) :=
    Buckets.flatten_modify_cons hb e
  refine ⟨⟨hinv.fns, hinv.pow, hinv.four, ?_, fun i x hx => ?_, ?_, ?_⟩, ?_⟩
  · rw [insertElem, List.length_modify, hinv.length]
  · rw [insertElem, Hash.bucket, Buckets.getD_modify_cons hb] at hx
    split at hx
    · rcases List.mem_cons.mp hx with rfl | hx
      · assumption
      · exact hinv.home i x hx
    · exact hinv.home i x hx
  · refine apart_perm hperm.symm (List.pairwise_cons.mpr ⟨fun x hx hex => ?_, hinv.apart⟩)
    exact hfresh x hx (same_symm hex)
  · rw [hperm.length_eq, List.length_cons, ← hinv.count]
    rfl
  · ext x
    simp only [elems, Set.mem_ofPred_eq, hperm.mem_iff, List.mem_cons]
    rfl

theorem Inv.removeElem_mem [DecidableEq α] (hinv : Inv hash less h) {x : α} (hx : x ∈ elems h) :
    Inv hash less (removeElem h x) ∧ elems (removeElem h x) = elems h \ {x} := by
  have hflat : (removeElem h x).buckets.flatten = h.buckets.flatten.erase x :=
    Buckets.flatten_map_erase x h.buckets hinv.nodup
  refine ⟨⟨hinv.fns, hinv.pow, hinv.four, ?_, fun i e he => ?_, ?_, ?_⟩, ?_⟩
  · rw [removeElem, List.length_map, hinv.length]
  · rw [bucket_removeElem] at he
    exact hinv.home i e (List.mem_of_mem_erase he)
  · rw [hflat]
    exact hinv.apart.sublist List.erase_sublist
  · rw [hflat, List.length_erase_of_mem hx, ← hinv.count]
    rfl
  · ext y
    simp only [elems, Set.mem_ofPred_eq, hflat, hinv.nodup.mem_erase_iff, Set.mem_sdiff,
      Set.mem_singleton_iff]
    exact and_comm

end Inv

/-! ## Rehashing -/

theorem isPowerOf2_two_pow (k : Nat) : isPowerOf2 (2 ^ k) = true := by
  simp [isPowerOf2, turnOffLeast1bit]

/-- The loop of `rehash` turns off low bits of `x` until only its highest one, `2 ^ k`, is
left; `x - 2 ^ k` rounds are enough. -/
theorem powerOf2Loop_eq (k : Nat) (fuel : Nat) :
    ∀ x, 2 ^ k ≤ x → x < 2 ^ (k + 1) → x - 2 ^ k < fuel → powerOf2Loop fuel x = 2 ^ k := by
  induction fuel with
  | zero => intro x _ _ hf; omega
  | succ fuel ih =>
    intro x hlo hhi hf
    by_cases hx : x = 2 ^ k
    · subst hx
      rw [powerOf2Loop, if_pos (isPowerOf2_two_pow k)]
    · have hlt : 2 ^ k < x := lt_of_le_of_ne hlo (Ne.symm hx)
      have hstep : 2 ^ k ≤ turnOffLeast1bit x := Word.two_pow_le_and_sub_one hlt hhi
      have hdown : turnOffLeast1bit x < x := Word.and_sub_one_lt (by omega)
      have hnot : isPowerOf2 x = false := by
        have hpos := Nat.two_pow_pos k
        have hne : turnOffLeast1bit x ≠ 0 := by omega
        simp [isPowerOf2, hne]
      simp only [powerOf2Loop, hnot, Bool.false_eq_true, if_false]
      exact ih _ hstep (by omega) (by omega)

theorem newBucketCnt_pow (n : Nat) : ∃ k, newBucketCnt n = 2 ^ k ∧ 4 ≤ 2 ^ k := by
  obtain ⟨x, hx, h4⟩ : ∃ x, newBucketCnt n = powerOf2Loop x x ∧ 4 ≤ x :=
    ⟨_, rfl, by split <;> omega⟩
  have hlo : 2 ^ Nat.log 2 x ≤ x := Nat.pow_log_le_self 2 (by omega)
  have hhi : x < 2 ^ (Nat.log 2 x + 1) := Nat.lt_pow_succ_log_self (by decide) x
  have hpos := Nat.two_pow_pos (Nat.log 2 x)
  refine ⟨Nat.log 2 x, hx.trans (powerOf2Loop_eq _ x x hlo hhi (by omega)), ?_⟩
  -- `4 ≤ x < 2 ^ (log x + 1)` puts the highest bit of `x` at `2 ^ 2` or above
  have hk : 2 ≤ Nat.log 2 x := by
    by_contra hk
    have : 2 ^ (Nat.log 2 x + 1) ≤ 2 ^ 2 := Nat.pow_le_pow_right (by decide) (by omega)
    omega
  calc 4 = 2 ^ 2 := rfl
    _ ≤ 2 ^ Nat.log 2 x := Nat.pow_le_pow_right (by decide) hk

section Rehash
variable {hash : α → UInt32} {less : α → α → Bool} {h : Hash α}
  [IsStrictWeakOrder α fun a b => less a b = true]

theorem Inv.moveTo (hinv : Inv hash less h) {n k : Nat} (hk : n = 2 ^ k) (h4 : 4 ≤ n) :
    Inv hash less (moveTo h n) ∧ elems (moveTo h n) = elems h := by
  let h0 : Hash α := { h with bucketCnt := n, buckets := List.replicate n [] }
  have hmove : moveElems h0 h.buckets =
      h.buckets.flatten.foldl (fun bs e => bs.modify (findBucket h0 e) (e :: ·)) (List.replicate n []) := by
    rw [moveElems, List.foldl_flatten]
  have hf : ∀ e ∈ h.buckets.flatten, findBucket h0 e < (List.replicate n ([] : List α)).length := by
    intro e _
    rw [List.length_replicate, findBucket_eq_mod (h := h0) hk, hk]
    exact Nat.mod_lt _ (Nat.two_pow_pos k)
  have hperm : (moveElems h0 h.buckets).flatten.Perm h.buckets.flatten := by
    rw [hmove]
    simpa using Buckets.flatten_foldl_modify (findBucket h0) _ _ hf
  refine ⟨⟨hinv.fns, ⟨k, hk⟩, h4, ?_, fun i e he => ?_, apart_perm hperm.symm hinv.apart, ?_⟩, ?_⟩
  · show (moveElems h0 h.buckets).length = n
    rw [hmove, Buckets.length_foldl_modify, List.length_replicate]
  · have he' : e ∈ (moveElems h0 h.buckets).getD i [] := he
    rw [hmove, Buckets.getD_foldl_modify _ _ _ hf] at he'
    simp only [Buckets.getD_replicate_nil, List.append_nil, List.mem_reverse, List.mem_filter,
      decide_eq_true_eq] at he'
    exact he'.2
  · show h.elemCnt = (moveElems h0 h.buckets).flatten.length
    rw [hperm.length_eq, hinv.count]
  · ext x
    exact hperm.mem_iff

theorem Inv.rehash (hinv : Inv hash less h) (ok : Bool) :
    Inv hash less (KHash.rehash h ok) ∧ elems (KHash.rehash h ok) = elems h := by
  dsimp only [KHash.rehash]
  by_cases hc : newBucketCnt h.elemCnt = h.bucketCnt
  · rw [if_pos hc]
    exact ⟨hinv, rfl⟩
  · rw [if_neg hc]
    cases ok
    · exact ⟨hinv, rfl⟩
    · obtain ⟨k, hk, h4⟩ := newBucketCnt_pow h.elemCnt
      exact hinv.moveTo hk (hk ▸ h4)

end Rehash

/-! ## The operations -/

/-- One call of the table's interface. -/
def Op.exec [DecidableEq α] (h : Hash α) : Op α → Hash α × Option α
  | .insert e ok => hashInsert h e ok
  | .replace e ok => hashReplace h e ok
  | .delete e ok => hashDelete h e ok
  | .find e => (h, hashFind h e)
  | .clear => ((hashClear h (none : Option (Unit → α → Unit)) ()).1, none)

/-- A run of calls on a table: the table at the end and what the calls returned. -/
def run [DecidableEq α] : Hash α → List (Op α) → Hash α × List (Option α)
  | h, [] => (h, [])
  | h, op :: ops =>
    let r := op.exec h
    let rs := run r.1 ops
    (rs.1, r.2 :: rs.2)

/-- A call took `h` to `h'` and returned `o` as the operation on the set does. -/
def Answers (hash : α → UInt32) (less : α → α → Bool) (h h' : Hash α) (op : Op α) (o : Option α) :
    Prop :=
  Inv hash less h' ∧ o = op.answer less (elems h) ∧ elems h' = op.next (elems h) o

section Ops
variable {hash : α → UInt32} {less : α → α → Bool} {h : Hash α}
  [IsStrictWeakOrder α fun a b => less a b = true]
  (hcompat : ∀ a b, Same less a b → hash a = hash b)
include hcompat

theorem Inv.hashInsert (hinv : Inv hash less h) (e : α) (ok : Bool) :
    Answers hash less h (hashInsert h e ok).1 (.insert e ok) (hashInsert h e ok).2 := by
  have hl := hinv.findElem_isLookup hcompat e
  have heq := hinv.findElem_eq hcompat e
  cases ho : findElem h (findBucket h e) e with
  | none =>
    rw [ho] at hl heq
    obtain ⟨hinv1, hel1⟩ := hinv.insertElem_fresh hl
    obtain ⟨hinv2, hel2⟩ := hinv1.rehash ok
    simp only [KHash.hashInsert, ho, Option.isNone_none, if_true]
    exact ⟨hinv2, heq, hel2.trans hel1⟩
  | some x =>
    rw [ho] at heq
    obtain ⟨hinv2, hel2⟩ := hinv.rehash ok
    simp only [KHash.hashInsert, ho, Option.isNone_some, Bool.false_eq_true, if_false]
    exact ⟨hinv2, heq, hel2⟩

theorem Inv.hashReplace [DecidableEq α] (hinv : Inv hash less h) (e : α) (ok : Bool) :
    Answers hash less h (hashReplace h e ok).1 (.replace e ok) (hashReplace h e ok).2 := by
  have hl := hinv.findElem_isLookup hcompat e
  have heq := hinv.findElem_eq hcompat e
  cases ho : findElem h (findBucket h e) e with
  | none =>
    rw [ho] at hl heq
    obtain ⟨hinv1, hel1⟩ := hinv.insertElem_fresh hl
    obtain ⟨hinv2, hel2⟩ := hinv1.rehash ok
    simp only [KHash.hashReplace, ho]
    exact ⟨hinv2, heq, hel2.trans hel1⟩
  | some x =>
    rw [ho] at hl heq
    obtain ⟨hinv1, hel1⟩ := hinv.removeElem_mem hl.1
    -- nothing left is equivalent to `e`: it would be equivalent to `x`, which was the only one
    have hfresh : ∀ y ∈ elems (removeElem h x), ¬Same less y e := by
      intro y hy hye
      rw [hel1] at hy
      exact hy.2 (hinv.elems_apart y hy.1 x hl.1 (same_trans hye (same_symm hl.2)))
    obtain ⟨hinv2, hel2⟩ := hinv1.insertElem_fresh hfresh
    rw [findBucket_removeElem] at hinv2 hel2
    obtain ⟨hinv3, hel3⟩ := hinv2.rehash ok
    simp only [KHash.hashReplace, ho]
    refine ⟨hinv3, heq, ?_⟩
    rw [hel3, hel2, hel1]
    rfl

theorem Inv.hashDelete [DecidableEq α] (hinv : Inv hash less h) (e : α) (ok : Bool) :
    Answers hash less h (hashDelete h e ok).1 (.delete e ok) (hashDelete h e ok).2 := by
  have hl := hinv.findElem_isLookup hcompat e
  have heq := hinv.findElem_eq hcompat e
  cases ho : findElem h (findBucket h e) e with
  | none =>
    rw [ho] at heq
    simp only [KHash.hashDelete, ho]
    exact ⟨hinv, heq, rfl⟩
  | some x =>
    rw [ho] at hl heq
    obtain ⟨hinv1, hel1⟩ := hinv.removeElem_mem hl.1
    obtain ⟨hinv2, hel2⟩ := hinv1.rehash ok
    simp only [KHash.hashDelete, ho]
    exact ⟨hinv2, heq, hel2.trans hel1⟩

omit [IsStrictWeakOrder α fun a b => less a b = true] hcompat in
theorem Inv.hashClear (hinv : Inv hash less h) {σ : Type} (destructor : Option (σ → α → σ)) (s : σ) :
    Inv hash less (KHash.hashClear h destructor s).1 ∧ elems (KHash.hashClear h destructor s).1 = ∅ := by
  refine ⟨⟨hinv.fns, hinv.pow, hinv.four, List.length_replicate, fun i e he => ?_, ?_, ?_⟩, ?_⟩
  · have he' : e ∈ (List.replicate h.bucketCnt ([] : List α)).getD i [] := he
    rw [Buckets.getD_replicate_nil] at he'
    exact absurd he' List.not_mem_nil
  · simp [KHash.hashClear]
  · simp [KHash.hashClear]
  · ext x
    simp [KHash.hashClear, elems]

/-- One call keeps the invariant, returns what the set's operation returns, and leaves the set
the operation leaves. -/
theorem Inv.exec [DecidableEq α] (hinv : Inv hash less h) (op : Op α) :
    Answers hash less h (op.exec h).1 op (op.exec h).2 := by
  cases op with
  | insert e ok => exact hinv.hashInsert hcompat e ok
  | replace e ok => exact hinv.hashReplace hcompat e ok
  | delete e ok => exact hinv.hashDelete hcompat e ok
  | find e => exact ⟨hinv, hinv.findElem_eq hcompat e, rfl⟩
  | clear =>
    obtain ⟨hinv', hel⟩ := hinv.hashClear (none : Option (Unit → α → Unit)) ()
    exact ⟨hinv', rfl, hel⟩

theorem Inv.run [DecidableEq α] (ops : List (Op α)) :
    ∀ h, Inv hash less h →
      Inv hash less (run h ops).1 ∧ elems (run h ops).1 = (absRun less (elems h) ops).1 ∧
        (run h ops).2 = (absRun less (elems h) ops).2 := by
  induction ops with
  | nil => intro h hinv; exact ⟨hinv, rfl, rfl⟩
  | cons op ops ih =>
    intro h hinv
    obtain ⟨hinv1, hans, hel⟩ := hinv.exec hcompat op
    obtain ⟨hinv2, hel2, hans2⟩ := ih _ hinv1
    refine ⟨hinv2, ?_, ?_⟩
    · simp only [KHash.run, absRun, hel2, hel, hans]
    · simp only [KHash.run, absRun, hans2, hel, hans]

end Ops

theorem hashInit_inv {hash : α → UInt32} {less : α → α → Bool} :
    ∃ h0, hashInit hash less true = some h0 ∧ Inv hash less h0 ∧ elems h0 = ∅ := by
  refine ⟨_, rfl, ⟨⟨rfl, rfl⟩, ⟨2, rfl⟩, le_rfl, rfl, fun i e he => ?_, List.Pairwise.nil, rfl⟩, ?_⟩
  · have he' : e ∈ (List.replicate 4 ([] : List α)).getD i [] := he
    rw [Buckets.getD_replicate_nil] at he'
    exact absurd he' List.not_mem_nil
  · ext x
    simp [elems]

/-- **The hash table refines a finite set up to `LESS`-equivalence.** For `LESS` a strict weak
order and `HASH` equal on equivalent elements, `hash_init` builds a table of the empty set that
keeps the invariant; and from any table that keeps it, every sequence of `hash_insert`,
`hash_replace`, `hash_delete`, `hash_find` and `hash_clear`, each `rehash` with its `malloc`
failing or not, keeps the invariant, holds the set that the same operations leave, and returns
what they return. -/
theorem hash_refines_equiv_set [DecidableEq α] (hash : α → UInt32) (less : α → α → Bool)
    [IsStrictWeakOrder α fun a b => less a b = true]
    (hcompat : ∀ a b, Same less a b → hash a = hash b) :
    (∃ h0, hashInit hash less true = some h0 ∧ Inv hash less h0 ∧ elems h0 = ∅) ∧
      ∀ h, Inv hash less h → ∀ ops : List (Op α),
        Inv hash less (run h ops).1 ∧ elems (run h ops).1 = (absRun less (elems h) ops).1 ∧
          (run h ops).2 = (absRun less (elems h) ops).2 :=
  ⟨hashInit_inv, fun h hinv ops => Inv.run hcompat ops h hinv⟩

/-- Numbers hashed by their value and ordered by `>`. -/
theorem hash_refines_equiv_set_nat :
    (∃ h0, hashInit (fun n : Nat => n.toUInt32) (fun a b => decide (a > b)) true = some h0 ∧
        Inv (fun n : Nat => n.toUInt32) (fun a b => decide (a > b)) h0 ∧ elems h0 = ∅) ∧
      ∀ h, Inv (fun n : Nat => n.toUInt32) (fun a b => decide (a > b)) h → ∀ ops : List (Op Nat),
        Inv (fun n : Nat => n.toUInt32) (fun a b => decide (a > b)) (run h ops).1 ∧
          elems (run h ops).1 = (absRun (fun a b => decide (a > b)) (elems h) ops).1 ∧
          (run h ops).2 = (absRun (fun a b => decide (a > b)) (elems h) ops).2 := by
  have := isStrictWeakOrder_key_gt fun n : Nat => n
  refine hash_refines_equiv_set (fun n : Nat => n.toUInt32) (fun a b => decide (a > b)) ?_
  rintro a b ⟨h1, h2⟩
  simp only [decide_eq_true_eq] at h1 h2
  rw [show a = b by omega]

example : (run ⟨0, 4, List.replicate 4 [], fun n : Nat => n.toUInt32, fun a b => decide (a > b)⟩
    [.insert 3 true, .insert 7 true, .insert 3 true, .delete 7 true, .find 7, .find 3]).2 =
      [none, none, some 3, some 7, none, some 3] := by
  decide

end Pintos.KHash
