import Pintos.Lib.WeakOrder
import Pintos.Lib.Word
import Pintos.Lib.Buckets

/-! # `lib/kernel/hash.c`

A table of `bucket_cnt` buckets, each the sequence of its elements front to back, with the hash
and comparison functions of `struct hash` (their `aux` argument folded in). An element is its
own value, so the `list_remove` of `remove_elem` unlinks it from the one bucket that holds it.
`rehash` takes the outcome of its `malloc` as an argument; `hash_clear` and `hash_apply` fold a
function of the caller's state over the elements they pass to the destructor or the action. An
iterator is its bucket and its place there: the head of the bucket, an element, or `NULL`.

An index past the bucket array reads as an empty bucket; the invariant of `HashSet` keeps every
index in range.
-/

namespace Pintos.KHash
set_option autoImplicit false

def BEST_ELEMS_PER_BUCKET : Nat := 2

structure Hash (α : Type) where
  elemCnt : Nat
  bucketCnt : Nat
  buckets : List (List α)
  hash : α → UInt32
  less : α → α → Bool

variable {α σ : Type}

/-- `h->buckets[i]`. -/
def Hash.bucket (h : Hash α) (i : Nat) : List α := h.buckets.getD i []

def findBucket (h : Hash α) (e : α) : Nat := (h.hash e).toNat &&& (h.bucketCnt - 1)

def findElem (h : Hash α) (bucket : Nat) (e : α) : Option α :=
  (h.bucket bucket).find? fun hi => !h.less hi e && !h.less e hi

def insertElem (h : Hash α) (bucket : Nat) (e : α) : Hash α :=
  { h with elemCnt := h.elemCnt + 1, buckets := h.buckets.modify bucket (e :: ·) }

def removeElem [DecidableEq α] (h : Hash α) (e : α) : Hash α :=
  { h with elemCnt := h.elemCnt - 1, buckets := h.buckets.map (·.erase e) }

def turnOffLeast1bit (x : Nat) : Nat := x &&& (x - 1)

def isPowerOf2 (x : Nat) : Bool := x ≠ 0 && turnOffLeast1bit x = 0

/-- `while (!is_power_of_2 (x)) x = turn_off_least_1bit (x);`, for at most `fuel` rounds. -/
def powerOf2Loop : Nat → Nat → Nat
  | 0, x => x
  | fuel + 1, x => if isPowerOf2 x then x else powerOf2Loop fuel (turnOffLeast1bit x)

/-- The bucket count `rehash` aims for; `x` rounds of the loop are more than it needs. -/
def newBucketCnt (elemCnt : Nat) : Nat :=
  let x := elemCnt / BEST_ELEMS_PER_BUCKET
  let x := if x < 4 then 4 else x
  powerOf2Loop x x

/-- The moves of `rehash` into the buckets of `h`: each element of each old bucket, front to
back, to the front of its new bucket. -/
def moveElems (h : Hash α) (oldBuckets : List (List α)) : List (List α) :=
  oldBuckets.foldl (fun bs bucket => bucket.foldl (fun bs e => bs.modify (findBucket h e) (e :: ·)) bs)
    h.buckets

/-- The table once `rehash` has installed `new_cnt` empty buckets and moved the elements there. -/
def moveTo (h : Hash α) (newCnt : Nat) : Hash α :=
  let h' := { h with bucketCnt := newCnt, buckets := List.replicate newCnt [] }
  { h' with buckets := moveElems h' h.buckets }

def rehash (h : Hash α) (allocOk : Bool) : Hash α :=
  let newCnt := newBucketCnt h.elemCnt
  if newCnt = h.bucketCnt then h
  else if !allocOk then h
  else moveTo h newCnt

def hashInit (hash : α → UInt32) (less : α → α → Bool) (allocOk : Bool) : Option (Hash α) :=
  if allocOk then some ⟨0, 4, List.replicate 4 [], hash, less⟩ else none

def hashClear (h : Hash α) (destructor : Option (σ → α → σ)) (s : σ) : Hash α × σ :=
  let s := (List.range h.bucketCnt).foldl (fun s i =>
    match destructor with
    | some d => (h.bucket i).foldl d s
    | none => s) s
  ({ h with buckets := List.replicate h.bucketCnt [], elemCnt := 0 }, s)

def hashInsert (h : Hash α) (new : α) (allocOk : Bool) : Hash α × Option α :=
  let bucket := findBucket h new
  let old := findElem h bucket new
  let h := if old.isNone then insertElem h bucket new else h
  (rehash h allocOk, old)

def hashReplace [DecidableEq α] (h : Hash α) (new : α) (allocOk : Bool) : Hash α × Option α :=
  let bucket := findBucket h new
  let old := findElem h bucket new
  let h := match old with
    | some old => removeElem h old
    | none => h
  (rehash (insertElem h bucket new) allocOk, old)

def hashFind (h : Hash α) (e : α) : Option α := findElem h (findBucket h e) e

def hashDelete [DecidableEq α] (h : Hash α) (e : α) (allocOk : Bool) : Hash α × Option α :=
  match findElem h (findBucket h e) e with
  | some found => (rehash (removeElem h found) allocOk, some found)
  | none => (h, none)

def hashApply (h : Hash α) (action : σ → α → σ) (s : σ) : σ :=
  (List.range h.bucketCnt).foldl (fun s i => (h.bucket i).foldl action s) s

/-! ## Iteration -/

inductive Cursor where
  | head
  | elem (k : Nat)
  | null
deriving DecidableEq, Repr

structure HashIterator where
  bucket : Nat
  elem : Cursor
deriving DecidableEq, Repr

def hashFirst (_ : Hash α) : HashIterator := ⟨0, .head⟩

/-- The `while` loop of `hash_next`, for at most `fuel` rounds: from place `k` of bucket `b`,
past the end of each bucket to the beginning of the next, or to `NULL` after the last. -/
def nextLoop (h : Hash α) : Nat → Nat → Nat → HashIterator
  | 0, b, k => ⟨b, .elem k⟩
  | fuel + 1, b, k =>
    if k = (h.bucket b).length then
      if b + 1 ≥ h.bucketCnt then ⟨b + 1, .null⟩ else nextLoop h fuel (b + 1) 0
    else ⟨b, .elem k⟩

def hashCur (h : Hash α) (i : HashIterator) : Option α :=
  match i.elem with
  | .elem k => (h.bucket i.bucket)[k]?
  | _ => none

/-- `hash_next`; `list_next` of the element of an iterator at `NULL` is undefined. -/
def hashNext (h : Hash α) (i : HashIterator) : Option (HashIterator × Option α) := do
  let k ← match i.elem with
    | .head => some 0
    | .elem k => some (k + 1)
    | .null => none
  let i := nextLoop h h.bucketCnt i.bucket k
  return (i, hashCur h i)

/-- The elements `while (hash_next (&i))` visits, in at most `fuel` calls. -/
def hashElems (h : Hash α) : Nat → HashIterator → Option (List α)
  | 0, _ => none
  | fuel + 1, i => do
    let (i, e) ← hashNext h i
    match e with
    | none => return []
    | some e => return e :: (← hashElems h fuel i)

def hashSize (h : Hash α) : Nat := h.elemCnt

def hashEmpty (h : Hash α) : Bool := h.elemCnt = 0

/-! ## Iteration visits every element once -/

section Iterate
variable (h : Hash α)

/-- The elements from place `k` of bucket `b` on, to the end of the table. -/
def Hash.rest (b k : Nat) : List α := (h.bucket b).drop k ++ (h.buckets.drop (b + 1)).flatten

/-- `l` is what is left to visit after the current place of `i`. -/
def Remaining (i : HashIterator) (l : List α) : Prop :=
  i.bucket < h.bucketCnt ∧
    match i.elem with
    | .head => l = h.rest i.bucket 0
    | .elem k => k < (h.bucket i.bucket).length ∧ l = h.rest i.bucket (k + 1)
    | .null => False

/-- `i` is at the first element of `l`, with the rest of `l` left, or at `NULL` if `l` is empty. -/
def Yields (i : HashIterator) : List α → Prop
  | [] => i.elem = .null
  | e :: r => hashCur h i = some e ∧ Remaining h i r

variable {h}

theorem rest_of_lt {b k : Nat} (hk : k < (h.bucket b).length) :
    h.rest b k = (h.bucket b)[k] :: h.rest b (k + 1) := by
  rw [Hash.rest, List.drop_eq_getElem_cons hk, List.cons_append, Hash.rest]

theorem rest_length_bucket (hlen : h.buckets.length = h.bucketCnt) {b : Nat} :
    h.rest b (h.bucket b).length = if b + 1 < h.bucketCnt then h.rest (b + 1) 0 else [] := by
  rw [Hash.rest, List.drop_length, List.nil_append]
  split
  · rename_i hb
    rw [List.drop_eq_getElem_cons (by omega), List.flatten_cons, Hash.rest, List.drop_zero,
      Hash.bucket, List.getD_eq_getElem?_getD, List.getElem?_eq_getElem (by omega), Option.getD_some]
  · rw [List.drop_eq_nil_of_le (by omega), List.flatten_nil]

/-- The loop of `hash_next` skips the ends of buckets, empty ones included, and stops at the next
element or at `NULL`. -/
theorem nextLoop_yields (hlen : h.buckets.length = h.bucketCnt) (fuel : Nat) :
    ∀ b k, b < h.bucketCnt → h.bucketCnt - b ≤ fuel → k ≤ (h.bucket b).length →
      Yields h (nextLoop h fuel b k) (h.rest b k) := by
  induction fuel with
  | zero => intro b k hb hfuel _; omega
  | succ fuel ih =>
    intro b k hb hfuel hk
    by_cases hend : k = (h.bucket b).length
    · -- the end of bucket `b`: on to the next bucket, or past the last
      subst hend
      rw [rest_length_bucket hlen]
      by_cases hnext : b + 1 < h.bucketCnt
      · rw [if_pos hnext, nextLoop, if_pos rfl, if_neg (by omega)]
        exact ih (b + 1) 0 hnext (by omega) (Nat.zero_le _)
      · rw [if_neg hnext, nextLoop, if_pos rfl, if_pos (by omega)]
        rfl
    · have hlt : k < (h.bucket b).length := by omega
      rw [nextLoop, if_neg hend, rest_of_lt hlt]
      exact ⟨List.getElem?_eq_getElem hlt, hb, hlt, rfl⟩

theorem hashNext_yields (hlen : h.buckets.length = h.bucketCnt) {i : HashIterator} {l : List α}
    (hi : Remaining h i l) : ∃ i', hashNext h i = some (i', hashCur h i') ∧ Yields h i' l := by
  obtain ⟨hb, hrest⟩ := hi
  unfold hashNext
  cases hc : i.elem with
  | head =>
    rw [hc] at hrest
    refine ⟨_, rfl, ?_⟩
    rw [hrest]
    exact nextLoop_yields hlen _ _ _ hb (by omega) (Nat.zero_le _)
  | elem k =>
    rw [hc] at hrest
    refine ⟨_, rfl, ?_⟩
    rw [hrest.2]
    exact nextLoop_yields hlen _ _ _ hb (by omega) hrest.1
  | null => rw [hc] at hrest; exact hrest.elim

theorem hashElems_remaining (hlen : h.buckets.length = h.bucketCnt) (l : List α) :
    ∀ i fuel, Remaining h i l → l.length < fuel → hashElems h fuel i = some l := by
  induction l with
  | nil =>
    intro i fuel hi hfuel
    obtain ⟨i', hnext, hy⟩ := hashNext_yields hlen hi
    obtain ⟨fuel, rfl⟩ : ∃ f, fuel = f + 1 := ⟨fuel - 1, by simp at hfuel; omega⟩
    have hcur : hashCur h i' = none := by
      simp only [Yields] at hy
      simp [hashCur, hy]
    simp [hashElems, hnext, hcur]
  | cons e r ih =>
    intro i fuel hi hfuel
    obtain ⟨i', hnext, hcur, hi'⟩ := hashNext_yields hlen hi
    obtain ⟨fuel, rfl⟩ : ∃ f, fuel = f + 1 := ⟨fuel - 1, by simp at hfuel; omega⟩
    simp [hashElems, hnext, hcur, ih i' fuel hi' (by simp at hfuel; omega)]

theorem remaining_hashFirst (hlen : h.buckets.length = h.bucketCnt) (hpos : 0 < h.bucketCnt) :
    Remaining h (hashFirst h) h.buckets.flatten := by
  refine ⟨hpos, ?_⟩
  show h.buckets.flatten = h.rest 0 0
  obtain ⟨b, bs, hbs⟩ : ∃ b bs, h.buckets = b :: bs :=
    List.exists_cons_of_length_pos (by omega)
  simp [Hash.rest, Hash.bucket, hbs]

theorem hashApply_eq (hlen : h.buckets.length = h.bucketCnt) (action : σ → α → σ) (s : σ) :
    hashApply h action s = h.buckets.flatten.foldl action s := by
  rw [hashApply, List.foldl_flatten, ← hlen]
  have hrange : ∀ (bs : List (List α)) (s : σ),
      (List.range bs.length).foldl (fun s i => (bs.getD i []).foldl action s) s =
        bs.foldl (fun s l => l.foldl action s) s := by
    intro bs
    induction bs with
    | nil => intro s; rfl
    | cons b bs ih =>
      intro s
      rw [List.length_cons, List.range_succ_eq_map, List.foldl_cons, List.foldl_map]
      simpa using ih (b.foldl action s)
  exact hrange h.buckets s

end Iterate

/-- **Iteration is exhaustive and duplicate-free.** For a table whose array holds its
`bucket_cnt ≥ 1` buckets, `hash_first` and `hash_next` visit the elements of the buckets in
order, each once, and then return `NULL`, whichever buckets are empty; `hash_apply` calls
`ACTION` once for each of them, in the same order. -/
theorem hash_iteration_exhaustive (h : Hash α) (hlen : h.buckets.length = h.bucketCnt)
    (hpos : 0 < h.bucketCnt) :
    (∀ fuel, h.buckets.flatten.length < fuel → hashElems h fuel (hashFirst h) = some h.buckets.flatten) ∧
      ∀ (action : σ → α → σ) (s : σ), hashApply h action s = h.buckets.flatten.foldl action s :=
  ⟨fun _ hfuel => hashElems_remaining hlen _ _ _ (remaining_hashFirst hlen hpos) hfuel,
    hashApply_eq hlen⟩

/-- Four buckets, the first and third empty. -/
theorem hash_iteration_exhaustive_gaps :
    (∀ fuel, [([] : List Nat), [5, 1], [], [2]].flatten.length < fuel →
      hashElems (⟨3, 4, [[], [5, 1], [], [2]], fun x => x.toUInt32, fun a b => decide (a < b)⟩ : Hash Nat)
        fuel (hashFirst ⟨3, 4, [[], [5, 1], [], [2]], fun x => x.toUInt32, fun a b => decide (a < b)⟩) =
        some [([] : List Nat), [5, 1], [], [2]].flatten) ∧
      ∀ (action : Nat → Nat → Nat) (s : Nat),
        hashApply (⟨3, 4, [[], [5, 1], [], [2]], fun x => x.toUInt32, fun a b => decide (a < b)⟩ : Hash Nat)
          action s = [([] : List Nat), [5, 1], [], [2]].flatten.foldl action s :=
  hash_iteration_exhaustive ⟨3, 4, [[], [5, 1], [], [2]], fun x => x.toUInt32, fun a b => decide (a < b)⟩
    rfl (by decide)

end Pintos.KHash
