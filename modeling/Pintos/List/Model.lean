import Pintos.Lib.LinkHeap

/-! # `lib/kernel/list.c`, pointer by pointer

The intrusive doubly linked list of Pintos, translated statement by statement over a `Heap`:
every `struct list_elem` is a node, `struct list` is the pair of its two header nodes, and a
null pointer is `none`. Each function returns `none` where the C code fails an `ASSERT` or
dereferences a null pointer.

* Pointers are re-read from the heap at each statement that reads them, so aliasing between the
  arguments (a range spliced next to `BEFORE`, a one-element list reversed) behaves as in C.
* Every loop walks `list_next`/`list_prev` and takes a `fuel` argument: running out of fuel is a
  walk that never reaches its end, i.e. a loop of the C code that does not terminate.
* `forward`/`backward` are the two iteration idioms of `list.h` (`list_begin` to `list_end`
  with `list_next`, `list_rbegin` to `list_rend` with `list_prev`) collecting what they visit.
* `IsList h l xs`: list `l` is well formed and holds `xs`: `head.prev` and `tail.next` are null
  and `head :: xs ++ [tail]` is a chain of neighbours.
-/

namespace Pintos.KList
open LinkHeap
set_option autoImplicit false

/-- `struct list`: its two header elements. -/
structure DList (α : Type) where
  head : α
  tail : α
deriving DecidableEq, Repr

variable {α : Type} [DecidableEq α]

/-! ## Element predicates and iteration -/

def isHead (h : Heap α) (e : α) : Bool := (h e).prev.isNone && (h e).next.isSome

def isInterior (h : Heap α) (e : α) : Bool := (h e).prev.isSome && (h e).next.isSome

def isTail (h : Heap α) (e : α) : Bool := (h e).prev.isSome && (h e).next.isNone

def listInit (h : Heap α) (l : DList α) : Heap α :=
  (((h.setPrev l.head none).setNext l.head (some l.tail)).setPrev l.tail (some l.head)).setNext
    l.tail none

/-- `list_begin`: the head's `next` pointer. -/
def listBegin (h : Heap α) (l : DList α) : Option α := (h l.head).next

/-- `list_rbegin`: the tail's `prev` pointer. -/
def listRbegin (h : Heap α) (l : DList α) : Option α := (h l.tail).prev

/-- `list_next`: asserts that `e` is a head or an interior element. -/
def listNext (h : Heap α) (e : α) : Option α :=
  if isHead h e || isInterior h e then (h e).next else none

/-- `list_prev`: asserts that `e` is an interior element or a tail. -/
def listPrev (h : Heap α) (e : α) : Option α :=
  if isInterior h e || isTail h e then (h e).prev else none

/-- `list_empty`: `list_begin (list) == list_end (list)`. -/
def listEmpty (h : Heap α) (l : DList α) : Bool := (h l.head).next == some l.tail

/-- `list_front`: asserts that the list is not empty. -/
def listFront (h : Heap α) (l : DList α) : Option α :=
  if listEmpty h l then none else (h l.head).next

/-- `list_back`: asserts that the list is not empty. -/
def listBack (h : Heap α) (l : DList α) : Option α :=
  if listEmpty h l then none else (h l.tail).prev

/-- The walk of the iteration idiom `for (e = list_begin (l); e != list_end (l); e = list_next (e))`
from `e` on, collecting the elements it visits. -/
def forwardFrom (h : Heap α) (tl : α) : Nat → α → Option (List α)
  | 0, _ => none
  | fuel + 1, e =>
    if e = tl then some []
    else do
      let n ← listNext h e
      let rest ← forwardFrom h tl fuel n
      return e :: rest

/-- The elements of `l` in iteration order. -/
def forward (h : Heap α) (l : DList α) (fuel : Nat) : Option (List α) := do
  let b ← listBegin h l
  forwardFrom h l.tail fuel b

/-- The walk of `for (e = list_rbegin (l); e != list_rend (l); e = list_prev (e))` from `e` on. -/
def backwardFrom (h : Heap α) (hd : α) : Nat → α → Option (List α)
  | 0, _ => none
  | fuel + 1, e =>
    if e = hd then some []
    else do
      let p ← listPrev h e
      let rest ← backwardFrom h hd fuel p
      return e :: rest

/-- The elements of `l` in reverse iteration order. -/
def backward (h : Heap α) (l : DList α) (fuel : Nat) : Option (List α) := do
  let b ← listRbegin h l
  backwardFrom h l.head fuel b

/-- `list_size`: the loop counting from `e` on. -/
def sizeFrom (h : Heap α) (tl : α) : Nat → α → Nat → Option Nat
  | 0, _, _ => none
  | fuel + 1, e, cnt =>
    if e = tl then some cnt
    else do
      let n ← listNext h e
      sizeFrom h tl fuel n (cnt + 1)

/-- `list_size`. -/
def listSize (h : Heap α) (l : DList α) (fuel : Nat) : Option Nat := do
  let b ← listBegin h l
  sizeFrom h l.tail fuel b 0

/-! ## Insertion, removal, splicing -/

/-- `list_insert (before, elem)`. `before->prev` is read once: the two writes to `elem` that come
before its second read leave it unchanged, even when `elem == before`. -/
def listInsert (h : Heap α) (before elem : α) : Option (Heap α) :=
  if isInterior h before || isTail h before then do
    let p ← (h before).prev
    let h := (h.setPrev elem (some p)).setNext elem (some before)
    return (h.setNext p (some elem)).setPrev before (some elem)
  else none

/-- `list_remove (elem)`, returning the heap and the element that followed `elem`. The first write
changes `elem->next` only if `elem->prev == elem`, and then to the value it already had, so both
pointers of `elem` are read once. -/
def listRemove (h : Heap α) (elem : α) : Option (Heap α × α) :=
  if isInterior h elem then do
    let p ← (h elem).prev
    let n ← (h elem).next
    return ((h.setNext p (some n)).setPrev n (some p), n)
  else none

def listPushFront (h : Heap α) (l : DList α) (elem : α) : Option (Heap α) := do
  let b ← listBegin h l
  listInsert h b elem

def listPushBack (h : Heap α) (l : DList α) (elem : α) : Option (Heap α) :=
  listInsert h l.tail elem

/-- `list_pop_front`, returning the heap and the removed element. -/
def listPopFront (h : Heap α) (l : DList α) : Option (Heap α × α) := do
  let front ← listFront h l
  let (h, _) ← listRemove h front
  return (h, front)

/-- `list_pop_back`, returning the heap and the removed element. -/
def listPopBack (h : Heap α) (l : DList α) : Option (Heap α × α) := do
  let back ← listBack h l
  let (h, _) ← listRemove h back
  return (h, back)

/-- `list_splice (before, first, last)`: each of the six pointer writes reads its pointers afresh. -/
def listSplice (h : Heap α) (before first last : α) : Option (Heap α) :=
  if !(isInterior h before || isTail h before) then none
  else if first = last then some h
  else do
    let last ← listPrev h last
    if !(isInterior h first && isInterior h last) then none
    else
      -- first->prev->next = last->next
      let fp ← (h first).prev
      let h := h.setNext fp (h last).next
      -- last->next->prev = first->prev
      let ln ← (h last).next
      let h := h.setPrev ln (h first).prev
      -- first->prev = before->prev; last->next = before
      let h := h.setPrev first (h before).prev
      let h := h.setNext last (some before)
      -- before->prev->next = first; before->prev = last
      let bp ← (h before).prev
      let h := h.setNext bp (some first)
      return h.setPrev before (some last)

/-! ## Reversal -/

/-- `swap (&e->prev, &e->next)`. -/
def swapLinks (h : Heap α) (e : α) : Heap α :=
  (h.setPrev e (h e).next).setNext e (h e).prev

/-- The loop of `list_reverse`: `for (e = list_begin (list); e != list_end (list); e = e->prev)`
swapping the two links of each element, so that `e->prev` is the old `next`. -/
def reverseFrom (h : Heap α) (tl : α) : Nat → Option α → Option (Heap α)
  | 0, _ => none
  | fuel + 1, e =>
    if e = some tl then some h
    else do
      let x ← e
      let h := swapLinks h x
      reverseFrom h tl fuel (h x).prev

def listReverse (h : Heap α) (l : DList α) (fuel : Nat) : Option (Heap α) :=
  if listEmpty h l then some h
  else do
    let h ← reverseFrom h l.tail fuel (listBegin h l)
    -- swap (&list->head.next, &list->tail.prev)
    let h := (h.setNext l.head (h l.tail).prev).setPrev l.tail (h l.head).next
    -- swap (&list->head.next->prev, &list->tail.prev->next)
    let a ← (h l.head).next
    let b ← (h l.tail).prev
    let t := (h a).prev
    let h := h.setPrev a (h b).next
    return h.setNext b t

/-! ## Ordered operations

`less` is the `list_less_func` with its `AUX` applied; it returns `none` where the comparison
itself fails (the kernel's comparisons read through the elements they are given). -/

/-- The loop of `list_insert_ordered`: stop at the first `e` with `less (elem, e)`, or at the tail. -/
def insertOrderedFrom (h : Heap α) (tl elem : α) (less : α → α → Option Bool) :
    Nat → α → Option (Heap α)
  | 0, _ => none
  | fuel + 1, e =>
    if e = tl then listInsert h tl elem
    else do
      if (← less elem e) then listInsert h e elem
      else do
        let n ← listNext h e
        insertOrderedFrom h tl elem less fuel n

def listInsertOrdered (h : Heap α) (l : DList α) (elem : α) (less : α → α → Option Bool)
    (fuel : Nat) : Option (Heap α) := do
  let b ← listBegin h l
  insertOrderedFrom h l.tail elem less fuel b

/-- The loop of `list_unique`: `elem` is the element kept last. The second comparison is made
only when the first is false, as `&&` does in C. -/
def uniqueFrom (h : Heap α) (tl : α) (duplicates : Option (DList α))
    (less : α → α → Option Bool) : Nat → α → Option (Heap α)
  | 0, _ => none
  | fuel + 1, elem => do
    let next ← listNext h elem
    if next = tl then return h
    else
      let equal ← if (← less elem next) then pure false else (! ·) <$> less next elem
      if equal then
        let (h, _) ← listRemove h next
        let h ← match duplicates with
          | none => some h
          | some d => listPushBack h d next
        uniqueFrom h tl duplicates less fuel elem
      else uniqueFrom h tl duplicates less fuel next

/-- `list_unique`. -/
def listUnique (h : Heap α) (l : DList α) (duplicates : Option (DList α))
    (less : α → α → Option Bool) (fuel : Nat) : Option (Heap α) :=
  if listEmpty h l then some h
  else do
    let b ← listBegin h l
    uniqueFrom h l.tail duplicates less fuel b

/-- The loop of `is_sorted`: `while ((a = list_next (a)) != b) if (less (a, list_prev (a))) ...`. -/
def isSortedFrom (h : Heap α) (b : α) (less : α → α → Option Bool) : Nat → α → Option Bool
  | 0, _ => none
  | fuel + 1, a => do
    let a ← listNext h a
    if a = b then return true
    else do
      let p ← listPrev h a
      if (← less a p) then return false
      else isSortedFrom h b less fuel a

/-- `is_sorted (a, b)`. -/
def isSorted (h : Heap α) (a b : α) (less : α → α → Option Bool) (fuel : Nat) : Option Bool :=
  if a ≠ b then isSortedFrom h b less fuel a else some true

/-- The `do ... while` loop of `find_end_of_run`. -/
def findEndOfRunFrom (h : Heap α) (b : α) (less : α → α → Option Bool) : Nat → α → Option α
  | 0, _ => none
  | fuel + 1, a => do
    let a ← listNext h a
    if a = b then return a
    else do
      let p ← listPrev h a
      if (← less a p) then return a
      else findEndOfRunFrom h b less fuel a

/-- `find_end_of_run (a, b)`: asserts `a != b`. -/
def findEndOfRun (h : Heap α) (a b : α) (less : α → α → Option Bool) (fuel : Nat) : Option α :=
  if a = b then none else findEndOfRunFrom h b less fuel a

/-- The loop of `inplace_merge`. -/
def mergeFrom (h : Heap α) (b1 : α) (less : α → α → Option Bool) : Nat → α → α → Option (Heap α)
  | 0, _, _ => none
  | fuel + 1, a0, a1b0 =>
    if a0 = a1b0 || a1b0 = b1 then some h
    else do
      if !(← less a1b0 a0) then
        let a0 ← listNext h a0
        mergeFrom h b1 less fuel a0 a1b0
      else
        let a1b0 ← listNext h a1b0
        let p ← listPrev h a1b0
        let h ← listSplice h a0 p a1b0
        mergeFrom h b1 less fuel a0 a1b0

/-- `inplace_merge (a0, a1b0, b1)`, with its two `is_sorted` assertions. -/
def inplaceMerge (h : Heap α) (a0 a1b0 b1 : α) (less : α → α → Option Bool) (fuel : Nat) :
    Option (Heap α) := do
  let s1 ← isSorted h a0 a1b0 less fuel
  let s2 ← isSorted h a1b0 b1 less fuel
  if s1 && s2 then mergeFrom h b1 less fuel a0 a1b0 else none

/-- One pass of `list_sort`: the `for` loop from `a0`, counting output runs in `cnt`. -/
def sortPassFrom (h : Heap α) (tl : α) (less : α → α → Option Bool) (fuel : Nat) :
    Nat → α → Nat → Option (Heap α × Nat)
  | 0, _, _ => none
  | k + 1, a0, cnt =>
    if a0 = tl then some (h, cnt)
    else do
      let a1b0 ← findEndOfRun h a0 tl less fuel
      if a1b0 = tl then return (h, cnt + 1)
      else do
        let b1 ← findEndOfRun h a1b0 tl less fuel
        let h ← inplaceMerge h a0 a1b0 b1 less fuel
        sortPassFrom h tl less fuel k b1 (cnt + 1)

/-- The `do ... while (output_run_cnt > 1)` loop of `list_sort`. -/
def sortPasses (h : Heap α) (l : DList α) (less : α → α → Option Bool) (fuel : Nat) :
    Nat → Option (Heap α)
  | 0 => none
  | k + 1 => do
    let a0 ← listBegin h l
    let (h, cnt) ← sortPassFrom h l.tail less fuel fuel a0 0
    if cnt > 1 then sortPasses h l less fuel k else return h

/-- `list_sort`, with its closing `is_sorted` assertion. -/
def listSort (h : Heap α) (l : DList α) (less : α → α → Option Bool) (fuel : Nat) :
    Option (Heap α) := do
  let h ← sortPasses h l less fuel fuel
  let b ← listBegin h l
  let s ← isSorted h b l.tail less fuel
  if s then return h else none

/-! ## The abstract view -/

/-- List `l` is well formed and holds `xs`, first to last. -/
def IsList (h : Heap α) (l : DList α) (xs : List α) : Prop :=
  (h l.head).prev = none ∧ (h l.tail).next = none ∧ Chain h (l.head :: (xs ++ [l.tail]))

instance (h : Heap α) (l : DList α) (xs : List α) : Decidable (IsList h l xs) :=
  inferInstanceAs (Decidable (_ ∧ _ ∧ _))

end Pintos.KList
