import Pintos.List.Splice

/-! # The ordered operations: `list_insert_ordered`, `list_unique`, `list_sort`

Each of them walks the list with `list_next` and edits it with `list_insert`, `list_remove`,
`list_push_back` and `list_splice`, whatever the comparison `less` answers. Their loops are
followed along a cut `A ++ e :: B` of the list: the walk keeps its position inside the list
(`IsList.listNext_mem`), and every edit is one of those of `Wf` and `Splice`.

* `IsList.insertOrdered`: a completed `list_insert_ordered` has put the new element somewhere in
  the list; with a total comparison it is put in front of the first element it is less than
  (`IsList.insertOrdered_eq`).
* `IsList.unique`: `list_unique` keeps a subsequence and appends what it drops to `duplicates`.
* `IsList.sort`: `list_sort` permutes the list and writes no node outside it (`Permutes`).
-/

namespace Pintos.KList
open LinkHeap
set_option autoImplicit false

variable {α : Type} {h g : Heap α} {l : DList α} {xs : List α}

/-! ## Walking a well-formed list -/

theorem IsList.listNext_eq {A B : List α} {b : α} (hl : IsList h l (A ++ b :: B)) :
    listNext h b = some (B.headD l.tail) := by
  have hs := (show IsList h l ((A ++ [b]) ++ B) by simpa using hl).seam
  rw [List.getLastD_eq_getLast?, List.getLast?_concat, Option.getD_some] at hs
  have hint : isInterior h b = true := hl.interior_of_mem (by simp)
  simp [listNext, hint, hs.1]

theorem IsList.listNext_tail (hl : IsList h l xs) : listNext h l.tail = none := by
  simp [listNext, isHead, isInterior, hl.2.1]

theorem IsList.listNext_mem (hl : IsList h l xs) {a a' : α} (ha : a ∈ xs ++ [l.tail])
    (hn : listNext h a = some a') : a' ∈ xs ++ [l.tail] := by
  rcases List.mem_append.mp ha with ha | ha
  · obtain ⟨A, B, rfl⟩ := List.append_of_mem ha
    rw [hl.listNext_eq, Option.some.injEq] at hn
    subst hn
    cases B <;> simp
  · obtain rfl : a = l.tail := List.mem_singleton.mp ha
    simp [hl.listNext_tail] at hn

theorem split_of_mem {zs : List α} {t a : α} (ha : a ∈ zs ++ [t]) :
    ∃ C D, zs = C ++ D ∧ D.headD t = a := by
  rcases List.mem_append.mp ha with ha | ha
  · obtain ⟨C, D, rfl⟩ := List.append_of_mem ha
    exact ⟨C, a :: D, rfl, rfl⟩
  · exact ⟨zs, [], by simp, (List.mem_singleton.mp ha).symm⟩

/-! ## `list_insert_ordered` -/

section Insert
variable [DecidableEq α]

theorem IsList.insertOrderedFrom_some (hl : IsList h l xs) {elem : α}
    {less : α → α → Option Bool} {h' : Heap α} :
    ∀ {B A : List α} {fuel : Nat}, xs = A ++ B →
      insertOrderedFrom h l.tail elem less fuel (B.headD l.tail) = some h' →
      ∃ B₁ B₂, B = B₁ ++ B₂ ∧ listInsert h (B₂.headD l.tail) elem = some h'
  | _, _, 0, _, hrun => by simp [insertOrderedFrom] at hrun
  | [], _, _ + 1, _, hrun => ⟨[], [], rfl, by simpa [insertOrderedFrom] using hrun⟩
  | b :: B, A, fuel + 1, hxs, hrun => by
    have hb : b ≠ l.tail := fun e => hl.tail_not_mem (by simp [hxs, ← e])
    have hnext : listNext h b = some (B.headD l.tail) := (hxs ▸ hl).listNext_eq
    simp only [insertOrderedFrom, List.headD_cons, hb, if_false, Option.bind_eq_bind] at hrun
    cases hlt : less elem b with
    | none => simp [hlt] at hrun
    | some c =>
      cases c with
      | true => exact ⟨[], b :: B, rfl, by simpa [hlt] using hrun⟩
      | false =>
        simp only [hlt, Option.bind_some, Bool.false_eq_true, if_false, hnext] at hrun
        obtain ⟨B₁, B₂, hB, hins⟩ :=
          IsList.insertOrderedFrom_some hl (A := A ++ [b]) (by simp [hxs]) hrun
        exact ⟨b :: B₁, B₂, by simp [hB], hins⟩

/-- **`list_insert_ordered`**, whatever `less` answers: a completed call has inserted the new
element at some place of the list, and written no other node outside it. -/
theorem IsList.insertOrdered (hl : IsList h l xs) {elem : α} (he : elem ∉ DList.nodes l xs)
    {less : α → α → Option Bool} {fuel : Nat} {h' : Heap α}
    (hrun : listInsertOrdered h l elem less fuel = some h') :
    ∃ A B, xs = A ++ B ∧ IsList h' l (A ++ elem :: B) ∧
      ∀ x ∉ DList.nodes l xs, x ≠ elem → h' x = h x := by
  simp only [listInsertOrdered, hl.begin_eq, Option.bind_eq_bind, Option.bind_some] at hrun
  obtain ⟨B₁, B₂, rfl, hins⟩ := hl.insertOrderedFrom_some (A := []) rfl hrun
  obtain ⟨h'', hins', hl', hfr⟩ := IsList.insert (show IsList h l (B₁ ++ B₂) from hl) he
  rw [hins', Option.some.injEq] at hins
  subst hins
  exact ⟨B₁, B₂, rfl, hl', hfr⟩

/-- Where the comparisons with the new element succeed, the loop stops at the first element the
new one is less than. -/
theorem insertOrderedFrom_eq (hl : IsList h l xs) {elem : α} {less : α → α → Option Bool}
    (lt : α → α → Bool) (hless : ∀ e ∈ xs, less elem e = some (lt elem e)) :
    ∀ {B A : List α} {fuel : Nat}, xs = A ++ B → B.length < fuel →
      insertOrderedFrom h l.tail elem less fuel (B.headD l.tail) =
        listInsert h ((B.dropWhile fun e => !lt elem e).headD l.tail) elem
  | _, _, 0, _, hf => by simp at hf
  | [], _, _ + 1, _, _ => by simp [insertOrderedFrom]
  | b :: B, A, fuel + 1, hxs, hf => by
    have hb : b ≠ l.tail := fun e => hl.tail_not_mem (by simp [hxs, ← e])
    have hnext : listNext h b = some (B.headD l.tail) := (hxs ▸ hl).listNext_eq
    have hlt : less elem b = some (lt elem b) := hless b (by simp [hxs])
    simp only [insertOrderedFrom, List.headD_cons, hb, if_false, Option.bind_eq_bind, hlt,
      Option.bind_some, List.dropWhile_cons]
    cases lt elem b with
    | true => simp
    | false =>
      simp only [Bool.false_eq_true, if_false, hnext, Option.bind_some, Bool.not_false, if_true]
      exact insertOrderedFrom_eq hl lt hless (A := A ++ [b]) (by simp [hxs])
        (by simp at hf; omega)

/-- **`list_insert_ordered`** where the comparisons with the new element succeed: it goes in front
of the first element it is less than, or at the end. -/
theorem IsList.insertOrdered_eq (hl : IsList h l xs) {elem : α} (he : elem ∉ DList.nodes l xs)
    {less : α → α → Option Bool} (lt : α → α → Bool)
    (hless : ∀ e ∈ xs, less elem e = some (lt elem e)) {fuel : Nat} (hf : xs.length < fuel) :
    ∃ h', listInsertOrdered h l elem less fuel = some h' ∧
      IsList h' l (xs.takeWhile (fun e => !lt elem e) ++
        elem :: xs.dropWhile (fun e => !lt elem e)) ∧
      ∀ x ∉ DList.nodes l xs, x ≠ elem → h' x = h x := by
  have hsplit := (List.takeWhile_append_dropWhile (p := fun e => !lt elem e) (l := xs)).symm
  obtain ⟨h', hins, hl', hfr⟩ :=
    IsList.insert (show IsList h l (_ ++ _) from hsplit ▸ hl) (hsplit ▸ he)
  refine ⟨h', ?_, hl', fun x hx => hfr x (hsplit ▸ hx)⟩
  simp only [listInsertOrdered, hl.begin_eq, Option.bind_eq_bind, Option.bind_some]
  rw [insertOrderedFrom_eq hl lt hless (A := []) rfl hf, hins]

end Insert

/-! ## `list_unique` -/

/-- What `list_unique` needs of its `duplicates` argument and keeps: when there is a list, it is
well formed and apart from the list being made unique. -/
def DupInv (g : Heap α) (l : DList α) (ys : List α) : Option (DList α) → List α → Prop
  | none, _ => True
  | some d, ds => IsList g d ds ∧ ∀ x ∈ DList.nodes d ds, x ∉ DList.nodes l ys

/-- The nodes of the `duplicates` list, if there is one. -/
def dupNodes : Option (DList α) → List α → List α
  | none, _ => []
  | some d, ds => DList.nodes d ds

/-- A heap that agrees on the `duplicates` list keeps it, and a list made of fewer nodes is still
apart from it. -/
theorem DupInv.frame {ys ys' ds : List α} {dup : Option (DList α)} (hd : DupInv g l ys dup ds)
    (hag : ∀ x ∈ dupNodes dup ds, h x = g x)
    (hsub : DList.nodes l ys' ⊆ DList.nodes l ys) : DupInv h l ys' dup ds := by
  cases dup with
  | none => trivial
  | some d => exact ⟨hd.1.frame hag, fun x hx hm => hd.2 x hx (hsub hm)⟩

theorem DupInv.apart {ys ds : List α} {dup : Option (DList α)} (hd : DupInv g l ys dup ds)
    {x : α} (hx : x ∈ dupNodes dup ds) : x ∉ DList.nodes l ys := by
  cases dup with
  | none => simp [dupNodes] at hx
  | some d => exact hd.2 x hx

theorem dupNodes_append {ds : List α} {b x : α} {dup : Option (DList α)}
    (hx : x ∈ dupNodes dup (ds ++ [b])) : x = b ∨ x ∈ dupNodes dup ds := by
  cases dup with
  | none => simp [dupNodes] at hx
  | some d =>
    simp only [dupNodes, DList.nodes, List.mem_cons, List.mem_append] at hx ⊢
    tauto

section Unique
variable [DecidableEq α]

theorem DupInv.push {ys ds : List α} {b : α} {dup : Option (DList α)} (hl : IsList g l ys)
    (hd : DupInv g l ys dup ds) (hb : b ∉ DList.nodes l ys) (hbd : b ∉ dupNodes dup ds) :
    ∃ g', (match dup with
        | none => some g
        | some d => listPushBack g d b) = some g' ∧
      IsList g' l ys ∧ DupInv g' l ys dup (ds ++ [b]) ∧
      ∀ x ∉ dupNodes dup ds, x ≠ b → g' x = g x := by
  cases dup with
  | none => exact ⟨g, rfl, hl, trivial, fun _ _ _ => rfl⟩
  | some d =>
    obtain ⟨g', hpush, hd', hfr⟩ := hd.1.pushBack hbd
    have hkeep : ∀ x ∈ DList.nodes l ys, g' x = g x := fun x hx =>
      hfr x (fun hm => hd.2 x hm hx) (fun e => hb (e ▸ hx))
    refine ⟨g', hpush, hl.frame hkeep, ⟨hd', fun x hx hm => ?_⟩, hfr⟩
    have hx' : x = b ∨ x ∈ DList.nodes d ds := by
      simp only [DList.nodes, List.mem_cons, List.mem_append] at hx ⊢
      tauto
    rcases hx' with rfl | hx'
    · exact hb hm
    · exact hd.2 x hx' hm

/-! The three ways one pass of the `list_unique` loop can go. -/

theorem uniqueFrom_tail {dup : Option (DList α)} {less : α → α → Option Bool} {fuel : Nat}
    {tl e : α} (hnext : listNext g e = some tl) :
    uniqueFrom g tl dup less (fuel + 1) e = some g := by
  simp [uniqueFrom, hnext]

theorem uniqueFrom_keep {dup : Option (DList α)} {less : α → α → Option Bool} {fuel : Nat}
    {tl e b : α} (hnext : listNext g e = some b) (hb : b ≠ tl)
    (hne : less e b = some true ∨ less e b = some false ∧ less b e = some true) :
    uniqueFrom g tl dup less (fuel + 1) e = uniqueFrom g tl dup less fuel b := by
  rcases hne with h1 | ⟨h1, h2⟩
  · simp [uniqueFrom, hnext, hb, h1]
  · simp [uniqueFrom, hnext, hb, h1, h2]

theorem uniqueFrom_drop {dup : Option (DList α)} {less : α → α → Option Bool} {fuel : Nat}
    {tl e b n : α} {g₁ : Heap α} (hnext : listNext g e = some b) (hb : b ≠ tl)
    (h1 : less e b = some false) (h2 : less b e = some false)
    (hrem : listRemove g b = some (g₁, n)) :
    uniqueFrom g tl dup less (fuel + 1) e =
      (match dup with
        | none => some g₁
        | some d => listPushBack g₁ d b).bind fun g₂ => uniqueFrom g₂ tl dup less fuel e := by
  cases dup <;> simp [uniqueFrom, hnext, hb, h1, h2, hrem]

theorem IsList.dropNext {dup : Option (DList α)} {A B ds : List α} {e b : α}
    (hl : IsList g l (A ++ e :: b :: B)) (hd : DupInv g l (A ++ e :: b :: B) dup ds) :
    ∃ g₁ g₂, listRemove g b = some (g₁, B.headD l.tail) ∧
      (match dup with
        | none => some g₁
        | some d => listPushBack g₁ d b) = some g₂ ∧
      IsList g₂ l (A ++ e :: B) ∧ DupInv g₂ l (A ++ e :: B) dup (ds ++ [b]) ∧
      ∀ x ∉ DList.nodes l (A ++ e :: b :: B), x ∉ dupNodes dup ds → g₂ x = g x := by
  obtain ⟨g₁, hrem, hl₁, hfr₁⟩ := IsList.remove (show IsList g l ((A ++ [e]) ++ b :: B) by simpa using hl)
  have hl₁' : IsList g₁ l (A ++ e :: B) := by simpa using hl₁
  have hsub : DList.nodes l (A ++ e :: B) ⊆ DList.nodes l (A ++ e :: b :: B) := by
    intro u hu
    simp only [DList.nodes, List.mem_cons, List.mem_append] at hu ⊢
    tauto
  have hbm : b ∈ DList.nodes l (A ++ e :: b :: B) := by simp [DList.nodes]
  have hbn : b ∉ DList.nodes l (A ++ e :: B) := by
    have hnd := hl.nodup
    rw [show DList.nodes l (A ++ e :: b :: B) = (l.head :: (A ++ [e])) ++ b ::
      (B ++ [l.tail]) by simp [DList.nodes]] at hnd
    simpa [DList.nodes] using not_mem_of_nodup_middle hnd
  have hd₁ : DupInv g₁ l (A ++ e :: B) dup ds :=
    hd.frame (fun x hx => hfr₁ x (by simpa using fun hm => hd.apart hx (hsub hm))) hsub
  obtain ⟨g₂, hpush, hl₂, hd₂, hfr₂⟩ := DupInv.push hl₁' hd₁ hbn (fun hm => hd.apart hm hbm)
  refine ⟨g₁, g₂, hrem, hpush, hl₂, hd₂, fun x hx hxd => ?_⟩
  rw [hfr₂ x hxd (fun h => hx (h ▸ hbm)), hfr₁ x (by simpa using fun hm => hx (hsub hm))]

/-- The loop of `list_unique`, from the kept element `e` of a list `A ++ e :: B`: it keeps a
subsequence of `B` and hands the rest, in order, to `duplicates`. -/
theorem IsList.uniqueFrom_some {dup : Option (DList α)} {less : α → α → Option Bool} :
    ∀ {fuel : Nat} {g g' : Heap α} {A B ds : List α} {e : α},
      IsList g l (A ++ e :: B) → DupInv g l (A ++ e :: B) dup ds →
      uniqueFrom g l.tail dup less fuel e = some g' →
      ∃ B' zs, B'.Sublist B ∧ (B' ++ zs).Perm B ∧ IsList g' l (A ++ e :: B') ∧
        DupInv g' l (A ++ e :: B') dup (ds ++ zs) ∧
        ∀ x ∉ DList.nodes l (A ++ e :: B), x ∉ dupNodes dup ds → g' x = g x
  | 0, _, _, _, _, _, _, _, _, hrun => by simp [uniqueFrom] at hrun
  | fuel + 1, g, g', A, [], ds, e, hl, hd, hrun => by
    rw [uniqueFrom_tail (show listNext g e = some l.tail from hl.listNext_eq),
      Option.some.injEq] at hrun
    subst hrun
    exact ⟨[], [], .slnil, by simp, hl, by simpa using hd, fun _ _ _ => rfl⟩
  | fuel + 1, g, g', A, b :: B, ds, e, hl, hd, hrun => by
    have hnext : listNext g e = some b := hl.listNext_eq
    have hb : b ≠ l.tail := fun h => hl.tail_not_mem (by simp [← h])
    have hadv : less e b = some true ∨ less e b = some false ∧ less b e = some true →
        ∃ B' zs, B'.Sublist (b :: B) ∧ (B' ++ zs).Perm (b :: B) ∧ IsList g' l (A ++ e :: B') ∧
          DupInv g' l (A ++ e :: B') dup (ds ++ zs) ∧
          ∀ x ∉ DList.nodes l (A ++ e :: b :: B), x ∉ dupNodes dup ds → g' x = g x := by
      intro hne
      rw [uniqueFrom_keep hnext hb hne] at hrun
      obtain ⟨B', zs, hsub, hperm, hl'', hd'', hfr⟩ :=
        IsList.uniqueFrom_some (A := A ++ [e]) (by simpa using hl) (by simpa using hd) hrun
      exact ⟨b :: B', zs, hsub.cons_cons b, hperm.cons b, by simpa using hl'',
        by simpa using hd'', fun x hx hxd => hfr x (by simpa using hx) hxd⟩
    have hfail : less e b = none ∨ less e b = some false ∧ less b e = none → False := by
      rintro (h1 | ⟨h1, h2⟩)
      · simp [uniqueFrom, hnext, hb, h1] at hrun
      · simp [uniqueFrom, hnext, hb, h1, h2] at hrun
    cases h1 : less e b with
    | none => exact (hfail (.inl h1)).elim
    | some c₁ =>
      cases c₁ with
      | true => exact hadv (.inl h1)
      | false =>
        cases h2 : less b e with
        | none => exact (hfail (.inr ⟨h1, h2⟩)).elim
        | some c₂ =>
          cases c₂ with
          | true => exact hadv (.inr ⟨h1, h2⟩)
          | false =>
            obtain ⟨g₁, g₂, hrem, hpush, hl₂, hd₂, hfr₂⟩ := hl.dropNext hd
            rw [uniqueFrom_drop hnext hb h1 h2 hrem, hpush, Option.bind_some] at hrun
            obtain ⟨B', zs, hsub', hperm, hl', hd', hfr⟩ := IsList.uniqueFrom_some hl₂ hd₂ hrun
            refine ⟨B', b :: zs, hsub'.cons b, List.perm_middle.trans (hperm.cons b), hl',
              by simpa using hd', fun x hx hxd => ?_⟩
            have hxb : x ≠ b := fun h => hx (by simp [h, DList.nodes])
            have hxn : x ∉ DList.nodes l (A ++ e :: B) := fun hm => hx (by
              simp only [DList.nodes, List.mem_cons, List.mem_append] at hm ⊢
              tauto)
            rw [hfr x hxn (fun hm => (dupNodes_append hm).elim hxb hxd), hfr₂ x hx hxd]

/-- **`list_unique`**, whatever `less` answers: a completed call leaves a subsequence of the list
and appends the elements it removed to `duplicates`, if given; no other node is written. -/
theorem IsList.unique (hl : IsList h l xs) {dup : Option (DList α)} {ds : List α}
    (hd : DupInv h l xs dup ds) {less : α → α → Option Bool} {fuel : Nat} {h' : Heap α}
    (hrun : listUnique h l dup less fuel = some h') :
    ∃ ys zs, ys.Sublist xs ∧ (ys ++ zs).Perm xs ∧ IsList h' l ys ∧ DupInv h' l ys dup (ds ++ zs) ∧
      ∀ x ∉ DList.nodes l xs, x ∉ dupNodes dup ds → h' x = h x := by
  cases xs with
  | nil =>
    simp only [listUnique, (hl.empty_iff).mpr rfl, if_true, Option.some.injEq] at hrun
    subst hrun
    exact ⟨[], [], .slnil, by simp, hl, by simpa using hd, fun _ _ _ => rfl⟩
  | cons x xs =>
    have hne : listEmpty h l = false := by simpa using (hl.empty_iff).not.mpr (List.cons_ne_nil x xs)
    simp only [listUnique, hne, hl.begin_eq, List.headD_cons, Bool.false_eq_true, if_false,
      Option.bind_eq_bind, Option.bind_some] at hrun
    obtain ⟨B', zs, hsub, hperm, hl', hd', hfr⟩ :=
      IsList.uniqueFrom_some (A := []) (show IsList h l ([] ++ x :: xs) from hl) hd hrun
    exact ⟨x :: B', zs, hsub.cons_cons x, hperm.cons x, hl', hd', hfr⟩

end Unique

/-! ## `list_sort` -/

/-- `g'` holds list `l` as a permutation of the sequence `ys` that `g` held, and agrees with `g`
outside the list. -/
def Permutes (l : DList α) (g : Heap α) (ys : List α) (g' : Heap α) : Prop :=
  ∃ ys', ys'.Perm ys ∧ IsList g' l ys' ∧ ∀ x ∉ DList.nodes l ys, g' x = g x

theorem mem_nodes_of_perm {ys ys' : List α} (hp : ys'.Perm ys) {x : α} :
    x ∈ DList.nodes l ys' ↔ x ∈ DList.nodes l ys := by
  simp only [DList.nodes, List.mem_cons, List.mem_append, hp.mem_iff]

theorem mem_append_tail_of_perm {ys ys' : List α} (hp : ys'.Perm ys) {x t : α} :
    x ∈ ys' ++ [t] ↔ x ∈ ys ++ [t] := by
  simp only [List.mem_append, hp.mem_iff]

theorem Permutes.refl {ys : List α} (hl : IsList g l ys) : Permutes l g ys g :=
  ⟨ys, List.Perm.refl ys, hl, fun _ _ => rfl⟩

theorem Permutes.trans {ys : List α} {g₁ g₂ : Heap α} (h₁ : Permutes l g ys g₁)
    (h₂ : ∀ ys₁, ys₁.Perm ys → IsList g₁ l ys₁ → Permutes l g₁ ys₁ g₂) : Permutes l g ys g₂ := by
  obtain ⟨ys₁, hp₁, hl₁, hf₁⟩ := h₁
  obtain ⟨ys₂, hp₂, hl₂, hf₂⟩ := h₂ ys₁ hp₁ hl₁
  exact ⟨ys₂, hp₂.trans hp₁, hl₂, fun x hx =>
    (hf₂ x ((mem_nodes_of_perm hp₁).not.mpr hx)).trans (hf₁ x hx)⟩

section Sorting
variable [DecidableEq α] {less : α → α → Option Bool}

theorem IsList.findEndOfRunFrom_mem {ys : List α} (hl : IsList g l ys) {b : α} :
    ∀ {fuel : Nat} {a r : α}, a ∈ ys ++ [l.tail] →
      findEndOfRunFrom g b less fuel a = some r → r ∈ ys ++ [l.tail]
  | 0, _, _, _, hrun => by simp [findEndOfRunFrom] at hrun
  | fuel + 1, a, r, ha, hrun => by
    simp only [findEndOfRunFrom, Option.bind_eq_bind] at hrun
    obtain ⟨a', hn, hrun⟩ := Option.bind_eq_some_iff.mp hrun
    have ha' := hl.listNext_mem ha hn
    by_cases hab : a' = b
    · simp only [hab, if_true, Option.pure_def, Option.some.injEq] at hrun
      exact hrun ▸ hab ▸ ha'
    · simp only [hab, if_false] at hrun
      obtain ⟨p, -, hrun⟩ := Option.bind_eq_some_iff.mp hrun
      obtain ⟨c, -, hrun⟩ := Option.bind_eq_some_iff.mp hrun
      cases c with
      | true =>
        simp only [if_true, Option.pure_def, Option.some.injEq] at hrun
        exact hrun ▸ ha'
      | false => exact hl.findEndOfRunFrom_mem ha' (by simpa using hrun)

theorem IsList.findEndOfRun_mem {ys : List α} (hl : IsList g l ys) {a b r : α} {fuel : Nat}
    (ha : a ∈ ys ++ [l.tail]) (hrun : findEndOfRun g a b less fuel = some r) :
    r ∈ ys ++ [l.tail] := by
  unfold findEndOfRun at hrun
  split at hrun
  · simp at hrun
  · exact hl.findEndOfRunFrom_mem ha hrun

/-- The loop of `inplace_merge`: each step either advances `a0` or moves the single element at
`a1b0` in front of `a0` (a splice within the list), so the list stays a permutation. -/
theorem IsList.mergeFrom_permutes {b1 : α} : ∀ {fuel : Nat} {g g' : Heap α} {ys : List α}
    {a0 a1b0 : α}, IsList g l ys → a0 ∈ ys ++ [l.tail] → a1b0 ∈ ys ++ [l.tail] →
      mergeFrom g b1 less fuel a0 a1b0 = some g' → Permutes l g ys g'
  | 0, _, _, _, _, _, _, _, _, hrun => by simp [mergeFrom] at hrun
  | fuel + 1, g, g', ys, a0, a1b0, hl, ha0, ha1, hrun => by
    unfold mergeFrom at hrun
    by_cases hstop : (decide (a0 = a1b0) || decide (a1b0 = b1)) = true
    · simp only [hstop, if_true, Option.some.injEq] at hrun
      exact hrun ▸ Permutes.refl hl
    simp only [hstop, Bool.false_eq_true, if_false, Option.bind_eq_bind] at hrun
    have hne : a0 ≠ a1b0 := fun e => hstop (by simp [e])
    obtain ⟨c, -, hrun⟩ := Option.bind_eq_some_iff.mp hrun
    cases c with
    | false =>
      simp only [Bool.not_false, if_true] at hrun
      obtain ⟨a0', hn, hrun⟩ := Option.bind_eq_some_iff.mp hrun
      exact hl.mergeFrom_permutes (hl.listNext_mem ha0 hn) ha1 hrun
    | true =>
      simp only [Bool.not_true, Bool.false_eq_true, if_false] at hrun
      obtain ⟨n, hn, hrun⟩ := Option.bind_eq_some_iff.mp hrun
      obtain ⟨p, hp, hrun⟩ := Option.bind_eq_some_iff.mp hrun
      obtain ⟨g₁, hsp, hrun⟩ := Option.bind_eq_some_iff.mp hrun
      -- `a1b0` has a successor, so it is an element and not the tail
      have ha1' : a1b0 ∈ ys := by
        rcases List.mem_append.mp ha1 with h | h
        · exact h
        · rw [List.mem_singleton.mp h, hl.listNext_tail] at hn; simp at hn
      obtain ⟨A, B, rfl⟩ := List.append_of_mem ha1'
      rw [hl.listNext_eq, Option.some.injEq] at hn
      subst hn
      have hl' : IsList g l (A ++ [a1b0] ++ B) := by simpa using hl
      have hprev := (show IsList g l ((A ++ [a1b0]) ++ B) by simpa using hl).seam.2
      rw [List.getLastD_eq_getLast?, List.getLast?_concat, Option.getD_some] at hprev
      rw [listPrev_of_prev hprev, Option.some.injEq] at hp
      subst hp
      obtain ⟨C, D, hCD, rfl⟩ : ∃ C D, A ++ B = C ++ D ∧ D.headD l.tail = a0 := by
        refine split_of_mem ?_
        simp only [List.mem_append, List.mem_cons] at ha0 ⊢
        rcases ha0 with (h | h | h) | h
        · exact Or.inl (Or.inl h)
        · exact absurd h hne
        · exact Or.inl (Or.inr h)
        · exact Or.inr h
      obtain ⟨g₂, hsp', hl₂, hfr⟩ := hl'.spliceSelf (R := [a1b0]) rfl hCD
      rw [hsp', Option.some.injEq] at hsp
      subst hsp
      have hp₂ : (C ++ [a1b0] ++ D).Perm (A ++ a1b0 :: B) := by
        simpa using perm_move A [a1b0] B C D hCD
      have hm0 : D.headD l.tail ∈ C ++ [a1b0] ++ D ++ [l.tail] := by cases D <;> simp
      have hm1 : B.headD l.tail ∈ C ++ [a1b0] ++ D ++ [l.tail] := by
        cases B with
        | nil => simp
        | cons b B =>
          have hb : b ∈ C ++ D := hCD ▸ (by simp)
          simp only [List.mem_append] at hb
          simp only [List.headD_cons, List.mem_append, List.mem_singleton]
          tauto
      refine Permutes.trans ⟨_, hp₂, hl₂, fun x hx => hfr x (by simpa using hx)⟩
        fun ys₁ hp₁ hl₁ => hl₁.mergeFrom_permutes ?_ ?_ hrun
      · exact (mem_append_tail_of_perm (hp₁.trans hp₂.symm)).mpr hm0
      · exact (mem_append_tail_of_perm (hp₁.trans hp₂.symm)).mpr hm1

theorem inplaceMerge_mergeFrom {a0 a1b0 b1 : α} {fuel : Nat} {g' : Heap α}
    (hrun : inplaceMerge g a0 a1b0 b1 less fuel = some g') :
    mergeFrom g b1 less fuel a0 a1b0 = some g' := by
  simp only [inplaceMerge, Option.bind_eq_bind] at hrun
  obtain ⟨s1, -, hrun⟩ := Option.bind_eq_some_iff.mp hrun
  obtain ⟨s2, -, hrun⟩ := Option.bind_eq_some_iff.mp hrun
  split at hrun
  · exact hrun
  · simp at hrun

theorem IsList.sortPassFrom_permutes {fuel : Nat} : ∀ {k : Nat} {g g' : Heap α} {ys : List α}
    {a0 : α} {cnt cnt' : Nat}, IsList g l ys → a0 ∈ ys ++ [l.tail] →
      sortPassFrom g l.tail less fuel k a0 cnt = some (g', cnt') → Permutes l g ys g'
  | 0, _, _, _, _, _, _, _, _, hrun => by simp [sortPassFrom] at hrun
  | k + 1, g, g', ys, a0, cnt, cnt', hl, ha0, hrun => by
    unfold sortPassFrom at hrun
    by_cases hend : a0 = l.tail
    · simp only [hend, if_true, Option.some.injEq, Prod.mk.injEq] at hrun
      exact hrun.1 ▸ Permutes.refl hl
    simp only [hend, if_false, Option.bind_eq_bind] at hrun
    obtain ⟨a1b0, hr1, hrun⟩ := Option.bind_eq_some_iff.mp hrun
    have ha1 := hl.findEndOfRun_mem ha0 hr1
    by_cases hend' : a1b0 = l.tail
    · simp only [hend', if_true, Option.pure_def, Option.some.injEq, Prod.mk.injEq] at hrun
      exact hrun.1 ▸ Permutes.refl hl
    simp only [hend', if_false] at hrun
    obtain ⟨b1, hr2, hrun⟩ := Option.bind_eq_some_iff.mp hrun
    obtain ⟨g₁, hmerge, hrun⟩ := Option.bind_eq_some_iff.mp hrun
    have hb1 := hl.findEndOfRun_mem ha1 hr2
    exact (hl.mergeFrom_permutes ha0 ha1 (inplaceMerge_mergeFrom hmerge)).trans
      fun ys₁ hp₁ hl₁ => hl₁.sortPassFrom_permutes ((mem_append_tail_of_perm hp₁).mpr hb1) hrun

theorem IsList.sortPasses_permutes {fuel : Nat} : ∀ {k : Nat} {g g' : Heap α} {ys : List α},
    IsList g l ys → sortPasses g l less fuel k = some g' → Permutes l g ys g'
  | 0, _, _, _, _, hrun => by simp [sortPasses] at hrun
  | k + 1, g, g', ys, hl, hrun => by
    simp only [sortPasses, hl.begin_eq, Option.bind_eq_bind, Option.bind_some] at hrun
    obtain ⟨⟨g₁, cnt⟩, hpass, hrun⟩ := Option.bind_eq_some_iff.mp hrun
    have hbeg : ys.headD l.tail ∈ ys ++ [l.tail] := by cases ys <;> simp
    refine (hl.sortPassFrom_permutes hbeg hpass).trans fun ys₁ _ hl₁ => ?_
    split at hrun
    · exact hl₁.sortPasses_permutes hrun
    · simp only [Option.pure_def, Option.some.injEq] at hrun
      exact hrun ▸ Permutes.refl hl₁

/-- **`list_sort`**, whatever `less` answers: a completed call leaves a well-formed list holding
a permutation of its elements, and writes no node outside it. -/
theorem IsList.sort (hl : IsList h l xs) {fuel : Nat} {h' : Heap α}
    (hrun : listSort h l less fuel = some h') : Permutes l h xs h' := by
  simp only [listSort, Option.bind_eq_bind] at hrun
  obtain ⟨g, hpasses, hrun⟩ := Option.bind_eq_some_iff.mp hrun
  obtain ⟨b, -, hrun⟩ := Option.bind_eq_some_iff.mp hrun
  obtain ⟨s, -, hrun⟩ := Option.bind_eq_some_iff.mp hrun
  split at hrun
  · simp only [Option.pure_def, Option.some.injEq] at hrun
    exact hrun ▸ hl.sortPasses_permutes hpasses
  · simp at hrun

end Sorting

end Pintos.KList
