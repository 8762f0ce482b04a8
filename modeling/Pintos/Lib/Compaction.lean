import Mathlib.Logic.Function.Basic
import Mathlib.Data.List.Basic
import Mathlib.Data.Nat.Init
import Mathlib.Algebra.Ring.Nat
import Mathlib.Algebra.Ring.Int.Defs

/-! # Stable compaction of an array with holes

An array is a function `Nat → β` read on `[0, n)`, and some of its entries are holes. Compaction
moves the entries that are not holes to the front, keeping their order. The usual loop does it
one hole at a time: the first entry after a hole moves into it and leaves a hole behind.

* `entries f n`: the array as a list; `live f n`: its entries that are not holes.
* `move f i j h`: the entry at `j` moved into `i`, and `j` overwritten by the hole `h`.
* `PackedBelow f i n`: every hole before `i` is followed by holes only, up to `n`. A move into
  the first hole of a run keeps `live` and extends `PackedBelow` by one; once `PackedBelow f n n`
  holds, the array starts with `live f n`.
-/

namespace Compaction
set_option autoImplicit false

variable {β : Type}

/-- The entries `f 0, …, f (n - 1)`. -/
def entries (f : Nat → β) (n : Nat) : List β := (List.range n).map f

section Entries
variable {f g : Nat → β} {n : Nat}

@[simp] theorem entries_zero : entries f 0 = [] := rfl

theorem entries_succ : entries f (n + 1) = entries f n ++ [f n] := by
  simp [entries, List.range_succ]

@[simp] theorem length_entries : (entries f n).length = n := by simp [entries]

theorem entries_congr (h : ∀ j < n, f j = g j) : entries f n = entries g n := by
  unfold entries
  exact List.map_congr_left (fun j hj => h j (List.mem_range.mp hj))

theorem mem_entries {b : β} : b ∈ entries f n ↔ ∃ j < n, f j = b := by
  simp [entries]

theorem entries_update_zero (b : β) :
    entries (Function.update f 0 b) (n + 1) = b :: (entries f (n + 1)).tail := by
  simp only [entries, List.range_succ_eq_map, List.map_cons, List.map_map, List.tail_cons,
    Function.update_self]
  congr 1

end Entries

variable (hole : β → Prop)

/-- The entries of `[0, n)` that are not holes, in index order. -/
def live [DecidablePred hole] (f : Nat → β) (n : Nat) : List β :=
  (entries f n).filter (fun b => ¬ hole b)

/-- The entry at `j` moved into `i`; `j` then holds `h`. -/
def move (f : Nat → β) (i j : Nat) (h : β) : Nat → β :=
  Function.update (Function.update f i (f j)) j h

/-- Every hole before `i` is followed by holes only, up to `n`. -/
def PackedBelow (f : Nat → β) (i n : Nat) : Prop :=
  ∀ a < i, hole (f a) → ∀ b, a ≤ b → b < n → hole (f b)

variable {hole}
variable {f g : Nat → β} {i j n a : Nat} {h : β}

section MoveApply

theorem move_apply_of_ne (hai : a ≠ i) (haj : a ≠ j) : move f i j h a = f a := by
  simp [move, hai, haj]

theorem move_apply_left (hij : i ≠ j) : move f i j h i = f j := by
  simp [move, hij]

@[simp] theorem move_apply_right : move f i j h j = h := by
  simp [move]

end MoveApply

section Live
variable [DecidablePred hole]

theorem live_succ :
    live hole f (n + 1) = live hole f n ++ if hole (f n) then [] else [f n] := by
  unfold live
  rw [entries_succ, List.filter_append]
  by_cases hn : hole (f n) <;> simp [hn]

theorem live_congr (hfg : ∀ j < n, f j = g j) : live hole f n = live hole g n := by
  unfold live
  rw [entries_congr hfg]

theorem live_of_holes (hab : a ≤ n) (hh : ∀ b, a ≤ b → b < n → hole (f b)) :
    live hole f n = live hole f a := by
  induction n, hab using Nat.le_induction with
  | base => rfl
  | succ n han ih =>
    rw [live_succ, if_pos (hh n han (Nat.lt_succ_self n)), List.append_nil]
    exact ih (fun b hab hbn => hh b hab (Nat.lt_succ_of_lt hbn))

theorem live_mark (p : β → Prop) [DecidablePred p] (hh : hole h) (hf : ∀ j < n, ¬ hole (f j))
    (hg : ∀ j < n, g j = if p (f j) then h else f j) :
    live hole g n = (entries f n).filter (fun b => ¬ p b) := by
  induction n with
  | zero => rfl
  | succ n ih =>
    rw [live_succ, entries_succ, List.filter_append,
      ih (fun j hj => hf j (Nat.lt_succ_of_lt hj)) (fun j hj => hg j (Nat.lt_succ_of_lt hj)),
      hg n (Nat.lt_succ_self n)]
    by_cases hp : p (f n) <;> simp [hp, hh, hf n (Nat.lt_succ_self n)]

theorem live_move (hij : i < j) (hjn : j < n) (hi : hole (f i))
    (hmid : ∀ m, i < m → m < j → hole (f m)) (hj : ¬ hole (f j)) (hh : hole h) :
    live hole (move f i j h) n = live hole f n := by
  have hg : live hole (move f i j h) (j + 1) = live hole f i ++ [f j] := by
    rw [live_succ, move_apply_right, if_pos hh, List.append_nil,
      live_of_holes (Nat.succ_le_of_lt hij) (fun b hb hbj => by
        rw [move_apply_of_ne (Nat.ne_of_gt (Nat.lt_of_succ_le hb)) (Nat.ne_of_lt hbj)]
        exact hmid b (Nat.lt_of_succ_le hb) hbj),
      live_succ, move_apply_left (Nat.ne_of_lt hij), if_neg hj,
      live_congr (fun a ha => move_apply_of_ne (Nat.ne_of_lt ha) (Nat.ne_of_lt (Nat.lt_trans ha hij)))]
  have hf : live hole f (j + 1) = live hole f i ++ [f j] := by
    rw [live_succ, if_neg hj, live_of_holes (Nat.le_of_lt hij) (fun b hb hbj => by
      rcases Nat.lt_or_eq_of_le hb with hb | rfl
      · exact hmid b hb hbj
      · exact hi)]
  have key : ∀ m, j + 1 ≤ m → live hole (move f i j h) m = live hole f m := by
    intro m hm
    induction m, hm using Nat.le_induction with
    | base => rw [hg, hf]
    | succ m hm ih =>
      rw [live_succ, live_succ, ih,
        move_apply_of_ne (Nat.ne_of_gt (Nat.lt_trans hij hm)) (Nat.ne_of_gt hm)]
  exact key n hjn

theorem entries_live_of_packed (hp : PackedBelow hole f n n) :
    entries f (live hole f n).length = live hole f n := by
  induction n with
  | zero => rfl
  | succ n ih =>
    by_cases hn : hole (f n)
    · have hp' : PackedBelow hole f n n := fun a ha hfa b hab hbn =>
        hp a (Nat.lt_succ_of_lt ha) hfa b hab (Nat.lt_succ_of_lt hbn)
      rw [live_succ, if_pos hn, List.append_nil]
      exact ih hp'
    · -- no hole at all: the live entries are all the entries
      have hall : ∀ j < n + 1, ¬ hole (f j) := fun j hj hfj =>
        hn (hp j hj hfj n (Nat.le_of_lt_succ hj) (Nat.lt_succ_self n))
      have hl : live hole f (n + 1) = entries f (n + 1) := by
        unfold live
        exact List.filter_eq_self.mpr (fun b hb => by
          obtain ⟨j, hj, rfl⟩ := mem_entries.mp hb
          simpa using hall j hj)
      rw [hl, length_entries]

end Live

namespace PackedBelow

theorem zero : PackedBelow hole f 0 n := fun _ ha => absurd ha (Nat.not_lt_zero _)

theorem mono {i' : Nat} (hp : PackedBelow hole f i n) (hi : i' ≤ i) : PackedBelow hole f i' n :=
  fun a ha => hp a (Nat.lt_of_lt_of_le ha hi)

theorem succ_of_live (hp : PackedBelow hole f i n) (hi : ¬ hole (f i)) :
    PackedBelow hole f (i + 1) n := by
  intro a ha hfa
  rcases Nat.lt_or_eq_of_le (Nat.le_of_lt_succ ha) with ha | rfl
  · exact hp a ha hfa
  · exact absurd hfa hi

theorem succ_of_holes (hp : PackedBelow hole f i n)
    (hh : ∀ b, i ≤ b → b < n → hole (f b)) : PackedBelow hole f (i + 1) n := by
  intro a ha hfa
  rcases Nat.lt_or_eq_of_le (Nat.le_of_lt_succ ha) with ha | rfl
  · exact hp a ha hfa
  · exact hh

theorem move_succ (hp : PackedBelow hole f i n) (hij : i < j) (hjn : j < n)
    (hj : ¬ hole (f j)) : PackedBelow hole (move f i j h) (i + 1) n := by
  intro a ha hga b hab hbn
  rcases Nat.lt_or_eq_of_le (Nat.le_of_lt_succ ha) with ha | rfl
  · -- a hole before `i` would have made `f j` a hole
    rw [move_apply_of_ne (Nat.ne_of_lt ha) (Nat.ne_of_lt (Nat.lt_trans ha hij))] at hga
    exact absurd (hp a ha hga j (Nat.le_of_lt (Nat.lt_trans ha hij)) hjn) hj
  · rw [move_apply_left (Nat.ne_of_lt hij)] at hga
    exact absurd hga hj

end PackedBelow

end Compaction
