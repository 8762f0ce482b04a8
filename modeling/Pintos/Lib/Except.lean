import Mathlib.Logic.Basic
import Mathlib.Algebra.Ring.Nat
import Mathlib.Algebra.Ring.Int.Defs

/-! # Reading successful `Except` computations

A model written in `do` notation over `Except` is taken apart one bind at a time: a bind that
succeeds is a first computation that succeeds and a continuation that succeeds on its value.
A `foldlM` that succeeds is a chain of successful steps, so what each step preserves holds at
its end.
-/

namespace Except
set_option autoImplicit false

theorem bind_eq_ok {ε α β : Type} {x : Except ε α} {f : α → Except ε β} {b : β} :
    x >>= f = .ok b ↔ ∃ a, x = .ok a ∧ f a = .ok b := by
  cases x <;> simp [bind, Except.bind]

theorem pure_eq_ok {ε α : Type} {a b : α} : (pure a : Except ε α) = .ok b ↔ a = b := by
  simp [pure, Except.pure]

theorem foldlM_inv {ε α β : Type} (P : β → Prop) {f : β → α → Except ε β}
    (hf : ∀ b a b', P b → f b a = .ok b' → P b') :
    ∀ (l : List α) {b b' : β}, P b → l.foldlM f b = .ok b' → P b'
  | [], b, b', hb, h => by
    simp only [List.foldlM_nil, pure_eq_ok] at h
    exact h ▸ hb
  | a :: l, b, b', hb, h => by
    rw [List.foldlM_cons, bind_eq_ok] at h
    obtain ⟨b₁, h₁, h⟩ := h
    exact foldlM_inv P hf l (hf b a b₁ hb h₁) h

end Except
