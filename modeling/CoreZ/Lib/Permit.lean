import Mathlib.Logic.Basic

/-!
# `CoreZ.Lib.Permit`: a binary semaphore and who has its unit

A semaphore that is used as a mutex has the value 1 or 0. In the first case nobody has
its unit, and in the second one somebody has it, and only one. `Permit v H` says this for
a value `v` and a set `H` of those who have the unit, whatever they are: tasks at some
point of their code, or a group of tasks. The rules say how the unit is taken, given back
and handed on.
-/

set_option autoImplicit false

namespace CoreZ.Lib

variable {α : Type*}

structure Permit (v : Nat) (H : α → Prop) : Prop where
  le_one : v ≤ 1
  free : v = 1 → ∀ x, ¬ H x
  held : v = 0 → ∃ x, H x
  unique : ∀ x y, H x → H y → x = y

variable {v : Nat} {H H' : α → Prop} {a b : α}

section

variable (h : Permit v H)

include h

theorem Permit.congr (hH : ∀ x, H' x ↔ H x) : Permit v H' := by
  have heq : H' = H := funext fun x => propext (hH x)
  rw [heq]
  exact h

/-- The unit is there, and `a` takes it. -/
theorem Permit.take (hv : 0 < v) (hH : ∀ x, H' x ↔ H x ∨ x = a) : Permit (v - 1) H' := by
  have hone : v = 1 := by
    have := h.le_one
    omega
  have honly : ∀ x, H' x → x = a := fun x hx => ((hH x).mp hx).resolve_left (h.free hone x)
  refine ⟨by omega, by omega, fun _ => ⟨a, (hH a).mpr (.inr rfl)⟩, fun x y hx hy => ?_⟩
  rw [honly x hx, honly y hy]

/-- The value is 0 while somebody has the unit. -/
theorem Permit.eq_zero (ha : H a) : v = 0 := by
  refine Nat.eq_zero_of_not_pos fun hpos => ?_
  have hone : v = 1 := Nat.le_antisymm h.le_one hpos
  exact h.free hone a ha

/-- Whoever has the unit gives it back; the value is a byte. -/
theorem Permit.give (ha : H a) (hH : ∀ x, H' x ↔ H x ∧ x ≠ a) : Permit ((v + 1) % 256) H' := by
  have hnone : ∀ x, ¬ H' x := by
    intro x hx
    obtain ⟨hx, hne⟩ := (hH x).mp hx
    exact hne (h.unique x a hx ha)
  rw [h.eq_zero ha]
  exact ⟨by omega, fun _ => hnone, by omega, fun x y hx => absurd hx (hnone x)⟩

/-- The unit goes from `a` to `b`. -/
theorem Permit.handOn (ha : H a) (hH : ∀ x, H' x ↔ (H x ∧ x ≠ a) ∨ x = b) : Permit v H' := by
  have honly : ∀ x, H' x → x = b := by
    intro x hx
    rcases (hH x).mp hx with ⟨hx, hne⟩ | hx
    · exact absurd (h.unique x a hx ha) hne
    · exact hx
  refine ⟨h.le_one, fun hv => ?_, fun _ => ⟨b, (hH b).mpr (.inr rfl)⟩, fun x y hx hy => ?_⟩
  · exact absurd ha (h.free hv a)
  · rw [honly x hx, honly y hy]

end

end CoreZ.Lib
