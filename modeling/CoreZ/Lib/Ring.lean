import Mathlib.Data.List.Range

/-!
# `CoreZ.Lib.Ring`: byte rings with free-running counters

A ring of capacity `cap` is a function `buf : Nat → β` of which only
the indices below `cap` are used. Its two counters run freely, and an
access reduces them modulo the capacity. `ringList buf cap head n` is
the contents: the `n` cells from `head` on, in order.

`ringPut` writes a list behind the contents and `ringList_put` says
that it appends, as long as the list fits. `ringList_drop` is the
reading side: moving the head drops the cells that were read.
-/

set_option autoImplicit false

namespace CoreZ.Lib

open Function

variable {β : Type*}

/-- The `n` cells of the ring from the counter `head` on. -/
def ringList (buf : Nat → β) (cap head n : Nat) : List β :=
  (List.range n).map fun i => buf ((head + i) % cap)

/-- Write a list into the ring from the counter `tail` on, one cell
for each element. -/
def ringPut (cap : Nat) : (Nat → β) → Nat → List β → (Nat → β)
  | buf, _, [] => buf
  | buf, tail, x :: xs => ringPut cap (Function.update buf (tail % cap) x) (tail + 1) xs

section

variable (buf : Nat → β)

@[simp] theorem length_ringList {cap head n : Nat} : (ringList buf cap head n).length = n := by
  simp [ringList]

@[simp] theorem ringList_zero (cap head : Nat) : ringList buf cap head 0 = [] := rfl

/-- The contents depend on the head only modulo the capacity. -/
theorem ringList_mod (cap head n : Nat) :
    ringList buf cap (head % cap) n = ringList buf cap head n := by
  simp [ringList, Nat.mod_add_mod]

/-- One more cell at the end. -/
theorem ringList_succ (cap head n : Nat) :
    ringList buf cap head (n + 1) = ringList buf cap head n ++ [buf ((head + n) % cap)] := by
  simp [ringList, List.range_succ]

/-- Reading `k` cells and moving the head past them drops them. -/
theorem ringList_drop (cap head n k : Nat) :
    (ringList buf cap head n).drop k = ringList buf cap (head + k) (n - k) := by
  apply List.ext_getElem
  · simp
  · simp [ringList, Nat.add_assoc]

theorem ringList_take (cap head n k : Nat) (hk : k ≤ n) :
    (ringList buf cap head n).take k = ringList buf cap head k := by
  apply List.ext_getElem
  · simp [hk]
  · simp [ringList]

end

/-- Two counters less than one capacity apart name different cells. -/
theorem mod_ne_mod_of_lt {cap a b : Nat} (hab : a < b) (hb : b < a + cap) :
    a % cap ≠ b % cap := by
  intro h
  have hdvd : cap ∣ b - a := Nat.dvd_of_mod_eq_zero (Nat.sub_mod_eq_zero_of_mod_eq h.symm)
  have hle := Nat.le_of_dvd (by omega) hdvd
  omega

/-- A write behind the contents leaves them alone while the ring has
room for it. -/
theorem ringList_update {buf : Nat → β} {cap head n : Nat} {x : β} (hn : n < cap) :
    ringList (update buf ((head + n) % cap) x) cap head n = ringList buf cap head n := by
  refine List.map_congr_left fun i hi => ?_
  have hi' : i < n := List.mem_range.mp hi
  exact update_of_ne (mod_ne_mod_of_lt (by omega) (by omega)) _ _

/-- Writing a list that fits appends it to the contents. -/
theorem ringList_put (cap head : Nat) :
    ∀ (xs : List β) (buf : Nat → β) (n : Nat), n + xs.length ≤ cap →
      ringList (ringPut cap buf (head + n) xs) cap head (n + xs.length)
        = ringList buf cap head n ++ xs := by
  intro xs
  induction xs with
  | nil => intro buf n _; simp [ringPut]
  | cons x xs ih =>
    intro buf n hle
    have hle' : n + 1 + xs.length ≤ cap := by
      simp only [List.length_cons] at hle
      omega
    have hrec := ih (update buf ((head + n) % cap) x) (n + 1) hle'
    rw [ringList_succ, ringList_update (by omega), update_self, List.append_assoc] at hrec
    have hlen : n + (x :: xs).length = n + 1 + xs.length := by
      simp only [List.length_cons]
      omega
    rw [hlen]
    exact hrec

/-- Writing depends on the tail only modulo the capacity. -/
theorem ringPut_mod {cap : Nat} :
    ∀ (xs : List β) (buf : Nat → β) (t t' : Nat), t % cap = t' % cap →
      ringPut cap buf t xs = ringPut cap buf t' xs := by
  intro xs
  induction xs with
  | nil => intro buf t t' _; rfl
  | cons x xs ih =>
    intro buf t t' h
    show ringPut cap (update buf (t % cap) x) (t + 1) xs
      = ringPut cap (update buf (t' % cap) x) (t' + 1) xs
    rw [h]
    exact ih _ _ _ (by rw [Nat.add_mod, h, ← Nat.add_mod])

end CoreZ.Lib
