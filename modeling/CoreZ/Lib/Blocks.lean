import Mathlib.Data.List.Basic

/-!
# `CoreZ.Lib.Blocks`: input that is taken in blocks

A function that reads its input in blocks of `n` elements leaves a rest
of less than `n`. `absorb` is that loop. `absorb_append` is why the
input can come in pieces: what was left over is put before the next
piece.
-/

set_option autoImplicit false

namespace CoreZ.Lib

variable {σ β : Type*} {n : Nat} {f : σ → List β → σ}

/-- The state after all whole blocks, and the rest. -/
def absorb (n : Nat) (f : σ → List β → σ) (s : σ) (l : List β) : σ × List β :=
  if 0 < n ∧ n ≤ l.length then absorb n f (f s (l.take n)) (l.drop n) else (s, l)
termination_by l.length
decreasing_by
  rw [List.length_drop]
  omega

theorem absorb_of_lt {l : List β} {s : σ} (h : l.length < n) : absorb n f s l = (s, l) := by
  rw [absorb, if_neg fun hc => Nat.not_le_of_lt h hc.2]

theorem absorb_cons {a l : List β} (s : σ) (hn : 0 < n) (ha : a.length = n) :
    absorb n f s (a ++ l) = absorb n f (f s a) l := by
  rw [absorb, if_pos ⟨hn, by rw [List.length_append]; omega⟩, List.take_left' ha,
    List.drop_left' ha]

theorem absorb_append (s : σ) (m d : List β) :
    absorb n f s (m ++ d) = absorb n f (absorb n f s m).1 ((absorb n f s m).2 ++ d) := by
  induction s, m using absorb.induct n f with
  | case1 s m h ih =>
    have hm : m ++ d = m.take n ++ (m.drop n ++ d) := by
      rw [← List.append_assoc, List.take_append_drop]
    have habsorb : absorb n f s m = absorb n f (f s (m.take n)) (m.drop n) := by
      rw [absorb, if_pos h]
    rw [hm, absorb_cons s h.1 (List.length_take_of_le h.2), ih, habsorb]
  | case2 s m h =>
    have habsorb : absorb n f s m = (s, m) := by rw [absorb, if_neg h]
    rw [habsorb]

theorem length_absorb_snd (hn : 0 < n) (s : σ) (l : List β) :
    (absorb n f s l).2.length = l.length % n := by
  induction s, l using absorb.induct n f with
  | case1 s l h ih =>
    rw [absorb, if_pos h, ih, List.length_drop, ← Nat.mod_eq_sub_mod h.2]
  | case2 s l h =>
    rw [absorb, if_neg h, Nat.mod_eq_of_lt (by omega)]

end CoreZ.Lib
