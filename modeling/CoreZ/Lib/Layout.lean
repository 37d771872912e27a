import CoreZ.Lib.Bytes

/-!
# `CoreZ.Lib.Layout`: regions of a buffer, one above the other

A region is a start and a length. `Stacked lo rs hi` says that the regions
`rs` lie between `lo` and `hi`, each above the one before it; no two of them
share a byte then (`Stacked.pairwise`). `Within lo hi b b'` says that the two
buffers differ between `lo` and `hi` only, so that whatever is stored outside
is still there. `row` reads a row of integers.
-/

set_option autoImplicit false

namespace CoreZ.Lib

/-! ### Changes -/

/-- `b'` is `b`, except for bytes from `lo` up to `hi`. -/
def Within (lo hi : Nat) (b b' : Buf) : Prop := ∀ i, i < lo ∨ hi ≤ i → b' i = b i

namespace Within

variable {lo hi lo' hi' : Nat} {b b' b'' : Buf}

theorem refl (lo hi : Nat) (b : Buf) : Within lo hi b b := fun _ _ => rfl

theorem trans (h : Within lo hi b b') (h' : Within lo hi b' b'') : Within lo hi b b'' :=
  fun i hi => (h' i hi).trans (h i hi)

theorem mono (h : Within lo hi b b') (hlo : lo' ≤ lo) (hhi : hi ≤ hi') : Within lo' hi' b b' :=
  fun i hi => h i (by omega)

theorem blit (b : Buf) (o n : Nat) (src : Buf) : Within o (o + n) b (blit b o n src) :=
  fun _ hi => blit_out hi

end Within

/-! ### Rows of integers -/

/-- The `n` integers of `width` bytes from `o` on. -/
def row (b : Buf) (width : Nat) : (n o : Nat) → List Nat
  | 0, _ => []
  | n + 1, o => leNat b width o :: row b width n (o + width)

/-- A row of words in two parts. -/
theorem row_add (b : Buf) (width m n o : Nat) :
    row b width (m + n) o = row b width m o ++ row b width n (o + width * m) := by
  induction m generalizing o with
  | zero => rw [zero_add]; rfl
  | succ m ih =>
    rw [Nat.succ_add]
    show leNat b width o :: row b width (m + n) (o + width) = _
    rw [ih (o + width), Nat.mul_succ, add_comm (width * m), ← add_assoc]
    rfl

/-- A change elsewhere leaves the integers. -/
theorem row_of_within {lo hi : Nat} {b b' : Buf} (h : Within lo hi b b') {width n o : Nat}
    (hout : o + width * n ≤ lo ∨ hi ≤ o) : row b' width n o = row b width n o := by
  induction n generalizing o with
  | zero => rfl
  | succ n ih =>
    have hmul : width * (n + 1) = width * n + width := Nat.mul_succ width n
    have hfirst : leNat b' width o = leNat b width o := leNat_congr fun k hk => h (o + k) (by omega)
    show leNat b' width o :: row b' width n (o + width) = _
    rw [hfirst, ih (by omega)]
    rfl

/-! ### Regions -/

/-- The regions lie between `lo` and `hi`, each above the one before it. -/
def Stacked : (lo : Nat) → List (Nat × Nat) → (hi : Nat) → Prop
  | lo, [], hi => lo ≤ hi
  | lo, r :: rs, hi => lo ≤ r.1 ∧ Stacked (r.1 + r.2) rs hi

/-- The two regions share no byte. -/
def NoOverlap (r s : Nat × Nat) : Prop := r.1 + r.2 ≤ s.1 ∨ s.1 + s.2 ≤ r.1
  deriving Decidable

namespace Stacked

variable {lo mid hi : Nat} {rs ss : List (Nat × Nat)}

/-- Regions above one another reach upwards. -/
theorem le (h : Stacked lo rs hi) : lo ≤ hi := by
  induction rs generalizing lo with
  | nil => exact h
  | cons r rs ih => exact Nat.le_trans h.1 (Nat.le_trans (Nat.le_add_right _ _) (ih h.2))

theorem lower (h : Stacked mid rs hi) (hlo : lo ≤ mid) : Stacked lo rs hi := by
  cases rs with
  | nil => exact Nat.le_trans hlo h
  | cons r rs => exact ⟨Nat.le_trans hlo h.1, h.2⟩

/-- Two stacks of regions. -/
theorem append (h : Stacked lo rs mid) (h' : Stacked mid ss hi) : Stacked lo (rs ++ ss) hi := by
  induction rs generalizing lo with
  | nil => exact h'.lower h
  | cons r rs ih => exact ⟨h.1, ih h.2⟩

/-- Every region lies between the bounds. -/
theorem bounds (h : Stacked lo rs hi) {r : Nat × Nat} (hr : r ∈ rs) :
    lo ≤ r.1 ∧ r.1 + r.2 ≤ hi := by
  induction rs generalizing lo with
  | nil => exact absurd hr List.not_mem_nil
  | cons s rs ih =>
    rcases List.mem_cons.mp hr with rfl | hr
    · exact ⟨h.1, h.2.le⟩
    have := ih h.2 hr
    have := h.1
    omega

/-- No two regions share a byte. -/
theorem pairwise (h : Stacked lo rs hi) : rs.Pairwise NoOverlap := by
  induction rs generalizing lo with
  | nil => exact List.Pairwise.nil
  | cons r rs ih =>
    exact List.Pairwise.cons (fun s hs => Or.inl (h.2.bounds hs).1) (ih h.2)

end Stacked

end CoreZ.Lib
