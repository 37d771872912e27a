import Mathlib.Data.Set.Card

/-!
# `CoreZ.Lib.RefCount`: slots that refer to resources

A table `t : κ → Option ρ` gives every slot the resource it refers to,
or none. `count t r` is the number of slots that refer to `r`: what a
reference count is meant to be. `count_update` says how one write to
one slot changes it, `count_row` what a new row of slots adds;
everything else is about small counts.
-/

set_option autoImplicit false

namespace CoreZ.Lib.RefCount

open Function

variable {κ ρ : Type*}

/-- The slots that refer to `r`. -/
def holders (t : κ → Option ρ) (r : ρ) : Set κ := {k | t k = some r}

/-- The number of slots that refer to `r`. -/
noncomputable def count (t : κ → Option ρ) (r : ρ) : Nat := (holders t r).ncard

/-- No resource has infinitely many slots. -/
def FiniteRefs (t : κ → Option ρ) : Prop := ∀ r, (holders t r).Finite

/-- The holders after a new reference. -/
theorem holders_update_some [DecidableEq κ] (t : κ → Option ρ) (k : κ) (r : ρ) :
    holders (update t k (some r)) r = insert k (holders t r) := by
  ext j
  by_cases hj : j = k
  · subst hj
    simp [holders]
  · simp [holders, hj]

variable {t t' : κ → Option ρ} {r : ρ}

/-- The holders after a reference has gone. -/
theorem holders_update_ne [DecidableEq κ] {t : κ → Option ρ} {k : κ} {o : Option ρ}
    (ho : o ≠ some r) : holders (update t k o) r = holders t r \ {k} := by
  ext j
  by_cases hj : j = k
  · subst hj
    simp [holders, ho]
  · simp [holders, hj]

section

variable (hfin : FiniteRefs t)

include hfin

theorem FiniteRefs.update [DecidableEq κ] (k : κ) (o : Option ρ) : FiniteRefs (update t k o) := by
  intro r
  by_cases ho : o = some r
  · rw [ho, holders_update_some]
    exact (hfin r).insert k
  · rw [holders_update_ne ho]
    exact (hfin r).sdiff

/-- Fewer references are still finitely many. -/
theorem FiniteRefs.mono (hsub : ∀ k r, t' k = some r → t k = some r) : FiniteRefs t' :=
  fun r => (hfin r).subset fun k hk => hsub k r hk

/-- Fewer references are counted. -/
theorem count_mono (hsub : ∀ k, t' k = some r → t k = some r) : count t' r ≤ count t r :=
  Set.ncard_le_ncard (fun k hk => hsub k hk) (hfin r)

/-- One write to one slot: the old resource loses a reference, the new
one gains it. -/
theorem count_update [DecidableEq κ] [DecidableEq ρ] (k : κ) (o : Option ρ) (r : ρ) :
    count (update t k o) r + (if t k = some r then 1 else 0)
      = count t r + (if o = some r then 1 else 0) := by
  by_cases ho : o = some r
  · subst ho
    rw [count, holders_update_some, if_pos rfl]
    by_cases hk : t k = some r
    · -- the slot referred to the resource already
      have hmem : k ∈ holders t r := hk
      rw [if_pos hk, Set.insert_eq_of_mem hmem]
      rfl
    · have hmem : k ∉ holders t r := hk
      rw [if_neg hk, Set.ncard_insert_of_notMem hmem (hfin r)]
      rfl
  · rw [count, holders_update_ne ho, if_neg ho]
    by_cases hk : t k = some r
    · have hmem : k ∈ holders t r := hk
      rw [if_pos hk]
      exact Set.ncard_sdiff_singleton_add_one hmem (hfin r)
    · have hmem : k ∉ holders t r := hk
      rw [if_neg hk, Set.sdiff_singleton_eq_self hmem]
      rfl

/-- Nobody refers to what is counted 0. -/
theorem count_eq_zero_iff : count t r = 0 ↔ ∀ k, t k ≠ some r := by
  rw [count, Set.ncard_eq_zero (hfin r), Set.eq_empty_iff_forall_notMem]
  rfl

/-- A reference is counted. -/
theorem count_pos {k : κ} (hk : t k = some r) : 0 < count t r :=
  (Set.ncard_pos (hfin r)).mpr ⟨k, hk⟩

/-- A resource with one reference has one slot. -/
theorem eq_of_count_le_one {j k : κ} (hle : count t r ≤ 1) (hj : t j = some r) (hk : t k = some r) :
    j = k :=
  (Set.ncard_le_one (hfin r)).mp hle j hj k hk

/-- All slots that refer to the resource are one slot. -/
theorem count_le_one (h : ∀ j k, t j = some r → t k = some r → j = k) : count t r ≤ 1 :=
  (Set.ncard_le_one (hfin r)).mpr fun j hj k hk => h j k hj hk

end

/-- Tables with the same slots of a resource. -/
theorem count_congr (h : ∀ k, t' k = some r ↔ t k = some r) : count t' r = count t r := by
  have hset : holders t' r = holders t r := Set.ext h
  rw [count, count, hset]

theorem count_le_card [Fintype κ] (t : κ → Option ρ) (r : ρ) : count t r ≤ Fintype.card κ := by
  rw [count, ← Nat.card_eq_fintype_card, ← Set.ncard_univ]
  exact Set.ncard_le_ncard (Set.subset_univ _)

/-- A table of rows gets a row where it had none. -/
theorem count_row {ι : Type*} [Finite ι] [Finite κ] {t t' : ι × κ → Option ρ} {i : ι}
    (hblank : ∀ j, t (i, j) ≠ some r) (hsame : ∀ i' j, i' ≠ i → t' (i', j) = t (i', j)) :
    count t' r = count t r + count (fun j => t' (i, j)) r := by
  have hsplit : holders t' r = holders t r ∪ Prod.mk i '' holders (fun j => t' (i, j)) r := by
    ext ⟨i', j⟩
    by_cases hi : i' = i
    · subst hi
      simp [holders, hblank]
    · have hne : ∀ x, ¬ (i, x) = (i', j) := fun x h => hi (congrArg Prod.fst h).symm
      simp [holders, hsame i' j hi, hne]
  have hdisj : Disjoint (holders t r) (Prod.mk i '' holders (fun j => t' (i, j)) r) := by
    rw [Set.disjoint_right]
    rintro k ⟨j, -, rfl⟩
    exact hblank j
  rw [count, hsplit, Set.ncard_union_eq hdisj,
    Set.ncard_image_of_injective _ (Prod.mk_right_injective i)]
  rfl

/-- The references of a finite table, in the order of its slots. -/
theorem count_fin [DecidableEq ρ] {n : Nat} (t : Fin n → Option ρ) (r : ρ) :
    count t r = (List.finRange n).countP fun i => t i = some r := by
  rw [count, holders, Set.ncard_eq_toFinset_card']
  simp [List.countP_eq_length_filter, Finset.card, Finset.filter, Finset.univ, Fintype.elems]

/-! ### Stored counts -/

/-- `R n c` relates the number of references to the count that is stored
for them, in a scheme where a first reference is not counted and a
second one is stored as 2. -/
structure Discipline (R : Nat → Nat → Prop) : Prop where
  zero : R 0 0
  first : ∀ c, R 0 c → R 1 c
  share : ∀ n c, R (n + 1) c → c ≠ 255 → R (n + 2) (if c = 0 then 2 else c + 1)
  decref : ∀ n c, R (n + 1) c → 1 < c → R n (c - 1)
  last : ∀ n c, R (n + 1) c → c ≤ 1 → n = 0

/-- The stored count is the number of references, from two on. -/
def Exact (n c : Nat) : Prop := (n = 0 → c = 0) ∧ (n = 1 → c ≤ 1) ∧ (2 ≤ n → c = n)

/-- Counts that are exact. -/
theorem exact_discipline : Discipline Exact := by
  refine ⟨?_, fun c => ?_, fun n c => ?_, fun n c => ?_, fun n c => ?_⟩ <;> unfold Exact
  · omega
  · omega
  · split <;> omega
  · omega
  · omega

/-- The stored count is no less than the number of references, from two
on: references may be lost. -/
def AtMost (n c : Nat) : Prop := n ≤ 1 ∨ n ≤ c

/-- Counts that may be too high. -/
theorem atMost_discipline : Discipline AtMost := by
  refine ⟨?_, fun c => ?_, fun n c => ?_, fun n c => ?_, fun n c => ?_⟩ <;> unfold AtMost
  · omega
  · omega
  · split <;> omega
  · omega
  · omega

theorem AtMost.mono {m n c : Nat} (h : AtMost n c) (hle : m ≤ n) : AtMost m c := by
  unfold AtMost at *
  omega

end CoreZ.Lib.RefCount
