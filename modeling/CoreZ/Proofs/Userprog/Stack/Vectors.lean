import CoreZ.Userprog.Execve

/-!
# `CoreZ.Proofs.Userprog.Stack.Vectors`: which vectors `copy_strs` accepts

`Accepted sp v strs` says what it means for the vector `v` to name the
strings `strs`: each pointer and each string can be read, and the strings fit
into the buffer. At most 16 strings are looked at. `copyStrs_eq_some_iff`: the
loops of `copy_strs` give these strings, and fail when there are none.
-/

set_option autoImplicit false

namespace CoreZ.Proofs.Userprog.Stack

open CoreZ.Userprog.Exec

/-! ### The property -/

/-- The string is at `a`, with a zero behind it, in pages that can be read
by user code. -/
def StringAt (sp : Space) : (a : Nat) → List UInt8 → Prop
  | a, [] => userReadable sp (a / pageSize) = true ∧ sp.mem a = 0
  | a, c :: str => userReadable sp (a / pageSize) = true ∧ sp.mem a = c ∧ c ≠ 0 ∧
      StringAt sp (a + 1) str

/-- The entries of the vector at `addr`, from the `i`-th on, point to the
strings; behind them is NULL, unless no more entries are looked at. -/
def VectorAt (sp : Space) (addr : Nat) : (n i : Nat) → List (List UInt8) → Prop
  | 0, _, strs => strs = []
  | _ + 1, i, [] => copyPointer sp (u32 (addr + 8 * i)) = some 0
  | n + 1, i, str :: strs =>
    (∃ p, copyPointer sp (u32 (addr + 8 * i)) = some p ∧ p ≠ 0 ∧
      inUserRange (u32 p) 1 = true ∧ StringAt sp (u32 p) str) ∧
    VectorAt sp addr n (i + 1) strs

/-- The bytes that the strings take in the buffer. -/
def total : List (List UInt8) → Nat
  | [] => 0
  | str :: strs => str.length + 1 + total strs

/-- The strings fit behind the `used` bytes of the buffer. -/
def FitsAfter (used : Nat) (strs : List (List UInt8)) : Prop :=
  (∀ str ∈ strs, str.length < maxArgStrLen) ∧ used + total strs ≤ execStrbufHalf

/-- The vector names the strings. -/
def Accepted (sp : Space) : StrVec → List (List UInt8) → Prop
  | .null, strs => strs = []
  | .user addr _, strs => VectorAt sp addr maxArgNr 0 strs ∧ FitsAfter 0 strs
  | .kernel v, strs => strs = v.take maxArgNr ∧ FitsAfter 0 strs

/-! ### The loops -/

/-- The scan finds the string that stands there. -/
theorem strSpan_eq_some_iff (sp : Space) (n a : Nat) (str : List UInt8) :
    strSpan sp n a = some str ↔ str.length < n ∧ StringAt sp a str := by
  induction n generalizing a str with
  | zero =>
    exact ⟨fun h => absurd h (by simp [strSpan]), fun h => absurd h.1 (Nat.not_lt_zero _)⟩
  | succ n ih =>
    unfold strSpan
    by_cases hread : userReadable sp (a / pageSize) = true
    · rw [if_pos hread]
      by_cases hzero : sp.mem a = 0
      · rw [if_pos hzero]
        cases str with
        | nil => exact ⟨fun _ => ⟨Nat.succ_pos n, hread, hzero⟩, fun _ => rfl⟩
        | cons c str =>
          exact ⟨fun h => absurd h (by simp),
            fun ⟨_, _, hc, hne, _⟩ => absurd (hc.symm.trans hzero) hne⟩
      · rw [if_neg hzero]
        cases str with
        | nil => exact ⟨fun h => absurd h (by simp), fun ⟨_, _, h⟩ => absurd h hzero⟩
        | cons c str =>
          rw [Option.map_eq_some_iff]
          constructor
          · rintro ⟨rest, hrest, heq⟩
            obtain ⟨rfl, rfl⟩ := List.cons.inj heq
            obtain ⟨hlen, hstr⟩ := (ih (a + 1) rest).mp hrest
            exact ⟨Nat.succ_lt_succ hlen, hread, rfl, hzero, hstr⟩
          · rintro ⟨hlen, -, rfl, -, hstr⟩
            exact ⟨str, (ih (a + 1) str).mpr ⟨Nat.lt_of_succ_lt_succ hlen, hstr⟩, rfl⟩
    · rw [if_neg hread]
      cases str with
      | nil => exact ⟨fun h => absurd h (by simp), fun ⟨_, h, _⟩ => absurd h hread⟩
      | cons c str => exact ⟨fun h => absurd h (by simp), fun ⟨_, h, _⟩ => absurd h hread⟩

/-- A string is copied when it is readable and short enough. -/
theorem copyStr_eq_some_iff (sp : Space) (src max : Nat) (str : List UInt8) :
    copyStr sp src max = some str ↔
      inUserRange (u32 src) 1 = true ∧ str.length < max ∧ StringAt sp (u32 src) str := by
  unfold copyStr
  split
  next h => exact (strSpan_eq_some_iff sp max _ str).trans ⟨fun hs => ⟨h, hs⟩, fun hs => hs.2⟩
  next h => exact ⟨fun hs => absurd hs (by simp), fun hs => absurd hs.1 h⟩

/-- The buffer has room for the first string, and then for the others. -/
theorem fitsAfter_cons {used : Nat} {str : List UInt8} {strs : List (List UInt8)} :
    FitsAfter used (str :: strs) ↔
      str.length < maxArgStrLen ∧ FitsAfter (used + (str.length + 1)) strs := by
  have htotal : total (str :: strs) = str.length + 1 + total strs := rfl
  constructor
  · rintro ⟨hlen, hsum⟩
    exact ⟨hlen str List.mem_cons_self, fun x hx => hlen x (List.mem_cons_of_mem _ hx), by omega⟩
  · rintro ⟨hstr, hlen, hsum⟩
    refine ⟨fun x hx => ?_, by omega⟩
    rcases List.mem_cons.mp hx with rfl | hx
    · exact hstr
    · exact hlen x hx

theorem fitsAfter_nil {used : Nat} (h : used ≤ execStrbufHalf) : FitsAfter used [] :=
  ⟨fun _ h => absurd h List.not_mem_nil, h⟩

/-- A round of the loop. -/
theorem copyUserStrs_succ (sp : Space) (addr n i used : Nat) :
    copyUserStrs sp addr (n + 1) i used =
      (copyPointer sp (u32 (addr + 8 * i))).bind fun p =>
        if p = 0 then some []
        else (copyStr sp p (min (execStrbufHalf - used) maxArgStrLen)).bind fun str =>
          (copyUserStrs sp addr n (i + 1) (used + (str.length + 1))).map (str :: ·) := by
  conv => lhs; unfold copyUserStrs
  cases copyPointer sp (u32 (addr + 8 * i)) with
  | none => rfl
  | some p =>
    cases p with
    | zero => rfl
    | succ p =>
      rw [Option.bind_some, if_neg (Nat.succ_ne_zero p)]
      cases hstr : copyStr sp (p + 1) (min (execStrbufHalf - used) maxArgStrLen) with
      | none => simp [hstr]
      | some str => simp [hstr]

/-- By induction on the pointers that are left. -/
theorem copyUserStrs_eq_some_iff (sp : Space) (addr n i used : Nat) (strs : List (List UInt8))
    (hused : used ≤ execStrbufHalf) :
    copyUserStrs sp addr n i used = some strs ↔
      VectorAt sp addr n i strs ∧ FitsAfter used strs := by
  induction n generalizing i used strs with
  | zero =>
    constructor
    · intro h
      cases h
      exact ⟨rfl, fitsAfter_nil hused⟩
    · rintro ⟨rfl, -⟩
      rfl
  | succ n ih =>
    rw [copyUserStrs_succ, Option.bind_eq_some_iff]
    constructor
    · rintro ⟨p, hptr, h⟩
      by_cases hp : p = 0
      · rw [if_pos hp] at h
        cases h
        rw [hp] at hptr
        exact ⟨hptr, fitsAfter_nil hused⟩
      rw [if_neg hp, Option.bind_eq_some_iff] at h
      obtain ⟨str, hstr, h⟩ := h
      obtain ⟨rest, hrest, rfl⟩ := Option.map_eq_some_iff.mp h
      obtain ⟨hrange, hlen, hat⟩ := (copyStr_eq_some_iff sp p _ str).mp hstr
      -- what is left of the buffer bounds the copy, so the next string starts inside it
      have hroom : used + (str.length + 1) ≤ execStrbufHalf := by omega
      obtain ⟨hvec, hfits⟩ := (ih (i + 1) _ rest hroom).mp hrest
      exact ⟨⟨⟨p, hptr, hp, hrange, hat⟩, hvec⟩, fitsAfter_cons.mpr ⟨by omega, hfits⟩⟩
    · rintro ⟨hvec, hfits⟩
      cases strs with
      | nil => exact ⟨0, hvec, if_pos rfl⟩
      | cons str strs =>
        obtain ⟨⟨p, hptr, hp, hrange, hat⟩, hvec⟩ := hvec
        obtain ⟨hlen, hfits⟩ := fitsAfter_cons.mp hfits
        have hroom : used + (str.length + 1) ≤ execStrbufHalf :=
          Nat.le_trans (Nat.le_add_right _ _) hfits.2
        have hcopy := (copyStr_eq_some_iff sp p (min (execStrbufHalf - used) maxArgStrLen) str).mpr
          ⟨hrange, by omega, hat⟩
        refine ⟨p, hptr, ?_⟩
        rw [if_neg hp, hcopy, Option.bind_some, (ih (i + 1) _ strs hroom).mpr ⟨hvec, hfits⟩,
          Option.map_some]

/-- The strings of the kernel are not checked. -/
theorem copyKernelStrs_eq_some_iff (n used : Nat) (v strs : List (List UInt8))
    (hused : used ≤ execStrbufHalf) :
    copyKernelStrs n used v = some strs ↔ strs = v.take n ∧ FitsAfter used strs := by
  induction n generalizing used v strs with
  | zero =>
    constructor
    · intro h
      cases h
      exact ⟨rfl, fitsAfter_nil hused⟩
    · rintro ⟨rfl, -⟩
      rfl
  | succ n ih =>
    cases v with
    | nil =>
      constructor
      · intro h
        cases h
        exact ⟨rfl, fitsAfter_nil hused⟩
      · rintro ⟨rfl, -⟩
        rfl
    | cons str v =>
      unfold copyKernelStrs
      split
      next hbig =>
        refine ⟨fun h => absurd h (by simp), ?_⟩
        rintro ⟨rfl, hfits⟩
        rw [List.take_succ_cons, fitsAfter_cons] at hfits
        have := hfits.2.2
        omega
      next hsmall =>
        rw [Option.map_eq_some_iff]
        constructor
        · rintro ⟨rest, hrest, rfl⟩
          obtain ⟨rfl, hfits⟩ := (ih _ v rest (by omega)).mp hrest
          exact ⟨rfl, fitsAfter_cons.mpr ⟨by omega, hfits⟩⟩
        · rintro ⟨rfl, hfits⟩
          rw [List.take_succ_cons, fitsAfter_cons] at hfits
          exact ⟨v.take n, (ih _ v _ (by omega)).mpr ⟨rfl, hfits.2⟩, rfl⟩

/-- `copy_strs` copies the vectors that are accepted, and no others. -/
theorem copyStrs_eq_some_iff {sp : Space} {v : StrVec} {strs : List (List UInt8)} :
    copyStrs sp v = some strs ↔ Accepted sp v strs := by
  cases v with
  | null => exact ⟨fun h => (Option.some.inj h).symm, fun h => congrArg some h.symm⟩
  | user addr nonnull => exact copyUserStrs_eq_some_iff sp addr maxArgNr 0 0 strs (Nat.zero_le _)
  | kernel v => exact copyKernelStrs_eq_some_iff maxArgNr 0 v strs (Nat.zero_le _)

variable {sp : Space} {strs : List (List UInt8)}

theorem VectorAt.length_le {addr n i : Nat} (h : VectorAt sp addr n i strs) : strs.length ≤ n := by
  induction n generalizing i strs with
  | zero => exact Nat.le_of_eq (congrArg List.length h)
  | succ n ih =>
    cases strs with
    | nil => exact Nat.zero_le _
    | cons str strs => exact Nat.succ_le_succ (ih h.2)

/-- At most 16 strings, and no more bytes than the buffer has. -/
theorem Accepted.bounds {v : StrVec} (h : Accepted sp v strs) :
    strs.length ≤ maxArgNr ∧ total strs ≤ execStrbufHalf := by
  cases v with
  | null =>
    rw [show strs = [] from h]
    exact ⟨Nat.zero_le _, Nat.zero_le _⟩
  | user addr nonnull => exact ⟨h.1.length_le, by have := h.2.2; omega⟩
  | kernel v =>
    refine ⟨?_, by have := h.2.2; omega⟩
    rw [h.1, List.length_take]
    exact Nat.min_le_left _ _

end CoreZ.Proofs.Userprog.Stack
