import Mathlib.Algebra.Group.Nat.Defs

/-!
# `CoreZ.Lib.Bytes`: byte buffers and their integer fields

A buffer is a function from offsets to bytes. `blit` copies `n` bytes
into it, which covers `memcpy`, `memmove` and `memset`; the stores of
fixed-width integers are instances of it. A load reads bytes back as a
natural number, little-endian (`le16`, `le32`) or big-endian (`be16`,
`be32`).

The lemmas say what a load sees after a store: the stored value at the
same offset, the old value at offsets the store does not touch.

A record that is filled field by field is a list of stores (`Put`). A byte
that one of them covers does not depend on what the buffer held before;
any other byte is the one it held before.
-/

set_option autoImplicit false

namespace CoreZ.Lib

/-- A byte buffer. -/
abbrev Buf := Nat → UInt8

/-- Copy `n` bytes of `src` to the offset `o`. -/
def blit (b : Buf) (o n : Nat) (src : Buf) : Buf := fun i =>
  if o ≤ i ∧ i < o + n then src (i - o) else b i

variable {b b' src : Buf} {i n o o' p width : Nat}

/-- A byte inside of the copy. -/
theorem blit_in (h : o ≤ i ∧ i < o + n) : blit b o n src i = src (i - o) := if_pos h

/-- A byte outside of the copy. -/
theorem blit_out (h : i < o ∨ o + n ≤ i) : blit b o n src i = b i := by
  refine if_neg ?_
  omega

/-! ### Loads -/

def le16 (b : Buf) (o : Nat) : Nat := (b o).toNat + (b (o + 1)).toNat * 256

def le32 (b : Buf) (o : Nat) : Nat :=
  (b o).toNat + (b (o + 1)).toNat * 256 + (b (o + 2)).toNat * 65536
    + (b (o + 3)).toNat * 16777216

def be16 (b : Buf) (o : Nat) : Nat := (b o).toNat * 256 + (b (o + 1)).toNat

def be32 (b : Buf) (o : Nat) : Nat :=
  (b o).toNat * 16777216 + (b (o + 1)).toNat * 65536 + (b (o + 2)).toNat * 256
    + (b (o + 3)).toNat

theorem toNat_byte_lt (x : UInt8) : x.toNat < 256 := x.toNat_lt

/-- A load depends on its own bytes only. -/
theorem be32_congr (h : ∀ k, k < 4 → b (o + k) = b' (o' + k)) : be32 b o = be32 b' o' := by
  have h0 : b o = b' o' := h 0 (by omega)
  rw [be32, be32, h0, h 1 (by omega), h 2 (by omega), h 3 (by omega)]

/-- A load depends on its own bytes only. -/
theorem be16_congr (h : ∀ k, k < 2 → b (o + k) = b' (o' + k)) : be16 b o = be16 b' o' := by
  have h0 : b o = b' o' := h 0 (by omega)
  rw [be16, be16, h0, h 1 (by omega)]

theorem le32_congr (h : ∀ k, k < 4 → b (o + k) = b' (o' + k)) : le32 b o = le32 b' o' := by
  have h0 : b o = b' o' := h 0 (by omega)
  rw [le32, le32, h0, h 1 (by omega), h 2 (by omega), h 3 (by omega)]

theorem le16_congr (h : ∀ k, k < 2 → b (o + k) = b' (o' + k)) : le16 b o = le16 b' o' := by
  have h0 : b o = b' o' := h 0 (by omega)
  rw [le16, le16, h0, h 1 (by omega)]

/-- A load gives 32 bits. -/
theorem be32_lt (b : Buf) (o : Nat) : be32 b o < 4294967296 := by
  have h0 := toNat_byte_lt (b o)
  have h1 := toNat_byte_lt (b (o + 1))
  have h2 := toNat_byte_lt (b (o + 2))
  have h3 := toNat_byte_lt (b (o + 3))
  unfold be32
  omega

/-! ### Stores -/

/-- The bytes of a number, the lowest first. -/
def leBytes (v : Nat) : Buf := fun k => UInt8.ofNat (v >>> (8 * k))

/-- The bytes of a 32-bit number, the highest first. -/
def beBytes (v : Nat) : Buf := fun k => UInt8.ofNat (v >>> (24 - 8 * k))

def putLe16 (b : Buf) (o v : Nat) : Buf := blit b o 2 (leBytes v)

def putLe32 (b : Buf) (o v : Nat) : Buf := blit b o 4 (leBytes v)

def putBe32 (b : Buf) (o v : Nat) : Buf := blit b o 4 (beBytes v)

/-- The byte at an offset of the copy. -/
theorem blit_add {k : Nat} (hk : k < n) : blit b o n src (o + k) = src k := by
  rw [blit_in ⟨Nat.le_add_right o k, by omega⟩, Nat.add_sub_cancel_left]

/-- Its first byte. -/
theorem blit_zero (hn : 0 < n) : blit b o n src o = src 0 := blit_add hn

/-- A copy elsewhere is not seen. -/
theorem le32_blit_of_disjoint (h : p + 4 ≤ o ∨ o + n ≤ p) : le32 (blit b o n src) p = le32 b p :=
  le32_congr fun i hi => blit_out (by omega)

/-- A load beside a copy. -/
theorem be32_blit_of_disjoint (h : p + 4 ≤ o ∨ o + n ≤ p) : be32 (blit b o n src) p = be32 b p :=
  be32_congr fun i hi => blit_out (by omega)

theorem le16_blit_of_disjoint (h : p + 2 ≤ o ∨ o + n ≤ p) : le16 (blit b o n src) p = le16 b p :=
  le16_congr fun i hi => blit_out (by omega)

/-- The bytes of a number give the number back. -/
theorem le32_leBytes (v : Nat) : le32 (leBytes v) 0 = v % 4294967296 := by
  simp only [le32, leBytes, UInt8.toNat_ofNat', Nat.shiftRight_eq_div_pow]
  omega

theorem le16_leBytes (v : Nat) : le16 (leBytes v) 0 = v % 65536 := by
  simp only [le16, leBytes, UInt8.toNat_ofNat', Nat.shiftRight_eq_div_pow]
  omega

theorem be32_beBytes (v : Nat) : be32 (beBytes v) 0 = v % 4294967296 := by
  simp only [be32, beBytes, UInt8.toNat_ofNat', Nat.shiftRight_eq_div_pow]
  omega

/-- A stored number is read back, reduced to the width of the field. -/
theorem le32_putLe32 (b : Buf) (o v : Nat) : le32 (putLe32 b o v) o = v % 4294967296 := by
  rw [← le32_leBytes]
  exact le32_congr fun k hk => by rw [putLe32, blit_add hk, zero_add]

/-- A store of 16 bits is read back. -/
theorem le16_putLe16 {b : Buf} {o v : Nat} : le16 (putLe16 b o v) o = v % 65536 := by
  rw [← le16_leBytes]
  exact le16_congr fun k hk => by rw [putLe16, blit_add hk, zero_add]

/-- A store of 32 bits is read back. -/
theorem be32_putBe32 (b : Buf) (o v : Nat) : be32 (putBe32 b o v) o = v % 4294967296 := by
  rw [← be32_beBytes]
  exact be32_congr fun k hk => by rw [putBe32, blit_add hk, zero_add]

/-- A load beside a store. -/
theorem be32_putBe32_of_disjoint {v : Nat} (h : p + 4 ≤ o ∨ o + 4 ≤ p) :
    be32 (putBe32 b o v) p = be32 b p := be32_blit_of_disjoint h

/-! ### Records -/

/-- A load of `width` bytes at `o`, the lowest first. -/
def leNat (b : Buf) : (width o : Nat) → Nat
  | 0, _ => 0
  | width + 1, o => (b o).toNat + 256 * leNat b width (o + 1)

/-- A store of the low `width` bytes of `value` at `off`, the lowest
first. -/
structure Put where
  off : Nat
  width : Nat
  value : Nat

/-- The store writes the byte `i`. -/
def Put.Covers (p : Put) (i : Nat) : Prop := p.off ≤ i ∧ i < p.off + p.width
  deriving Decidable

def puts : Buf → List Put → Buf
  | b, [] => b
  | b, p :: ps => puts (blit b p.off p.width (leBytes p.value)) ps

/-- Consecutive fields of one width. -/
def fields (width : Nat) : Nat → List Nat → List Put
  | _, [] => []
  | off, v :: vs => ⟨off, width, v⟩ :: fields width (off + width) vs

/-- A byte that a store does not cover. -/
theorem blit_of_not_covers {q : Put} (h : ¬ q.Covers i) : blit b q.off q.width src i = b i := by
  refine blit_out ?_
  unfold Put.Covers at h
  omega

/-- The byte `i` is the same after the same stores, if it was before or
if one of them covers it. -/
theorem puts_congr (ps : List Put) {c : Buf} (h : b i = c i ∨ ∃ p ∈ ps, p.Covers i) :
    puts b ps i = puts c ps i := by
  induction ps generalizing b c with
  | nil =>
    obtain h | ⟨p, hp, -⟩ := h
    · exact h
    · exact absurd hp List.not_mem_nil
  | cons p ps ih =>
    refine ih ?_
    by_cases hc : p.Covers i
    · left
      rw [blit_in hc, blit_in hc]
    rw [blit_of_not_covers hc, blit_of_not_covers hc]
    obtain h | ⟨q, hq, hcov⟩ := h
    · exact .inl h
    · obtain rfl | hq := List.mem_cons.mp hq
      · exact absurd hcov hc
      · exact .inr ⟨q, hq, hcov⟩

/-- A byte that some store covers does not depend on what was there. -/
theorem puts_eq_of_covers {ps : List Put} (h : ∃ p ∈ ps, p.Covers i) (b c : Buf) :
    puts b ps i = puts c ps i := puts_congr ps (.inr h)

/-- A byte that no store covers stays. -/
theorem puts_of_not_covers {ps : List Put} (h : ∀ p ∈ ps, ¬ p.Covers i) : puts b ps i = b i := by
  induction ps generalizing b with
  | nil => rfl
  | cons p ps ih =>
    show puts (blit b p.off p.width (leBytes p.value)) ps i = b i
    rw [ih fun q hq => h q (List.mem_cons_of_mem p hq), blit_of_not_covers (h p List.mem_cons_self)]

/-- The fields of a record leave no gap. -/
theorem exists_fields_covers {vs : List Nat} {off : Nat} (hlo : off ≤ i)
    (hhi : i < off + width * vs.length) : ∃ p ∈ fields width off vs, p.Covers i := by
  induction vs generalizing off with
  | nil => exact absurd hhi (Nat.not_lt.mpr hlo)
  | cons v vs ih =>
    rw [List.length_cons, Nat.mul_succ] at hhi
    by_cases hfirst : i < off + width
    · exact ⟨⟨off, width, v⟩, List.mem_cons_self, hlo, hfirst⟩
    · obtain ⟨p, hp, hc⟩ := ih (Nat.not_lt.mp hfirst) (by omega)
      exact ⟨p, List.mem_cons_of_mem _ hp, hc⟩

/-- The fields of a record stay inside of it. -/
theorem fields_not_covers {vs : List Nat} {off : Nat} (h : i < off ∨ off + width * vs.length ≤ i) :
    ∀ p ∈ fields width off vs, ¬ p.Covers i := by
  induction vs generalizing off with
  | nil => exact fun p hp => absurd hp List.not_mem_nil
  | cons v vs ih =>
    rw [List.length_cons, Nat.mul_succ] at h
    intro p hp
    obtain rfl | hp := List.mem_cons.mp hp
    · unfold Put.Covers
      dsimp only
      omega
    · exact ih (by omega) p hp

/-- A load of any width depends on its own bytes only. -/
theorem leNat_congr {width : Nat} (h : ∀ k, k < width → b (o + k) = b' (o' + k)) :
    leNat b width o = leNat b' width o' := by
  induction width generalizing o o' with
  | zero => rfl
  | succ width ih =>
    have hfirst := h 0 (Nat.succ_pos width)
    have hrest : leNat b width (o + 1) = leNat b' width (o' + 1) := by
      refine ih fun k hk => ?_
      have hk' := h (k + 1) (Nat.succ_lt_succ hk)
      rw [Nat.add_right_comm, Nat.add_right_comm o']
      exact hk'
    show (b o).toNat + 256 * leNat b width (o + 1) = (b' o').toNat + 256 * leNat b' width (o' + 1)
    rw [hrest, show b o = b' o' from hfirst]

/-- A load gives what a store of the same width has put there. -/
theorem leNat_leBytes {v width : Nat} : leNat (leBytes v) width 0 = v % 256 ^ width := by
  -- the load from byte `j` on sees the number without its low `j` bytes
  have key : ∀ width j, leNat (leBytes v) width j = v / 256 ^ j % 256 ^ width := by
    intro width
    induction width with
    | zero => intro j; rw [Nat.pow_zero, Nat.mod_one]; rfl
    | succ width ih =>
      intro j
      have hbyte : (leBytes v j).toNat = v / 256 ^ j % 256 := by
        show (UInt8.ofNat (v >>> (8 * j))).toNat = _
        rw [UInt8.toNat_ofNat', Nat.shiftRight_eq_div_pow, Nat.pow_mul]
      show (leBytes v j).toNat + 256 * leNat (leBytes v) width (j + 1) = _
      rw [hbyte, ih (j + 1), Nat.pow_succ 256 j, ← Nat.div_div_eq_div_mul, Nat.pow_succ 256 width,
        mul_comm (256 ^ width), Nat.mod_mul]
  have h := key width 0
  rw [Nat.pow_zero, Nat.div_one] at h
  exact h

/-- Stores in a row. -/
theorem puts_append (b : Buf) (ps qs : List Put) : puts b (ps ++ qs) = puts (puts b ps) qs := by
  induction ps generalizing b with
  | nil => rfl
  | cons p ps ih => exact ih _

/-- The fields of a record are read back. -/
theorem leNat_puts_fields (vs : List Nat) (b : Buf) (off k : Nat) (hk : k < vs.length) :
    leNat (puts b (fields width off vs)) width (off + width * k) = vs[k] % 256 ^ width := by
  induction vs generalizing b off k with
  | nil => exact absurd hk (Nat.not_lt_zero k)
  | cons v vs ih =>
    cases k with
    | zero =>
      show leNat (puts (blit b off width (leBytes v)) (fields width (off + width) vs)) width off =
        v % 256 ^ width
      rw [← leNat_leBytes]
      refine leNat_congr fun j hj => ?_
      -- the fields that follow are above this one
      rw [puts_of_not_covers (fields_not_covers (.inl (by omega))), blit_add hj, zero_add]
    | succ k =>
      have hrec := ih (blit b off width (leBytes v)) (off + width) k (Nat.lt_of_succ_lt_succ hk)
      rw [Nat.mul_succ, add_comm (width * k), ← add_assoc]
      exact hrec

end CoreZ.Lib
