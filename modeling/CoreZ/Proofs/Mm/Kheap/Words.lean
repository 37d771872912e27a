import CoreZ.Mm.Kheap
import Mathlib.Data.Nat.Bitwise
import Mathlib.Data.Nat.Log

/-!
# `CoreZ.Proofs.Mm.Kheap.Words`: size words, rounding, buckets and bytes

The arithmetic below the heap. `enc t fr pf` is the `size` word of a
block of `t` bytes with its two flags, and the masks of the source read
and change its parts. `alignUp` rounds up. `mapInsert` orders the sizes:
a block in a later bucket is larger. Byte writes touch the words they
fall into and no other.
-/

set_option autoImplicit false

namespace CoreZ.Proofs.Mm.Kheap

open CoreZ.Mm.Kheap
open List

/-! ### Size words -/

/-- The `size` word: total, `HEAP_FREE`, `HEAP_PREV_FREE`. -/
def enc (t : Nat) (fr pf : Bool) : Nat := t + fr.toNat + 2 * pf.toNat

/-- The two flag bits of a word and the rest, under `&`. -/
theorem and_split (x y : Nat) : x &&& y = 4 * (x / 4 &&& y / 4) + (x % 4 &&& y % 4) := by
  have hdiv : (x &&& y) / 4 = x / 4 &&& y / 4 := Nat.and_div_two_pow (n := 2)
  have hmod : (x &&& y) % 4 = x % 4 &&& y % 4 := Nat.and_mod_two_pow (n := 2)
  omega

/-- The same under `|`. -/
theorem or_split (x y : Nat) : x ||| y = 4 * (x / 4 ||| y / 4) + (x % 4 ||| y % 4) := by
  have hdiv : (x ||| y) / 4 = x / 4 ||| y / 4 := Nat.or_div_two_pow (n := 2)
  have hmod : (x ||| y) % 4 = x % 4 ||| y % 4 := Nat.or_mod_two_pow (n := 2)
  omega

variable {k n p t x : Nat}

theorem and_low62 (hlt : t < 2 ^ 64) : t / 4 &&& 4611686018427387903 = t / 4 := by
  have := Nat.and_two_pow_sub_one_eq_mod (t / 4) 62
  rw [this]
  exact Nat.mod_eq_of_lt (by omega)

/-- Bits above a bound are clear. -/
theorem testBit_of_lt {m i : Nat} (hm : m < 2 ^ n) (hi : n ≤ i) : m.testBit i = false :=
  Nat.testBit_lt_two_pow (lt_of_lt_of_le hm (Nat.pow_le_pow_right (by decide) hi))

section Enc

variable {t : Nat} (ht : t % 16 = 0) (fr pf : Bool)

include ht

/-- The size without its flags. -/
theorem enc_div : enc t fr pf / 4 = t / 4 := by
  cases fr <;> cases pf <;> simp only [enc, Bool.toNat_true, Bool.toNat_false] <;> omega

/-- The flags. -/
theorem enc_mod : enc t fr pf % 4 = fr.toNat + 2 * pf.toNat := by
  cases fr <;> cases pf <;> simp only [enc, Bool.toNat_true, Bool.toNat_false] <;> omega

/-- `block_total` of a header. -/
theorem enc_and_mask (hlt : t < 2 ^ 64) : enc t fr pf &&& heapSizeMask = t := by
  have hmask := and_low62 hlt
  rw [and_split, enc_div ht, heapSizeMask,
    show (18446744073709551612 : Nat) / 4 = 4611686018427387903 by decide, hmask,
    show (18446744073709551612 : Nat) % 4 = 0 by decide, Nat.and_zero]
  omega

/-- Setting the flag of the block. -/
theorem enc_or_free : enc t fr pf ||| heapFree = enc t true pf := by
  rw [or_split, enc_div ht, enc_mod ht, heapFree]
  cases fr <;> cases pf <;> simp [enc] <;> omega

/-- Setting the flag of the block before. -/
theorem enc_or_prevFree : enc t fr pf ||| heapPrevFree = enc t fr true := by
  rw [or_split, enc_div ht, enc_mod ht, heapPrevFree]
  cases fr <;> cases pf <;> simp [enc] <;> omega

/-- Testing the flag of the block. -/
theorem enc_and_free : enc t fr pf &&& heapFree = fr.toNat := by
  rw [and_split, enc_div ht, enc_mod ht, heapFree]
  cases fr <;> cases pf <;> simp

/-- Testing the flag of the block before. -/
theorem enc_and_prevFree : enc t fr pf &&& heapPrevFree = 2 * pf.toNat := by
  rw [and_split, enc_div ht, enc_mod ht, heapPrevFree]
  cases fr <;> cases pf <;> simp

/-- Clearing the flag of the block. -/
theorem enc_clear_free (hlt : t < 2 ^ 64) :
    enc t fr pf &&& (0xffffffffffffffff - heapFree) = enc t false pf := by
  have hmask := and_low62 hlt
  rw [and_split, enc_div ht, enc_mod ht, heapFree,
    show (18446744073709551615 - 1 : Nat) % 4 = 2 by decide]
  cases fr <;> cases pf <;> simp [enc] <;> omega

/-- Clearing the flag of the block before. -/
theorem enc_clear_prevFree (hlt : t < 2 ^ 64) :
    enc t fr pf &&& (0xffffffffffffffff - heapPrevFree) = enc t fr false := by
  have hmask := and_low62 hlt
  rw [and_split, enc_div ht, enc_mod ht, heapPrevFree,
    show (18446744073709551615 - 2 : Nat) % 4 = 1 by decide]
  cases fr <;> cases pf <;> simp [enc] <;> omega

/-- `total | HEAP_PREV_FREE` as the previous flag says. -/
theorem or_prevFree (pf : Bool) : t ||| (2 * pf.toNat) = enc t false pf := by
  cases pf with
  | false => simp [enc]
  | true =>
    exact enc_or_prevFree ht false false

/-- `total | HEAP_FREE | HEAP_PREV_FREE` as the previous flag says. -/
theorem or_free_prevFree (pf : Bool) : t ||| heapFree ||| (2 * pf.toNat) = enc t true pf := by
  have h0 : t ||| heapFree = enc t true false := by
    have := enc_or_free ht false false
    simpa [enc] using this
  rw [h0]
  cases pf with
  | false => simp [enc]
  | true => exact enc_or_prevFree ht true false

end Enc

/-! ### Rounding -/

/-- Masking the low bits off rounds down. -/
theorem alignDown_eq (hx : x < 2 ^ 64) (hk : k ≤ 64) :
    alignDown x (2 ^ k) = x / 2 ^ k * 2 ^ k := by
  refine Nat.eq_of_testBit_eq fun i => ?_
  have hpos : 0 < 2 ^ k := Nat.two_pow_pos k
  have hle : (2 : Nat) ^ k ≤ 2 ^ 64 := Nat.pow_le_pow_right (by omega) hk
  have hmask : (18446744073709551616 - 2 ^ k).testBit i = (decide (i < 64) && !decide (i < k)) := by
    have h := Nat.testBit_two_pow_sub_succ (x := 2 ^ k - 1) (n := 64) (by omega) i
    rw [show 2 ^ k - 1 + 1 = 2 ^ k by omega, Nat.testBit_two_pow_sub_one] at h
    exact h
  rw [alignDown, Nat.testBit_and, hmask, Nat.testBit_mul_two_pow, Nat.testBit_div_two_pow]
  by_cases hik : i < k
  · simp [hik]
  rw [show i - k + k = i by omega]
  by_cases hi : i < 64
  · simp [hik, hi]
    omega
  · have hbig : x.testBit i = false := testBit_of_lt hx (by omega)
    simp [hbig]

/-- Rounding up to a power of two that does not wrap. -/
theorem alignUp_eq (hx : x + 2 ^ k ≤ 2 ^ 64) (hk : k ≤ 64) :
    alignUp x (2 ^ k) = (x + 2 ^ k - 1) / 2 ^ k * 2 ^ k := by
  rw [alignUp, Nat.mod_eq_of_lt (by omega), alignDown_eq (by omega) hk]

/-- A difference that does not wrap. -/
theorem sub64_eq {y : Nat} (hy : y ≤ x) (hx : x < 2 ^ 64) : sub64 x y = x - y := by
  unfold sub64
  omega

/-- Rounding up to the alignment of blocks. -/
theorem alignUp_heapAlign (hx : x + 16 ≤ 2 ^ 64) :
    alignUp x heapAlign = (x + 15) / 16 * 16 := alignUp_eq (k := 4) hx (by decide)

/-! ### Buckets -/

/-- There are 16 lists for each power of two. -/
theorem mapInsert_snd_lt (t : Nat) : (mapInsert t).2 < 16 := by
  exact lt_of_le_of_lt Nat.and_le_right (by decide)

/-- The second level counts sixteenths above the power of two. -/
theorem mapInsert_snd (ht : 16 ≤ t) : t / 2 ^ (t.log2 - 4) = 16 + (mapInsert t).2 := by
  have hne : t ≠ 0 := by omega
  have h4 : 4 ≤ t.log2 := (Nat.le_log2 hne).mpr ht
  have hlo : 2 ^ t.log2 ≤ t := Nat.log2_self_le hne
  have hhi : t < 2 ^ (t.log2 + 1) := Nat.lt_log2_self
  have hsplit : 2 ^ t.log2 = 16 * 2 ^ (t.log2 - 4) := by
    rw [show (16 : Nat) = 2 ^ 4 by decide, ← Nat.pow_add]
    congr 1
    omega
  have hpos : 0 < 2 ^ (t.log2 - 4) := Nat.two_pow_pos _
  have h1 : 16 ≤ t / 2 ^ (t.log2 - 4) := (Nat.le_div_iff_mul_le hpos).mpr (by omega)
  have h2 : t / 2 ^ (t.log2 - 4) < 32 := (Nat.div_lt_iff_lt_mul hpos).mpr (by
    omega)
  have hsnd : (mapInsert t).2 = t / 2 ^ (t.log2 - 4) % 16 := by
    show (t >>> (t.log2 - 4)) &&& 15 = _
    rw [Nat.shiftRight_eq_div_pow]
    exact Nat.and_two_pow_sub_one_eq_mod _ 4
  omega

/-- A block in a later bucket is larger. -/
theorem lt_of_mapInsert {s : Nat} (hs : 16 ≤ s) (ht : 16 ≤ t)
    (h : (mapInsert s).1 < (mapInsert t).1 ∨
      (mapInsert s).1 = (mapInsert t).1 ∧ (mapInsert s).2 < (mapInsert t).2) : s < t := by
  have ht0 : t ≠ 0 := by omega
  rcases h with hlt | ⟨heq, hlt⟩
  · have h1 : s < 2 ^ (s.log2 + 1) := Nat.lt_log2_self
    have h2 : 2 ^ t.log2 ≤ t := Nat.log2_self_le ht0
    have h3 : (2 : Nat) ^ (s.log2 + 1) ≤ 2 ^ t.log2 := Nat.pow_le_pow_right (by omega) hlt
    omega
  have hlog : s.log2 = t.log2 := heq
  have h1 := mapInsert_snd hs
  have h2 := mapInsert_snd ht
  rw [← hlog] at h2
  by_contra hge
  have : t / 2 ^ (s.log2 - 4) ≤ s / 2 ^ (s.log2 - 4) := Nat.div_le_div_right (by omega)
  omega

/-- The lowest set bit is set. -/
theorem lowestBit_spec {m : Nat} (hm : m ≠ 0) (hlt : m < 4294967296) :
    m.testBit (lowestBit m) = true ∧ lowestBit m < 32 := by
  obtain ⟨i, hi⟩ := Nat.exists_testBit_of_ne_zero hm
  have hi32 : i < 32 := by
    by_contra hge
    have : m.testBit i = false := testBit_of_lt (n := 32) hlt (by omega)
    rw [this] at hi
    cases hi
  rw [lowestBit]
  cases hfind : (range 32).find? fun i => m.testBit i with
  | none =>
    rw [find?_eq_none] at hfind
    exact absurd hi (hfind i (mem_range.mpr hi32))
  | some j =>
    have hj := find?_some hfind
    have hmem := mem_of_find?_eq_some hfind
    exact ⟨hj, mem_range.mp hmem⟩

/-! ### Bytes -/

/-- The control block and the areas of two heaps are the same. -/
structure SameCtl (h h' : Heap) : Prop where
  blocks : h'.blocks = h.blocks
  slBitmap : h'.slBitmap = h.slBitmap
  flBitmap : h'.flBitmap = h.flBitmap
  areas : h'.areas = h.areas

/-- At most the words of the `n` bytes at `p` differ. -/
structure WritesIn (h h' : Heap) (p n : Nat) : Prop where
  ctl : SameCtl h h'
  mem : ∀ y, y < p ∨ p + n ≤ y → h'.mem y = h.mem y

theorem WritesIn.refl (h : Heap) (p n : Nat) : WritesIn h h p n :=
  ⟨⟨rfl, rfl, rfl, rfl⟩, fun _ _ => rfl⟩

/-- One byte more. -/
theorem WritesIn.setByte {h h' : Heap} (hw : WritesIn h h' p n) (hp : p % 8 = 0)
    (hx : p ≤ x ∧ x < p + n) (v : Nat) : WritesIn h (setByte h' x v) p n := by
  refine ⟨⟨hw.ctl.blocks, hw.ctl.slBitmap, hw.ctl.flBitmap, hw.ctl.areas⟩, fun y hy => ?_⟩
  rw [← hw.mem y hy]
  exact Function.update_of_ne (by omega) _ _

/-- The byte loops of `memset` and `memcpy`. -/
theorem writesIn_foldl {f : Heap → Nat → Nat} (hp : p % 8 = 0) (h : Heap) {k : Nat} (hk : k ≤ n) :
    WritesIn h ((range k).foldl (fun h i => setByte h (p + i) (f h i)) h) p n := by
  induction k with
  | zero => exact WritesIn.refl h p n
  | succ k ih =>
    rw [range_succ, foldl_append, foldl_cons, foldl_nil]
    exact (ih (by omega)).setByte hp (by omega) _

/-- The word that `setByte` writes. -/
theorem testBit_setByte (w s v j : Nat) :
    (w - ((w >>> s) % 256) <<< s + (v % 256) <<< s).testBit j
      = if s ≤ j ∧ j < s + 8 then (v % 256).testBit (j - s) else w.testBit j := by
  have hlow : w % 2 ^ s < 2 ^ s := Nat.mod_lt _ (Nat.two_pow_pos s)
  -- the bits above the byte, the byte, and the bits below it
  have hw : w = 2 ^ (s + 8) * (w / 2 ^ (s + 8)) + (2 ^ s * (w / 2 ^ s % 256) + w % 2 ^ s) := by
    have h1 := Nat.div_add_mod w (2 ^ (s + 8))
    have h2 : w % 2 ^ (s + 8) = w % 2 ^ s + 2 ^ s * (w / 2 ^ s % 256) := by
      rw [Nat.pow_add, Nat.mod_mul]
    omega
  have hnew : w - ((w >>> s) % 256) <<< s + (v % 256) <<< s
      = 2 ^ (s + 8) * (w / 2 ^ (s + 8)) + (2 ^ s * (v % 256) + w % 2 ^ s) := by
    rw [Nat.shiftRight_eq_div_pow, Nat.shiftLeft_eq, Nat.shiftLeft_eq, mul_comm _ (2 ^ s),
      mul_comm _ (2 ^ s)]
    omega
  have hmid : 2 ^ s * (v % 256) + w % 2 ^ s < 2 ^ (s + 8) := by
    rw [Nat.pow_add]
    calc 2 ^ s * (v % 256) + w % 2 ^ s < 2 ^ s * (v % 256) + 2 ^ s := by omega
      _ = 2 ^ s * (v % 256 + 1) := by rw [Nat.mul_add, Nat.mul_one]
      _ ≤ 2 ^ s * 2 ^ 8 := Nat.mul_le_mul_left _ (by omega)
  rw [hnew, Nat.testBit_two_pow_mul_add _ hmid, Nat.testBit_two_pow_mul_add _ hlow,
    Nat.testBit_mod_two_pow, Nat.testBit_div_two_pow]
  by_cases h1 : j < s
  · rw [if_pos (by omega), if_pos h1, if_neg (by omega), decide_eq_true h1, Bool.true_and]
  by_cases h2 : j < s + 8
  · rw [if_pos h2, if_neg h1, if_pos (by omega)]
  · rw [if_neg h2, if_neg (by omega), Nat.sub_add_cancel (by omega)]

/-- A byte is a part of its word. -/
theorem getByte_congr {h h' : Heap} (hm : h'.mem (x / 8 * 8) = h.mem (x / 8 * 8)) :
    getByte h' x = getByte h x := by
  rw [getByte, getByte, hm]

/-- The bits of a byte. -/
theorem testBit_getByte (h : Heap) (x i : Nat) :
    (getByte h x).testBit i = (decide (i < 8) && (h.mem (x / 8 * 8)).testBit
      (8 * (x % 8) + i)) := by
  rw [getByte, show (256 : Nat) = 2 ^ 8 by decide, Nat.testBit_mod_two_pow, Nat.testBit_shiftRight]

/-- One byte is written, the others stay. -/
theorem getByte_setByte (h : Heap) (x v y : Nat) :
    getByte (setByte h x v) y = if y = x then v % 256 else getByte h y := by
  by_cases hword : y / 8 * 8 = x / 8 * 8
  · have hmem : (setByte h x v).mem (y / 8 * 8) = h.mem (x / 8 * 8)
        - ((h.mem (x / 8 * 8) >>> (8 * (x % 8))) % 256) <<< (8 * (x % 8))
        + (v % 256) <<< (8 * (x % 8)) := by
      rw [hword]
      exact Function.update_self ..
    refine Nat.eq_of_testBit_eq fun i => ?_
    rw [testBit_getByte, hmem, testBit_setByte]
    by_cases hi : i < 8
    · rw [decide_eq_true hi, Bool.true_and]
      by_cases hyx : y = x
      · rw [if_pos hyx, if_pos (by omega), hyx, Nat.add_sub_cancel_left]
      · rw [if_neg hyx, if_neg (by omega), testBit_getByte, hword, decide_eq_true hi, Bool.true_and]
    -- bytes have eight bits
    rw [decide_eq_false hi, Bool.false_and]
    split
    · exact (Nat.testBit_lt_two_pow (lt_of_lt_of_le (Nat.mod_lt _ (by decide))
        (Nat.pow_le_pow_right (i := 8) (by decide) (by omega)))).symm
    · rw [testBit_getByte, decide_eq_false hi, Bool.false_and]
  · have hne : y ≠ x := fun heq => hword (by rw [heq])
    rw [if_neg hne]
    exact getByte_congr (Function.update_of_ne hword _ _)

/-- The bytes behind `memcpy` between ranges that do not overlap. -/
theorem getByte_memcpy (h : Heap) {dst src : Nat} (hap : dst + n ≤ src ∨ src + n ≤ dst) (y : Nat) :
    getByte (memcpy h dst src n) y
      = if dst ≤ y ∧ y < dst + n then getByte h (src + (y - dst)) else getByte h y := by
  have hlt : ∀ x, getByte h x % 256 = getByte h x := fun x => Nat.mod_mod _ _
  -- the loop has copied the bytes before `k`
  have key : ∀ k, k ≤ n → ∀ y, getByte ((range k).foldl
      (fun h i => setByte h (dst + i) (getByte h (src + i))) h) y
      = if dst ≤ y ∧ y < dst + k then getByte h (src + (y - dst)) else getByte h y := by
    intro k
    induction k with
    | zero =>
      intro _ y
      rw [if_neg (by omega)]
      rfl
    | succ k ih =>
      intro hk y
      rw [range_succ, foldl_append, foldl_cons, foldl_nil, getByte_setByte,
        ih (by omega), ih (by omega), if_neg (show ¬ (dst ≤ src + k ∧ src + k < dst + k) by omega),
        hlt]
      by_cases hy : y = dst + k
      · rw [if_pos hy, if_pos (by omega), hy, Nat.add_sub_cancel_left]
      rw [if_neg hy]
      refine if_congr ?_ rfl rfl
      omega
  exact key n le_rfl y

end CoreZ.Proofs.Mm.Kheap
