import Mathlib.Data.Nat.Find
import Mathlib.Algebra.Order.Ring.Nat
import CoreZ.Crypto.Sha256

/-!
# `CoreZ.Proofs.Crypto.Sha256`: SHA-256 and HMAC meet their standards

`fips180` is the hash of FIPS 180-4 and `rfc2104` the HMAC over it,
written from the standards: constants as roots of primes, the schedule
as a recursion, the padding of the whole message. The context of the
code stands for the bytes that it was given so far (`Absorbed`), however
they were cut, because a block hash keeps nothing but the state after
the whole blocks and the rest (`absorb_append`). The padding of
`sha256_final` is more input of that kind.
-/

set_option autoImplicit false

namespace CoreZ.Proofs.Crypto

open CoreZ.Lib
open CoreZ.Crypto

/-! ### The standards -/

def ch (x y z : Word) : Word := (x &&& y) ^^^ (~~~x &&& z)

def maj (x y z : Word) : Word := (x &&& y) ^^^ (x &&& z) ^^^ (y &&& z)

def bigSigma0 (x : Word) : Word := x.rotateRight 2 ^^^ x.rotateRight 13 ^^^ x.rotateRight 22

def bigSigma1 (x : Word) : Word := x.rotateRight 6 ^^^ x.rotateRight 11 ^^^ x.rotateRight 25

def sigma0 (x : Word) : Word := x.rotateRight 7 ^^^ x.rotateRight 18 ^^^ (x >>> 3)

def sigma1 (x : Word) : Word := x.rotateRight 17 ^^^ x.rotateRight 19 ^^^ (x >>> 10)

/-- The first 64 primes. -/
def primes : List Nat := (List.range 312).filter fun p => 2 ≤ p ∧ ∀ d < p, 2 ≤ d → ¬ d ∣ p

/-- The first 32 bits of the fractional part of the `k`-th root of `p`. -/
def fracRoot (k p : Nat) : Word :=
  BitVec.ofNat 32 (Nat.findGreatest (fun r => r ^ k ≤ p * 2 ^ (32 * k)) (p * 2 ^ (32 * k)))

def schedule (M : Nat → Word) (t : Nat) : Word :=
  if t < 16 then M t
  else sigma1 (schedule M (t - 2)) + schedule M (t - 7) + sigma0 (schedule M (t - 15)) +
    schedule M (t - 16)

def fipsRound (r : Regs) (k w : Word) : Regs :=
  let t1 := r.h + bigSigma1 r.e + ch r.e r.f r.g + k + w
  let t2 := bigSigma0 r.a + maj r.a r.b r.cc
  ⟨t1 + t2, r.a, r.b, r.cc, r.d + t1, r.e, r.f, r.g⟩

/-- The `t`-th word of a block, the first byte highest. -/
def blockWord (block : List Byte) (t : Nat) : Word :=
  block.getD (4 * t) 0 ++ block.getD (4 * t + 1) 0 ++ block.getD (4 * t + 2) 0 ++
    block.getD (4 * t + 3) 0

def fipsCompress (h : Regs) (block : List Byte) : Regs :=
  h.add ((List.range 64).foldl (fun r t =>
    fipsRound r (fracRoot 3 (primes.getD t 0)) (schedule (blockWord block) t)) h)

def fipsInit : Regs :=
  let r := fun i => fracRoot 2 (primes.getD i 0)
  ⟨r 0, r 1, r 2, r 3, r 4, r 5, r 6, r 7⟩

/-- The `n` bytes of a number, the highest first. -/
def bigEndian (n : Nat) (x : BitVec (8 * n)) : List Byte :=
  (List.range n).map fun i => x.extractLsb' (8 * (n - 1 - i)) 8

/-- The padded message: a one, the fewest zeros that leave eight bytes
of the last block, and the number of bits. -/
def fipsPad (m : List Byte) : List Byte :=
  m ++ 0x80 :: List.replicate ((119 - m.length % 64) % 64) 0 ++
    bigEndian 8 (BitVec.ofNat 64 (8 * m.length))

def fips180 (m : List Byte) : List Byte :=
  (absorb 64 fipsCompress fipsInit (fipsPad m)).1.words.flatMap (bigEndian 4)

/-- The key with the length of a block. -/
def hmacKey (key : List Byte) : List Byte :=
  let k := if key.length > 64 then fips180 key else key
  k ++ List.replicate (64 - k.length) 0

def rfc2104 (key text : List Byte) : List Byte :=
  fips180 ((hmacKey key).map (· ^^^ 0x5c) ++ fips180 ((hmacKey key).map (· ^^^ 0x36) ++ text))

/-! ### The compression function -/

/-- The fraction of a root, from the two powers around it. -/
theorem fracRoot_eq {k p c r : Nat} (hk : k ≠ 0) (hle : (c * 2 ^ 32 + r) ^ k ≤ p * 2 ^ (32 * k))
    (hlt : p * 2 ^ (32 * k) < (c * 2 ^ 32 + r + 1) ^ k) : fracRoot k p = BitVec.ofNat 32 r := by
  have hroot : Nat.findGreatest (fun r => r ^ k ≤ p * 2 ^ (32 * k)) (p * 2 ^ (32 * k))
      = c * 2 ^ 32 + r := by
    refine Nat.findGreatest_eq_iff.mpr ⟨(Nat.le_self_pow hk _).trans hle, fun _ => hle, ?_⟩
    intro n hn _ hpow
    have hmono : (c * 2 ^ 32 + r + 1) ^ k ≤ n ^ k := Nat.pow_le_pow_left hn k
    omega
  apply BitVec.eq_of_toNat_eq
  rw [fracRoot, hroot, BitVec.toNat_ofNat, BitVec.toNat_ofNat]
  omega

/-- A table of the code holds the roots of the primes. -/
theorem table_eq {k b n : Nat} {l : List Word} (hk : k ≠ 0)
    (h : ∀ t < n, ∃ c < b,
      (c * 2 ^ 32 + (l.getD t 0).toNat) ^ k ≤ primes.getD t 0 * 2 ^ (32 * k) ∧
      primes.getD t 0 * 2 ^ (32 * k) < (c * 2 ^ 32 + (l.getD t 0).toNat + 1) ^ k) :
    ∀ t < n, l.getD t 0 = fracRoot k (primes.getD t 0) := by
  intro t ht
  obtain ⟨c, -, hle, hlt⟩ := h t ht
  rw [fracRoot_eq hk hle hlt, BitVec.ofNat_toNat, BitVec.setWidth_eq]

/-- The constants of the code are those of the standard. -/
theorem sha256K_eq : ∀ t < 64, sha256K.getD t 0 = fracRoot 3 (primes.getD t 0) :=
  table_eq (b := 7) (by decide) (by decide +kernel)

theorem sha256Init_h : sha256Init.h = fipsInit := by
  have h : ∀ t < 8, sha256Init.h.words.getD t 0 = fracRoot 2 (primes.getD t 0) :=
    table_eq (b := 5) (by decide) (by decide +kernel)
  show _ = Regs.mk (fracRoot 2 _) (fracRoot 2 _) (fracRoot 2 _) (fracRoot 2 _) (fracRoot 2 _)
    (fracRoot 2 _) (fracRoot 2 _) (fracRoot 2 _)
  rw [← h 0 (by decide), ← h 1 (by decide), ← h 2 (by decide), ← h 3 (by decide),
    ← h 4 (by decide), ← h 5 (by decide), ← h 6 (by decide), ← h 7 (by decide)]
  rfl

/-- Words are read with the high byte first. -/
theorem loadWord_eq (block : List Byte) (t : Nat) : loadWord block t = blockWord block t := by
  rw [loadWord, blockWord, Nat.mul_comm t 4]
  ext i hi
  grind

/-- By induction on the words that are missing. -/
theorem extendWords_eq (M : Nat → Word) (n : Nat) : ∀ i, 16 ≤ i →
    extendWords n ((List.range i).map (schedule M)) = (List.range (i + n)).map (schedule M) := by
  induction n with
  | zero => exact fun i _ => rfl
  | succ n ih =>
    intro i hi
    have hget : ∀ j, j < i → ((List.range i).map (schedule M)).getD j 0 = schedule M j := by
      intro j hj
      simp [hj]
    have hnew : schedule M i = schedule M (i - 16) + sigma0 (schedule M (i - 15)) +
        schedule M (i - 7) + sigma1 (schedule M (i - 2)) := by
      rw [schedule, if_neg (by omega)]
      ac_rfl
    have hstep := ih (i + 1) (by omega)
    rw [List.range_succ, List.map_append, List.map_singleton, hnew] at hstep
    rw [extendWords]
    simp only [List.length_map, List.length_range]
    rw [hget _ (by omega), hget _ (by omega), hget _ (by omega), hget _ (by omega), ← Nat.add_assoc,
      Nat.add_right_comm]
    exact hstep

/-- The code's compression is that of the standard. -/
theorem sha256Transform_eq : sha256Transform = fipsCompress := by
  funext h block
  have hfirst : (List.range 16).map (loadWord block)
      = (List.range 16).map (schedule (blockWord block)) := by
    refine List.map_congr_left fun t ht => ?_
    rw [schedule, if_pos (List.mem_range.mp ht), loadWord_eq]
  rw [sha256Transform, fipsCompress, hfirst, extendWords_eq _ 48 16 (Nat.le_refl _)]
  refine congrArg h.add (List.foldl_ext _ _ _ fun r t ht => ?_)
  have hlt := List.mem_range.mp ht
  rw [sha256K_eq t hlt]
  simp only [List.getD_eq_getElem?_getD, List.getElem?_map, List.getElem?_range hlt]
  rfl

/-! ### The context -/

/-- The context stands for the bytes `m`. -/
structure Absorbed (c : Sha256Ctx) (m : List Byte) : Prop where
  state : absorb 64 fipsCompress fipsInit m = (c.h, c.buf)
  len : c.len = BitVec.ofNat 64 m.length

variable {c : Sha256Ctx} {m : List Byte}

theorem absorbed_init : Absorbed sha256Init [] :=
  ⟨(absorb_of_lt (by decide)).trans (congrArg (·, []) sha256Init_h.symm), rfl⟩

/-- The buffer has what does not fill a block. -/
theorem Absorbed.length_buf (h : Absorbed c m) : c.buf.length = m.length % 64 := by
  have hlen := length_absorb_snd (f := fipsCompress) (n := 64) (by decide) fipsInit m
  rw [h.state] at hlen
  exact hlen

/-- The loop over the blocks, after a buffer that is empty. -/
theorem absorb_rest (h : Regs) (p : List Byte) :
    absorb 64 fipsCompress h p = ((absorb 64 fipsCompress h p).1,
      if (absorb 64 fipsCompress h p).2.length ≠ 0 then (absorb 64 fipsCompress h p).2 else
        []) := by
  refine Prod.ext rfl ?_
  split
  · rfl
  · rename_i hz
    exact List.length_eq_zero_iff.mp (not_not.mp hz)

/-- The three parts of `sha256_update` take the buffer and the new bytes
in blocks. -/
theorem sha256Update_eq (hc : c.buf.length < 64) (d : List Byte) :
    absorb 64 fipsCompress c.h (c.buf ++ d) = ((sha256Update c d).h, (sha256Update c d).buf) := by
  unfold sha256Update fillBuf
  rw [sha256Transform_eq]
  by_cases hnil : c.buf.length = 0
  · rw [List.length_eq_zero_iff.mp hnil]
    exact absorb_rest ..
  simp only [hnil, ne_eq, not_false_eq_true, if_true]
  by_cases hfull : c.buf.length + d.length < 64
  · -- all bytes fit into the buffer
    have hlt : (c.buf ++ d).length < 64 := by rwa [List.length_append]
    rw [Nat.min_eq_left (by omega), List.take_length, List.drop_length, if_neg (Nat.ne_of_lt hlt),
      absorb_of_lt hlt]
    simp only [absorb_of_lt (f := fipsCompress) (n := 64) (l := []) (by decide)]
    rfl
  · -- the buffer is full
    have hlen : (c.buf ++ d.take (64 - c.buf.length)).length = 64 := by
      rw [List.length_append, List.length_take]
      omega
    rw [Nat.min_eq_right (by omega), if_pos hlen]
    conv_lhs => rw [← List.take_append_drop (64 - c.buf.length) d, ← List.append_assoc,
      absorb_cons _ (by decide) hlen]
    exact absorb_rest ..

/-- More bytes are absorbed. -/
theorem Absorbed.update (h : Absorbed c m) (d : List Byte) :
    Absorbed (sha256Update c d) (m ++ d) := by
  have hlen := h.length_buf
  constructor
  · rw [absorb_append, h.state]
    exact sha256Update_eq (by omega) d
  · have hsame : (sha256Update c d).len = c.len + BitVec.ofNat 64 d.length := by
      unfold sha256Update fillBuf
      simp only
      split_ifs <;> rfl
    rw [hsame, h.len, List.length_append, BitVec.ofNat_add]

/-- By induction on the zeros; the loop stops at 56 bytes. -/
theorem Absorbed.padLoop {z n : Nat} (h : Absorbed c m) (hz : (m.length + z) % 64 = 56)
    (hlt : z < 64)
    (hn : z < n) : ∃ c', padLoop n c = some c' ∧ Absorbed c' (m ++ List.replicate z 0) := by
  induction z generalizing c m n with
  | zero =>
    obtain ⟨n, rfl⟩ := Nat.exists_eq_add_of_lt hn
    refine ⟨c, ?_, by rwa [List.replicate_zero, List.append_nil]⟩
    rw [Nat.zero_add, CoreZ.Crypto.padLoop, if_neg]
    rw [h.length_buf]
    exact not_not.mpr hz
  | succ z ih =>
    obtain ⟨n, rfl⟩ : ∃ k, n = k + 1 := ⟨n - 1, by omega⟩
    obtain ⟨c', hc', habs⟩ := ih (n := n) (h.update [0]) (by rw [List.length_append]; simp; omega)
      (by omega) (by omega)
    refine ⟨c', ?_, ?_⟩
    · rw [CoreZ.Crypto.padLoop, if_pos, hc']
      rw [h.length_buf]
      omega
    · rwa [List.append_assoc] at habs

/-- `sha256_final` appends the rest of the padded message. -/
theorem Absorbed.final (h : Absorbed c m) : sha256Final c = some (fips180 m) := by
  obtain ⟨c', hpad, habs⟩ := (h.update [0x80]).padLoop (z := (119 - m.length % 64) % 64) (n := 64)
    (by rw [List.length_append]; simp; omega) (by omega) (by omega)
  have hlen : c.len * 8 = BitVec.ofNat 64 (8 * m.length) := by
    rw [h.len, BitVec.ofNat_mul, BitVec.mul_comm]
    rfl
  have hall := (habs.update (bigEndian 8 (BitVec.ofNat 64 (8 * m.length)))).state
  have hm : m ++ [0x80] ++ List.replicate ((119 - m.length % 64) % 64) 0 ++
      bigEndian 8 (BitVec.ofNat 64 (8 * m.length)) = fipsPad m := by
    simp [fipsPad]
  rw [hm] at hall
  rw [sha256Final, hpad, fips180, hall, hlen]
  rfl

theorem absorbed_one (m : List Byte) : Absorbed (sha256Update sha256Init m) m :=
  absorbed_init.update m

/-- Chunks are absorbed one after the other. -/
theorem Absorbed.foldl (h : Absorbed c m) (chunks : List (List Byte)) :
    Absorbed (chunks.foldl sha256Update c) (m ++ chunks.flatten) := by
  induction chunks generalizing c m with
  | nil => simpa using h
  | cons d chunks ih => simpa using ih (h.update d)

/-- The two pads of the key. -/
theorem hmacSha256Init_eq (key : List Byte) :
    hmacSha256Init key = some (sha256Update sha256Init ((hmacKey key).map (· ^^^ 0x36)),
      sha256Update sha256Init ((hmacKey key).map (· ^^^ 0x5c))) := by
  have hlen : (fips180 key).length = 32 := by simp [fips180, Regs.words, bigEndian]
  have hdigest : sha256 key = some (fips180 key) := (absorbed_one key).final
  unfold hmacSha256Init hmacKey
  simp only
  split
  · rw [hdigest, hlen]
    rfl
  · rfl

/-- Any cutting of a message into calls of `sha256_update` gives its
digest, and `hmac_sha256` gives the HMAC for every key. -/
theorem sha256_hmac_correct :
    (∀ chunks : List (List Byte),
      sha256Final (chunks.foldl sha256Update sha256Init) = some (fips180 chunks.flatten)) ∧
    ∀ key msg : List Byte, hmacSha256 key msg = some (rfc2104 key msg) := by
  constructor
  · intro chunks
    exact (absorbed_init.foldl chunks).final
  · intro key msg
    have hinner := ((absorbed_one ((hmacKey key).map (· ^^^ 0x36))).update msg).final
    rw [hmacSha256, hmacSha256Init_eq]
    simp only [Option.bind_some, hinner]
    exact ((absorbed_one ((hmacKey key).map (· ^^^ 0x5c))).update _).final

end CoreZ.Proofs.Crypto
