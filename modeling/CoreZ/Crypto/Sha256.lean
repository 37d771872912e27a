import CoreZ.Lib.Blocks

/-!
# `CoreZ.Crypto.Sha256`: SHA-256 and HMAC

`sha256.c` up to `hmac_sha256`. Words are `BitVec 32`, so sums wrap as
in C. A context keeps the bytes of `buf` up to `buf_len`: nothing reads
the others. The loop of `sha256_final` that pads gets fuel, and the
result is `none` when it does not end.
-/

set_option autoImplicit false

namespace CoreZ.Crypto

open CoreZ.Lib

abbrev Byte := BitVec 8
abbrev Word := BitVec 32

/-- `ROTR` -/
def rotr (x : Word) (n : Nat) : Word := (x >>> n) ||| (x <<< (32 - n))

def sha256K : List Word :=
  [0x428a2f98, 0x71374491, 0xb5c0fbcf, 0xe9b5dba5, 0x3956c25b, 0x59f111f1,
    0x923f82a4, 0xab1c5ed5, 0xd807aa98, 0x12835b01, 0x243185be, 0x550c7dc3,
    0x72be5d74, 0x80deb1fe, 0x9bdc06a7, 0xc19bf174, 0xe49b69c1, 0xefbe4786,
    0x0fc19dc6, 0x240ca1cc, 0x2de92c6f, 0x4a7484aa, 0x5cb0a9dc, 0x76f988da,
    0x983e5152, 0xa831c66d, 0xb00327c8, 0xbf597fc7, 0xc6e00bf3, 0xd5a79147,
    0x06ca6351, 0x14292967, 0x27b70a85, 0x2e1b2138, 0x4d2c6dfc, 0x53380d13,
    0x650a7354, 0x766a0abb, 0x81c2c92e, 0x92722c85, 0xa2bfe8a1, 0xa81a664b,
    0xc24b8b70, 0xc76c51a3, 0xd192e819, 0xd6990624, 0xf40e3585, 0x106aa070,
    0x19a4c116, 0x1e376c08, 0x2748774c, 0x34b0bcb5, 0x391c0cb3, 0x4ed8aa4a,
    0x5b9cca4f, 0x682e6ff3, 0x748f82ee, 0x78a5636f, 0x84c87814, 0x8cc70208,
    0x90befffa, 0xa4506ceb, 0xbef9a3f7, 0xc67178f2]

/-- The words `h[0]` to `h[7]`, and the variables `a` to `h` of the
rounds. -/
structure Regs where
  a : Word
  b : Word
  cc : Word
  d : Word
  e : Word
  f : Word
  g : Word
  h : Word

def Regs.words (r : Regs) : List Word := [r.a, r.b, r.cc, r.d, r.e, r.f, r.g, r.h]

def Regs.add (x y : Regs) : Regs :=
  ⟨x.a + y.a, x.b + y.b, x.cc + y.cc, x.d + y.d, x.e + y.e, x.f + y.f, x.g + y.g, x.h + y.h⟩

/-- The word `w[i]` of the block, for `i < 16`. -/
def loadWord (block : List Byte) (i : Nat) : Word :=
  (block.getD (i * 4) 0).setWidth 32 <<< 24 ||| (block.getD (i * 4 + 1) 0).setWidth 32 <<< 16 |||
    (block.getD (i * 4 + 2) 0).setWidth 32 <<< 8 ||| (block.getD (i * 4 + 3) 0).setWidth 32

/-- The loop that extends `w`, for `n` words. -/
def extendWords : Nat → List Word → List Word
  | 0, w => w
  | n + 1, w =>
    let i := w.length
    let w15 := w.getD (i - 15) 0
    let w2 := w.getD (i - 2) 0
    let s0 := rotr w15 7 ^^^ rotr w15 18 ^^^ (w15 >>> 3)
    let s1 := rotr w2 17 ^^^ rotr w2 19 ^^^ (w2 >>> 10)
    extendWords n (w ++ [w.getD (i - 16) 0 + s0 + w.getD (i - 7) 0 + s1])

/-- One round. -/
def round (r : Regs) (k w : Word) : Regs :=
  let bigS1 := rotr r.e 6 ^^^ rotr r.e 11 ^^^ rotr r.e 25
  let ch := (r.e &&& r.f) ^^^ (~~~r.e &&& r.g)
  let t1 := r.h + bigS1 + ch + k + w
  let bigS0 := rotr r.a 2 ^^^ rotr r.a 13 ^^^ rotr r.a 22
  let maj := (r.a &&& r.b) ^^^ (r.a &&& r.cc) ^^^ (r.b &&& r.cc)
  let t2 := bigS0 + maj
  ⟨t1 + t2, r.a, r.b, r.cc, r.d + t1, r.e, r.f, r.g⟩

def sha256Transform (h : Regs) (block : List Byte) : Regs :=
  let w := extendWords 48 ((List.range 16).map (loadWord block))
  h.add ((List.range 64).foldl (fun r i => round r (sha256K.getD i 0) (w.getD i 0)) h)

/-- `struct sha256_ctx` -/
structure Sha256Ctx where
  h : Regs
  len : BitVec 64
  buf : List Byte

def sha256Init : Sha256Ctx where
  h := ⟨0x6a09e667, 0xbb67ae85, 0x3c6ef372, 0xa54ff53a, 0x510e527f, 0x9b05688c, 0x1f83d9ab,
    0x5be0cd19⟩
  len := 0
  buf := []

/-- The first part of `sha256_update`: a buffer that is not empty is
filled up. The second component is what is left of the input. -/
def fillBuf (c : Sha256Ctx) (p : List Byte) : Sha256Ctx × List Byte :=
  if c.buf.length ≠ 0 then
    let take := min p.length (64 - c.buf.length)
    let buf := c.buf ++ p.take take
    (if buf.length = 64 then { c with h := sha256Transform c.h buf, buf := [] }
      else { c with buf := buf }, p.drop take)
  else (c, p)

def sha256Update (c : Sha256Ctx) (data : List Byte) : Sha256Ctx :=
  let (c, p) := fillBuf { c with len := c.len + BitVec.ofNat 64 data.length } data
  let (h, p) := absorb 64 sha256Transform c.h p
  { c with h := h, buf := if p.length ≠ 0 then p else c.buf }

/-- The loop of `sha256_final` that appends zero bytes. -/
def padLoop : Nat → Sha256Ctx → Option Sha256Ctx
  | 0, _ => none
  | n + 1, c => if c.buf.length ≠ 56 then padLoop n (sha256Update c [0]) else some c

/-- The bytes that `sha256_final` writes for a word. -/
def outBytes (x : Word) : List Byte :=
  [(x >>> 24).setWidth 8, (x >>> 16).setWidth 8, (x >>> 8).setWidth 8, x.setWidth 8]

def sha256Final (c : Sha256Ctx) : Option (List Byte) :=
  let bits := c.len * 8
  (padLoop 64 (sha256Update c [0x80])).map fun c =>
    let lenbuf := (List.range 8).map fun i => (bits >>> (56 - 8 * i)).setWidth 8
    let h := (sha256Update c lenbuf).h
    h.words.flatMap outBytes

def sha256 (data : List Byte) : Option (List Byte) := sha256Final (sha256Update sha256Init data)

/-- `hmac_sha256_init`: the contexts `inner` and `outer`. -/
def hmacSha256Init (key : List Byte) : Option (Sha256Ctx × Sha256Ctx) :=
  let k := if key.length > 64 then (sha256 key).map (· ++ List.replicate 32 0)
    else some (key ++ List.replicate (64 - key.length) 0)
  k.map fun k => (sha256Update sha256Init (k.map (· ^^^ 0x36)),
    sha256Update sha256Init (k.map (· ^^^ 0x5c)))

/-- `hmac_sha256`, with `hmac_sha256_update` and `hmac_sha256_final`. -/
def hmacSha256 (key msg : List Byte) : Option (List Byte) :=
  (hmacSha256Init key).bind fun (inner, outer) =>
    (sha256Final (sha256Update inner msg)).bind fun innerHash =>
      sha256Final (sha256Update outer innerHash)

end CoreZ.Crypto
