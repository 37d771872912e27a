import Mathlib.Logic.Function.Basic

/-!
# `CoreZ.Mm.Kheap`: the kernel heap of `kernel/mm/kheap.c`

Memory is a function from addresses to 64-bit words: `mem x` is the word
at the multiple of eight `x`. A `struct MM_HEAP_BLOCK` at `b` is the
words `prev` at `b` and `size` at `b + 8`; the `struct
MM_HEAP_FREE_LINK` of a free block is `next` at `b + 16` and `prev` at
`b + 24`, in what would be the payload. Bytes of a payload are bytes of
these words (`getByte`, `setByte`). A pointer is an address, and `NULL`
is 0.

`size_t` arithmetic is explicit where it can wrap. Pointers into an area
never do: the pool hands out pages below `2 ^ 64`.

The pool is the environment: a call that may grow the heap takes the
addresses the pool would answer with. `getKernelPages` takes an answer
only if it is a run of pages outside every area, and is `NULL`
otherwise.

The one loop without a bound of its own is the walk through a free list
in `list_take`; it takes fuel, and `none` means that it ran out. `none`
is also the result of a failed `ASSERT`.
-/

set_option autoImplicit false

namespace CoreZ.Mm.Kheap

def heapAlign : Nat := 16

def heapSlLog2 : Nat := 4

def heapSlCount : Nat := 16

def heapFlCount : Nat := 32

def heapHdr : Nat := 16

def heapMinBlock : Nat := 2 * heapHdr

def heapMaxBytes : Nat := 0x40000000

def heapFree : Nat := 1

def heapPrevFree : Nat := 2

def heapSizeMask : Nat := 0xfffffffffffffffc

def pageSize : Nat := 4096

def kheapAreaMinPages : Nat := 16

def kheapAreaMaxPages : Nat := 256

def kheapMaxAreas : Nat := 64

/-- `x & ~(n - 1)` on 64 bits. -/
def alignDown (x n : Nat) : Nat := x &&& (0x10000000000000000 - n)

/-- `(x + n - 1) & ~(n - 1)` on 64 bits. -/
def alignUp (x n : Nat) : Nat := alignDown ((x + n - 1) % 0x10000000000000000) n

/-- `x - y` of two words of 64 bits. -/
def sub64 (x y : Nat) : Nat := (x + (0x10000000000000000 - y)) % 0x10000000000000000

abbrev Mem := Nat → Nat

/-- The memory, `kheap_ctl` and the other static variables. -/
structure Heap where
  mem : Mem
  flBitmap : Nat
  slBitmap : Nat → Nat
  blocks : Nat → Nat → Nat
  areas : List (Nat × Nat)
  usedBytes : Nat
  peakBytes : Nat
  allocCount : Nat

variable (h : Heap) (b : Nat)

namespace Heap

def setWord (x v : Nat) : Heap := { h with mem := Function.update h.mem x v }

/-- `b->prev`. -/
def prev : Nat := h.mem b

/-- `b->size`. -/
def size : Nat := h.mem (b + 8)

/-- `free_link(b)->next`. -/
def linkNext : Nat := h.mem (b + 16)

/-- `free_link(b)->prev`. -/
def linkPrev : Nat := h.mem (b + 24)

def setPrev (v : Nat) : Heap := h.setWord b v

def setSize (v : Nat) : Heap := h.setWord (b + 8) v

def setLinkNext (v : Nat) : Heap := h.setWord (b + 16) v

def setLinkPrev (v : Nat) : Heap := h.setWord (b + 24) v

/-- `if (q != NULL) free_link(q)->prev = v`. -/
def setLinkPrevOf (q v : Nat) : Heap := if q ≠ 0 then h.setLinkPrev q v else h

def setHead (fl sl v : Nat) : Heap :=
  { h with blocks := fun f s => if f = fl ∧ s = sl then v else h.blocks f s }

end Heap

def getByte (x : Nat) : Nat := (h.mem (x / 8 * 8) >>> (8 * (x % 8))) % 256

def setByte (x v : Nat) : Heap :=
  let w := h.mem (x / 8 * 8)
  let s := 8 * (x % 8)
  h.setWord (x / 8 * 8) (w - getByte h x <<< s + (v % 256) <<< s)

def memset (p v n : Nat) : Heap :=
  (List.range n).foldl (fun h i => setByte h (p + i) v) h

def memcpy (dst src n : Nat) : Heap :=
  (List.range n).foldl (fun h i => setByte h (dst + i) (getByte h (src + i))) h

def blockTotal : Nat := h.size b &&& heapSizeMask

def blockNext : Nat := b + blockTotal h b

def blockUser : Nat := b + heapHdr

def blockFrom (ptr : Nat) : Nat := ptr - heapHdr

/-- `b->size & HEAP_FREE`. -/
def isFree : Bool := decide (h.size b &&& heapFree ≠ 0)

/-- `b->size & HEAP_PREV_FREE`. -/
def isPrevFree : Bool := decide (h.size b &&& heapPrevFree ≠ 0)

/-- `b->size &= ~flag`. -/
def clearFlag (flag : Nat) : Heap :=
  h.setSize b (h.size b &&& (0xffffffffffffffff - flag))

/-! ### Free lists -/

def heapFls (x : Nat) : Nat := x.log2

def mapInsert (total : Nat) : Nat × Nat :=
  let f := heapFls total
  (f, (total >>> (f - heapSlLog2)) &&& (heapSlCount - 1))

def mapRequest (total : Nat) : Option (Nat × Nat) :=
  if total ≥ heapMaxBytes then none else some (mapInsert total)

def freelistPush : Heap :=
  let (fl, sl) := mapInsert (blockTotal h b)
  let h := h.setLinkNext b (h.blocks fl sl)
  let h := h.setLinkPrev b 0
  let h := h.setLinkPrevOf (h.linkNext b) b
  let h := h.setHead fl sl b
  { h with
    slBitmap := Function.update h.slBitmap fl (h.slBitmap fl ||| 1 <<< sl)
    flBitmap := h.flBitmap ||| 1 <<< fl }

/-- The end of a list in `freelist_remove`: the bucket is empty. -/
def clearBits (fl sl : Nat) : Heap :=
  let h := { h with
    slBitmap := Function.update h.slBitmap fl (h.slBitmap fl &&& (0xffffffff - 1 <<< sl)) }
  if h.slBitmap fl = 0 then { h with flBitmap := h.flBitmap &&& (0xffffffff - 1 <<< fl) } else h

def freelistRemove : Heap :=
  let (fl, sl) := mapInsert (blockTotal h b)
  let h :=
    if h.linkPrev b ≠ 0 then h.setLinkNext (h.linkPrev b) (h.linkNext b)
    else
      let h := h.setHead fl sl (h.linkNext b)
      if h.linkNext b = 0 then clearBits h fl sl else h
  h.setLinkPrevOf (h.linkNext b) (h.linkPrev b)

/-- `__builtin_ffs(m) - 1` for `m` other than 0. -/
def lowestBit (m : Nat) : Nat := ((List.range 32).find? fun i => m.testBit i).getD 0

/-- The walk through a list for a block of `total` bytes. -/
def findFit : Nat → Heap → Nat → Nat → Option Nat
  | 0, _, _, _ => none
  | fuel + 1, h, total, fit =>
    if fit = 0 then some 0
    else if blockTotal h fit ≥ total then some fit
    else findFit fuel h total (h.linkNext fit)

/-- The `while (sl_map != 0)` loop of `list_take`: a block, or 0. -/
def takeRow : Nat → Heap → (fl fl0 sl0 total slMap : Nat) → Option Nat
  | 0, _, _, _, _, _, _ => none
  | fuel + 1, h, fl, fl0, sl0, total, slMap =>
    if slMap = 0 then some 0
    else
      let sl := lowestBit slMap
      if fl = fl0 ∧ sl = sl0 then do
        let fit ← findFit fuel h total (h.blocks fl sl)
        if fit = 0 then takeRow fuel h fl fl0 sl0 total (slMap &&& (0xffffffff - 1 <<< sl))
        else return fit
      else some (h.blocks fl sl)

/-- The loop over the first level of `list_take`, with `n` levels left. -/
def takeLoop (fuel : Nat) (h : Heap) (fl0 sl0 total : Nat) : Nat → Option Nat
  | 0 => some 0
  | n + 1 => do
      let fl := heapFlCount - (n + 1)
      let low := if fl = fl0 then sl0 else 0
      let b ← takeRow fuel h fl fl0 sl0 total (h.slBitmap fl &&& (0xffffffff <<< low) % 0x100000000)
      if b = 0 then takeLoop fuel h fl0 sl0 total n else return b

/-- `list_take`: the heap and the block, or 0. -/
def listTake (fuel : Nat) (h : Heap) (fl0 sl0 total : Nat) : Option (Heap × Nat) := do
  let b ← takeLoop fuel h fl0 sl0 total (heapFlCount - fl0)
  if b = 0 then return (h, 0) else return (freelistRemove h b, b)

/-! ### Blocks -/

/-- `block_release`, the merge with the block behind. -/
def mergeNext : Heap :=
  let n := blockNext h b
  if isFree h n ∧ blockTotal h n ≠ 0 then
    let h := freelistRemove h n
    let h := h.setSize b ((blockTotal h b + blockTotal h n) ||| heapFree |||
      (h.size b &&& heapPrevFree))
    h.setPrev (blockNext h b) b
  else h

/-- `block_release`, the merge with the block before: the heap and the
merged block. -/
def mergePrev : Heap × Nat :=
  if isPrevFree h b then
    let p := h.prev b
    let h := freelistRemove h p
    let h := h.setSize p ((blockTotal h p + blockTotal h b) ||| heapFree |||
      (h.size p &&& heapPrevFree))
    (h.setPrev (blockNext h p) p, p)
  else (h, b)

def blockRelease : Heap :=
  let h := h.setSize b (h.size b ||| heapFree)
  let n := blockNext h b
  let h := h.setSize n (h.size n ||| heapPrevFree)
  let h := mergeNext h b
  let (h, b) := mergePrev h b
  freelistPush h b

def blockTrimUsed (need : Nat) : Heap :=
  if blockTotal h b < heapHdr + need + heapMinBlock then h
  else
    let t := b + heapHdr + need
    let h := h.setSize t (blockTotal h b - heapHdr - need)
    let h := h.setPrev t b
    let h := h.setSize b ((heapHdr + need) ||| (h.size b &&& heapPrevFree))
    let h := h.setPrev (blockNext h t) t
    blockRelease h t

/-- `block_acquire`: the heap and the payload, or 0. -/
def blockAcquire (fuel : Nat) (h : Heap) (payload : Nat) : Option (Heap × Nat) :=
  let total := payload + heapHdr
  match mapRequest total with
  | none => some (h, 0)
  | some (fl, sl) => do
      let (h, b) ← listTake fuel h fl sl total
      if b = 0 then return (h, 0)
      else
        let h := clearFlag h b heapFree
        let h := clearFlag h (blockNext h b) heapPrevFree
        return (blockTrimUsed h b payload, blockUser b)

/-! ### Areas -/

def kheapAreaAdd (mem bytes : Nat) : Heap :=
  let bytes := alignDown bytes heapAlign
  let h := h.setSize mem (bytes - heapHdr)
  let h := h.setPrev mem 0
  let s := blockNext h mem
  let h := h.setSize s 0
  let h := h.setPrev s mem
  let h := { h with areas := h.areas ++ [(mem, bytes)] }
  blockRelease h mem

/-- The pages at `a` are below `2 ^ 64` and outside every area. -/
def GrantOk (pages a : Nat) : Prop :=
  a % pageSize = 0 ∧ 0 < a ∧ a + pages * pageSize ≤ 0x10000000000000000 ∧
    ∀ m ∈ h.areas, a + pages * pageSize ≤ m.1 ∨ m.1 + m.2 ≤ a
  deriving Decidable

/-- `get_kernel_pages` with the answer `grant` of the pool. -/
def getKernelPages (pages : Nat) (grant : Option Nat) : Nat :=
  match grant with
  | none => 0
  | some a => if GrantOk h pages a then a else 0

/-- `kheap_grow`: the heap, and whether it has grown. -/
def kheapGrow (need : Nat) (grant : Option Nat) : Heap × Bool :=
  if h.areas.length ≥ kheapMaxAreas then (h, false)
  else
    let pages := (need + 3 * heapHdr + pageSize - 1) / pageSize % 0x100000000
    let pages := if pages < kheapAreaMinPages then kheapAreaMinPages else pages
    if pages > kheapAreaMaxPages then (h, false)
    else
      let mem := getKernelPages h pages grant
      if mem = 0 then (h, false)
      else (kheapAreaAdd h mem (pages * pageSize), true)

def kheapInit (mem : Mem) (grant : Option Nat) : Heap :=
  let h : Heap :=
    { mem, flBitmap := 0, slBitmap := fun _ => 0, blocks := fun _ _ => 0, areas := [],
      usedBytes := 0, peakBytes := 0, allocCount := 0 }
  (kheapGrow h 0 grant).1

def blockOwn (ptr b : Nat) : Bool :=
  if ptr &&& (heapAlign - 1) ≠ 0 then false
  else
    match h.areas.find? fun m => decide (m.1 ≤ b ∧ b < m.1 + m.2) with
    | none => false
    | some m =>
      decide (blockTotal h b ≥ heapMinBlock ∧ blockTotal h b &&& (heapAlign - 1) = 0 ∧
        blockNext h b ≤ m.1 + m.2)

/-! ### The interface -/

/-- The answers of the pool to the calls of one operation. -/
structure Grants where
  first : Option Nat
  second : Option Nat

/-- `heap_alloc`: the heap and the payload, or 0. -/
def heapAlloc (fuel : Nat) (h : Heap) (size : Nat) (g : Grants) : Option (Heap × Nat) :=
  let payload := alignUp size heapAlign
  if size = 0 ∨ payload ≥ heapMaxBytes then some (h, 0)
  else do
    let (h, p) ← blockAcquire fuel h payload
    if p ≠ 0 then return (h, p)
    else
      let (h, grown) := kheapGrow h payload g.first
      if ¬ grown then return (h, 0)
      else
        let (h, p) ← blockAcquire fuel h payload
        if p ≠ 0 then return (h, p)
        else
          let (h, grown) := kheapGrow h payload g.second
          if ¬ grown then return (h, 0)
          else blockAcquire fuel h payload

def statsPeak : Heap :=
  if h.usedBytes > h.peakBytes then { h with peakBytes := h.usedBytes } else h

def statsGain : Heap :=
  let h := { h with usedBytes := (h.usedBytes + blockTotal h b) % 0x100000000 }
  let h := statsPeak h
  { h with allocCount := (h.allocCount + 1) % 0x100000000 }

def kmalloc (fuel : Nat) (h : Heap) (size : Nat) (g : Grants) : Option (Heap × Nat) := do
  let (h, p) ← heapAlloc fuel h size g
  if p ≠ 0 then return (statsGain h (blockFrom p), p) else return (h, p)

def kzalloc (fuel : Nat) (h : Heap) (size : Nat) (g : Grants) : Option (Heap × Nat) := do
  let (h, p) ← kmalloc fuel h size g
  if p ≠ 0 then return (memset h p 0 size, p) else return (h, p)

def kcalloc (fuel : Nat) (h : Heap) (nmemb size : Nat) (g : Grants) : Option (Heap × Nat) :=
  if nmemb ≠ 0 ∧ size > heapMaxBytes / nmemb then some (h, 0)
  else kzalloc fuel h (nmemb * size % 0x10000000000000000) g

/-- `kmalloc_aligned` from the allocated payload on: the heap and the
aligned payload. -/
def alignBlock (p size align : Nat) : Heap × Nat :=
  let b := blockFrom p
  let a := alignUp p align
  let gap := sub64 a p
  let (a, gap) :=
    if gap ≠ 0 ∧ gap < heapMinBlock then
      ((a + align) % 0x10000000000000000, (gap + align) % 0x10000000000000000)
    else (a, gap)
  let (h, b) :=
    if gap ≠ 0 then
      let c := sub64 a heapHdr
      let h := h.setSize c (sub64 (blockTotal h b) gap)
      let h := h.setPrev c b
      let h := h.setPrev (blockNext h c) c
      let h := h.setSize b (gap ||| (h.size b &&& heapPrevFree))
      (blockRelease h b, c)
    else (h, b)
  (blockTrimUsed h b (alignUp size heapAlign), a)

def kmallocAligned (fuel : Nat) (h : Heap) (size align : Nat) (g : Grants) :
    Option (Heap × Nat) :=
  if size = 0 then some (h, 0)
  else
    let align := if align < heapAlign then heapAlign else align
    if align &&& (align - 1) ≠ 0 then some (h, 0)
    else do
      let (h, p) ←
        if align = heapAlign then heapAlloc fuel h size g
        else do
          let (h, p) ← heapAlloc fuel h ((size + align + 2 * heapHdr) % 0x10000000000000000) g
          if p ≠ 0 then pure (alignBlock h p size align) else pure (h, p)
      if p ≠ 0 then return (statsGain h (blockFrom p), p) else return (h, p)

def kfree (ptr : Nat) : Option Heap :=
  if ptr = 0 then some h
  else
    let b := blockFrom ptr
    if ¬ blockOwn h ptr b then none
    else if isFree h b then none
    else
      let h := { h with
        usedBytes := (h.usedBytes + 0x100000000 - blockTotal h b % 0x100000000) % 0x100000000
        allocCount := (h.allocCount + 0xffffffff) % 0x100000000 }
      some (blockRelease h b)

/-- `krealloc` of an owned block to `size` bytes: the heap and the
payload, or 0. -/
def reallocBlock (fuel : Nat) (h : Heap) (ptr size : Nat) (g : Grants) : Option (Heap × Nat) :=
  let b := blockFrom ptr
  let need := alignUp size heapAlign
  let oldTotal := blockTotal h b
  if need ≤ oldTotal - heapHdr then some (blockTrimUsed h b need, ptr)
  else
    let n := blockNext h b
    let grown := oldTotal + blockTotal h n
    if isFree h n ∧ grown - heapHdr ≥ need then
      let h := freelistRemove h n
      let h := h.setSize b (grown ||| (h.size b &&& heapPrevFree))
      let m := blockNext h b
      let h := h.setPrev m b
      let h := clearFlag h m heapPrevFree
      some (blockTrimUsed h b need, ptr)
    else do
      let (h, np) ← heapAlloc fuel h size g
      if np ≠ 0 then
        let len := if oldTotal - heapHdr < size then oldTotal - heapHdr else size
        return (blockRelease (memcpy h np ptr len) b, np)
      else return (h, np)

def krealloc (fuel : Nat) (h : Heap) (ptr size : Nat) (g : Grants) : Option (Heap × Nat) :=
  if ptr = 0 then kmalloc fuel h size g
  else if size = 0 then do return (← kfree h ptr, 0)
  else
    let b := blockFrom ptr
    if ¬ blockOwn h ptr b ∨ isFree h b then none
    else do
      let oldTotal := blockTotal h b
      let (h, np) ← reallocBlock fuel h ptr size g
      if np ≠ 0 then
        let now := blockTotal h (blockFrom np) % 0x100000000
        let used := (h.usedBytes + now + 0x100000000 - oldTotal % 0x100000000) % 0x100000000
        return (statsPeak { h with usedBytes := used }, np)
      else return (h, np)

end CoreZ.Mm.Kheap
