import Mathlib.Logic.Function.Basic

/-!
# `CoreZ.Mm.Cow`: user pages, their frames and copy-on-write

The page tables of user space, `frame_owner` and the frame pool, with the
functions of `pool.c`, `fork.c`, `mmap.c`, `access.c`, `interrupt.c` and
`process.c` that change them.

An address space is a number (its PML4), a page is a virtual address
shifted right by 12, and `pte a v` is the entry of page `v` in space `a`:
the upper levels of the tables are left out, and an entry whose table does
not exist is 0, which is what `pte_ptr` makes of it. The pages of the
second gigabyte are an exception: `create_page_dir` puts the kernel's page
directory there into every space, so they have one entry for all spaces
(`common`), and what one process maps there all of them have. A frame is bits 12 to
31 of a physical address: the code keeps physical addresses in
`uint32_t`. `frame_owner` is indexed by frames here, and so is the pool:
`pool f` says how many times the frame `f` is in it, since the caches of
the CPUs would hold a frame that is returned twice twice.

What the environment decides is a parameter: the frame that the pool
answers with (`grant`), and whether page tables can be had (`tables`).
A page table entry that a function is handed by its caller is a
parameter too, since the table may have changed in between.

The functions hold `map_lock` or run with preemption off while they
change an entry, so each is one step.
-/

set_option autoImplicit false

namespace CoreZ.Mm.Cow

abbrev Pte := BitVec 64

abbrev Frame := BitVec 20

def pteP : Pte := 0x1

def pteW : Pte := 0x2

def pteU : Pte := 0x4

def pteNx : Pte := 0x8000000000000000

def cowFlag : Pte := 0x200

/-- `PTE_P | PTE_U | PTE_NX | 0x0f0`. -/
def cowKeep : Pte := 0x80000000000000f5

/-- `OFF_MASK`, and the mask of `PTE_PHYS`. -/
def offMask : Pte := 0x000ffffffffff000

/-- `USER_VADDR_START` as a page. -/
def userStart : Nat := 0x8048

/-- `USER_SPACE_END` as a page. -/
def userEnd : Nat := 0xc0000

/-- `KERNEL_VADDR_START` and `KERNEL_VADDR_SIZE` as pages. -/
def kernelStart : Nat := 0x40400

def kernelSize : Nat := 0x1000

/-- The page is in the gigabyte behind `pdp[1]`, whose page directory is the
kernel's in every space. -/
def sharedPage (v : Nat) : Bool := decide (0x40000 ≤ v ∧ v < 0x80000)

/-- The bits of the bitmap that `create_user_vaddr_bitmap` makes. -/
def bitmapBits : Nat := (userEnd - userStart) / 8 * 8

def protWrite : Nat := 2

def protExec : Nat := 4

/-! ### Entries -/

/-- `*pte & PTE_P`. -/
def present (e : Pte) : Bool := e.getLsbD 0

/-- `*pte & PTE_W`. -/
def writable (e : Pte) : Bool := e.getLsbD 1

/-- `*pte & PTE_U`. -/
def isUser (e : Pte) : Bool := e.getLsbD 2

/-- `*pte & COW_FLAG`. -/
def isCow (e : Pte) : Bool := e.getLsbD 9

/-- `*pte & PTE_NX`. -/
def noExec (e : Pte) : Bool := e.getLsbD 63

/-- `(uint32_t)PTE_PHYS(e)`, as a frame. -/
def frameOf (e : Pte) : Frame := e.extractLsb' 12 20

/-- The physical address of a frame, as `uint64_t`. -/
def physOf (f : Frame) : Pte := f.setWidth 64 <<< 12

/-- The frame lies between `MEMORY_BASE` and `MAX_PHYS_MEM`. -/
def inMemory (f : Frame) : Bool := decide (0x100 ≤ f.toNat ∧ f.toNat < 0x20000)

def pteWx (nxUsable : Bool) (base : Pte) (isWritable executable : Bool) : Pte :=
  let nx := if !(executable && !isWritable) && nxUsable then pteNx else 0
  (base &&& ~~~(pteW ||| pteNx)) ||| (if isWritable then pteW else 0) ||| nx

/-! ### The state -/

structure Vm where
  nxUsable : Bool
  live : Nat → Bool
  /-- The entries in the page directories of a space. -/
  own : Nat → Nat → Pte
  /-- The entries in the page directory that the spaces share. -/
  common : Nat → Pte
  /-- `btmp_bytes_len * 8` of the bitmap of a space. -/
  bits : Nat → Nat
  /-- The bitmap, by pages. -/
  used : Nat → Nat → Bool
  owner : Frame → Nat
  pool : Frame → Nat
  mem : Frame → Nat → Nat

variable (s : Vm) (a v : Nat)

namespace Vm

/-- The entry that space `a` finds for page `v`. -/
def pte : Pte := if sharedPage v then s.common v else s.own a v

def setPte (e : Pte) : Vm :=
  { s with
    own := fun b w => if sharedPage v = false ∧ b = a ∧ w = v then e else s.own b w
    common := fun w => if sharedPage v = true ∧ w = v then e else s.common w }

def setUsed (u : Bool) : Vm :=
  { s with used := fun b w => if b = a ∧ w = v then u else s.used b w }

def setOwner (f : Frame) (n : Nat) : Vm := { s with owner := Function.update s.owner f n }

def setMem (f : Frame) (bytes : Nat → Nat) : Vm :=
  { s with mem := Function.update s.mem f bytes }

end Vm

/-- `(vaddr - vaddr_start) / PAGE_SIZE < btmp_bytes_len * 8`. Below the
start the difference wraps, and is larger than any bitmap. -/
def inBitmap : Bool := decide (userStart ≤ v ∧ v - userStart < s.bits a)

/-! ### The pool -/

/-- `pool_alloc_page`: the pool answers with a frame it holds, or has
none. -/
def poolAllocPage (grant : Option Frame) : Option (Vm × Frame) :=
  match grant with
  | none => none
  | some f =>
    if 0 < s.pool f then some ({ s with pool := Function.update s.pool f (s.pool f - 1) }, f)
    else none

def poolFreePage (f : Frame) : Vm :=
  { s with pool := Function.update s.pool f (s.pool f + 1) }

/-! ### Reference counts -/

def pageCowShare (f : Frame) : Vm :=
  if inMemory f then
    s.setOwner f (if s.owner f = 0 then 2 else (s.owner f + 1) % 256)
  else s

def pageFreeOrDecref (f : Frame) : Vm :=
  if inMemory f then
    if s.owner f > 1 then s.setOwner f (s.owner f - 1)
    else poolFreePage (s.setOwner f 0) f
  else s

/-- `page_cow_resolve`: the state, and whether the page is writable now.
`val` is the entry that the caller has read. -/
def pageCowResolve (val : Pte) (grant : Option Frame) : Vm × Bool :=
  let f := frameOf val
  if ¬ inMemory f then (s, false)
  else
    let e := s.pte a v
    if ¬ present e then (s, false)
    else if ¬ isCow e then (s, writable e)
    else if s.owner f > 1 then
      match poolAllocPage s grant with
      | none => (s, false)
      | some (s, g) =>
        -- the copy is made from the frame that the caller has seen
        let s := s.setMem g (s.mem f)
        let s := s.setOwner f (s.owner f - 1)
        (s.setPte a v (physOf g ||| (val &&& cowKeep) ||| pteW), true)
    else (s.setPte a v ((e &&& ~~~cowFlag) ||| pteW), true)

/-! ### Single pages -/

/-- `page_table_add_raw` of a fresh frame, and the `memset` behind it. -/
def addPage (f : Frame) : Vm :=
  (s.setPte a v (physOf f ||| pteWx s.nxUsable (pteP ||| pteU) true false)).setMem f fun _ => 0

def getAPage (grant : Option Frame) (tables : Bool) : Vm :=
  if ¬ inBitmap s a v then s
  else if s.used a v then s
  else
    let s := s.setUsed a v true
    match poolAllocPage s grant with
    | none => s.setUsed a v false
    | some (s, f) =>
      if tables then addPage s a v f
      else poolFreePage (s.setUsed a v false) f

/-- `map_reserved_page`: unlike `get_a_page` it does not look at the
bitmap. -/
def mapReservedPage (grant : Option Frame) (tables : Bool) : Vm :=
  if ¬ inBitmap s a v then s
  else
    match poolAllocPage s grant with
    | none => s
    | some (s, f) => if tables then addPage s a v f else poolFreePage s f

def freeUserPage : Vm :=
  let e := s.pte a v
  if present e then
    let s := s.setPte a v 0
    let s := if inBitmap s a v then s.setUsed a v false else s
    pageFreeOrDecref s (frameOf e)
  else s

def userRemapPage (grant : Option Frame) : Vm :=
  let e := s.pte a v
  if ¬ present e then s
  else
    match poolAllocPage s grant with
    | none => s
    | some (s, g) =>
      let s := s.setMem g (s.mem (frameOf e))
      let s := s.setPte a v (physOf g ||| (e &&& 0xfff))
      if inBitmap s a v then s.setUsed a v true else s

/-- `apply_prot`. The entry keeps its address and nothing else. -/
def applyProt (prot : Nat) : Vm :=
  let e := s.pte a v
  if present e then
    s.setPte a v ((e &&& offMask) ||| pteWx s.nxUsable (pteP ||| pteU)
      (decide (prot &&& protWrite ≠ 0)) (decide (prot &&& protExec ≠ 0)))
  else s

/-- `apply_rx` and `pe_apply_rx` at one page. -/
def applyRx : Vm :=
  let e := s.pte a v
  if present e then
    s.setPte a v ((e &&& offMask) ||| pteWx s.nxUsable (pteP ||| pteU) false true)
  else s

/-- `-LINUX_EINVAL`. -/
def einval : Int := -22

/-- `sys_mprotect`: the pages that `apply_prot` is called for. -/
def sysMprotect (addr len prot : Nat) : Except Int (List Nat) :=
  if addr % 0x1000 ≠ 0 ∨ 8 ≤ prot then .error einval
  else if len = 0 then .ok []
  else if addr < 0x8048000 ∨ 0xc0000000 ≤ addr ∨ 0xc0000000 - addr < len then .error einval
  else
    let pages := (len + 0xfff) / 0x1000
    -- the range must not reach into the kernel's part between the two user parts
    if addr < 0x80200000 ∧ 0x40000000 < addr + pages * 0x1000 then .error einval
    else .ok ((List.range pages).map fun i => addr / 0x1000 + i)

/-- `handle_cow_fault` for a write; `val` is the entry it reads. -/
def handleCowFault (val : Pte) (grant : Option Frame) : Vm :=
  if userStart ≤ v ∧ v < userEnd ∧ present val ∧ isCow val then (pageCowResolve s a v val grant).1
  else s

/-- `user_range_walk` for a write, at one page; `val` is the entry it
reads. -/
def userRangeWalk (val : Pte) (grant : Option Frame) : Vm :=
  if present val ∧ isUser val ∧ ¬ writable val ∧ isCow val then (pageCowResolve s a v val grant).1
  else s

/-! ### Address spaces -/

/-- `create_page_dir` and `create_user_vaddr_bitmap`. -/
def createSpace : Vm :=
  { s with
    live := fun b => if b = a then true else s.live b
    own := fun b w => if b = a then 0 else s.own b w
    bits := fun b => if b = a then bitmapBits else s.bits b
    used := fun b w => if b = a then false else s.used b w }

def cowVaddrOk : Bool :=
  decide (userStart ≤ v ∧ ¬ (kernelStart ≤ v ∧ v < kernelStart + kernelSize) ∧ v < userEnd)

def markChildBitmap (b v : Nat) : Vm := if inBitmap s b v then s.setUsed b v true else s

/-- The pages that `share_user_space_cow` shares. It passes over a page
directory that parent and child have in common. -/
def forkPage : Bool := cowVaddrOk v && !sharedPage v

/-- The body of the loops of `share_user_space_cow`. -/
def sharePage (b : Nat) (s : Vm) (v : Nat) : Vm :=
  let e := s.pte a v
  if present e ∧ forkPage v then
    let s := pageCowShare s (frameOf e)
    let s := s.setPte a v ((e &&& ~~~pteW) ||| cowFlag)
    let s := markChildBitmap s b v
    s.setPte b v (physOf (frameOf e) ||| (e &&& cowKeep) ||| cowFlag)
  else s

def shareUserSpaceCow (b : Nat) : Vm := (List.range userEnd).foldl (sharePage a b) s

/-- `sys_fork` of space `a` into the new space `b`. Without page tables
nothing has been shared when the child is given up. -/
def sysFork (b : Nat) (tables : Bool) : Vm :=
  if tables then shareUserSpaceCow (createSpace s b) a b else s

/-- The body of the loops of `space_release_ex`. -/
def releasePage (s : Vm) (v : Nat) : Vm :=
  let e := s.pte a v
  if present e ∧ userStart ≤ v ∧ inBitmap s a v ∧ s.used a v then
    (pageFreeOrDecref s (frameOf e)).setPte a v 0
  else s

/-- The PML4 is returned: every entry that is left in its own page
directories goes with it. -/
def freePml4 : Vm :=
  { s with
    live := fun b => if b = a then false else s.live b
    own := fun b w => if b = a then 0 else s.own b w
    bits := fun b => if b = a then 0 else s.bits b }

def spaceReleaseEx : Vm :=
  freePml4 ((List.range userEnd).foldl (releasePage a) s) a

/-- `task_release_space` of the last task of a space. The bitmap is
detached before the space is released. -/
def taskReleaseSpace : Vm :=
  spaceReleaseEx { s with bits := fun b => if b = a then 0 else s.bits b } a

/-- `free_user_space` of a space that the task is bound to. -/
def freeUserSpace : Vm := spaceReleaseEx s a

/-! ### Loads and stores -/

/-- A store through the page tables. Without `PTE_W` it faults, in the
kernel too: `CR0.WP` is set. -/
def store (off x : Nat) : Vm :=
  let e := s.pte a v
  if present e ∧ writable e then s.setMem (frameOf e) (Function.update (s.mem (frameOf e)) off x)
  else s

/-- What a load reads. -/
def load (off : Nat) : Option Nat :=
  let e := s.pte a v
  if present e then some (s.mem (frameOf e) off) else none

end CoreZ.Mm.Cow
