import CoreZ.Lib.Bytes
import CoreZ.Lib.Prog

/-!
# `CoreZ.Userprog.Exec`: loading a program

`sys_execve` of `exec.c` with the ELF loaders behind it, as programs over
the state of the calling task (`Caller`): its user pages and their bytes, the
bitmap, its credentials, the other tasks of its address space.

A program ends with a value or stops. `failed` is `return -1` in the
loaders, `fault` is an access to a page that cannot be accessed, which
kills the task (or halts the kernel), and `running` says that a loop of the
source has not ended after `Env.rounds` rounds.

What the environment decides is in `Env`: whether the `n`-th allocation of
a page succeeds, how many bytes the `n`-th read of a file delivers at most
(`ext4_read_from_inode` returns early when it gets no buffer), the random
numbers, which pages are copy-on-write and can be copied, the file behind a
path that `open_image` opens, and the PE loader.

What the loader does to the caller is recorded: a page that `get_a_page`
maps (it is filled with zeroes then), one that `free_user_page` unmaps, a run
of bytes that is stored, a page whose entry `apply_rx` rewrites, the ids of a
set-user-id file that are taken. The newest comes first.

Unsigned integers are numbers below the power of two of their width; `u32`
and `u64` reduce. Pages are addresses shifted right by 12. Left out: the
texts that are printed, `errno`, open files and their references (the two
images are at the positions `pos`), and the fields of the task that are set
after the image has been loaded and that nothing here reads (`name`,
`exe_path`, `brk_base`, TLS, signal actions, `compat`).
-/

set_option autoImplicit false

namespace CoreZ.Userprog.Exec

open CoreZ.Lib (Buf blit leNat leBytes)

/-! ### Constants and arithmetic -/

def userVaddrStart : Nat := 0x8048000

def userStack3Vaddr : Nat := 0xbffff000

def userLowCeiling : Nat := 0x40000000

def userStackTop : Nat := 0xc0000000

def userStackBottom : Nat := 0xbfff0000

def userStackPages : Nat := 16

def pageSize : Nat := 0x1000

/-- The bits of the bitmap of `create_user_vaddr_bitmap`: whole bytes, one
bit for each page up to `0xc0000000`. -/
def bitmapBits : Nat := (0xc0000000 - userVaddrStart) / pageSize / 8 * 8

def maxArgNr : Nat := 16

def maxArgStrLen : Nat := 256

def execStrbufHalf : Nat := maxArgNr * maxArgStrLen

def execWxMax : Nat := 32

def heapAslrPages : Nat := 2048

def maxInterpPath : Nat := 128

def u32 (n : Nat) : Nat := n % 0x100000000

def u64 (n : Nat) : Nat := n % 0x10000000000000000

/-- `a - b` of two `uint32_t`. -/
def sub32 (a b : Nat) : Nat := u32 (a + 0x100000000 - b)

/-- `DIV_ROUND_UP(x, PAGE_SIZE)` of a `uint32_t`. -/
def pagesUp (x : Nat) : Nat := u32 (x + 0xfff) / pageSize

/-- `x & ~0xfff`. -/
def pageBase (x : Nat) : Nat := x / pageSize * pageSize

/-! ### The state -/

/-- A file that has been opened: its bytes, `i_size`, `i_mode` and its
owner. -/
structure File where
  content : Buf
  size : Nat
  mode : Nat
  uid : Nat
  gid : Nat

/-- The descriptors of the loader. -/
inductive Fd where
  | image
  | interp
  deriving DecidableEq

inductive Touch where
  | map (page : Nat)
  | free (page : Nat)
  | store (addr len : Nat)
  | protect (page : Nat)
  | ids
  deriving DecidableEq

/-- The pages of an address space, by page, and the bytes at its
addresses. -/
structure Space where
  present : Nat → Bool
  user : Nat → Bool
  writable : Nat → Bool
  mem : Buf

/-- `userprog_v_addr.vaddr_bitmap`, with its bits by page; `allocated` says
that `bits` is not NULL. -/
structure Bitmap where
  allocated : Bool
  bits : Nat
  used : Nat → Bool

structure Caller where
  /-- `pml4_phys != 0`. -/
  hasSpace : Bool
  space : Space
  bitmap : Bitmap
  uid : Nat
  gid : Nat
  euid : Nat
  suid : Nat
  egid : Nat
  sgid : Nat
  /-- The other live tasks with the same `pml4_phys`. -/
  others : List Nat
  pos : Fd → Nat
  allocs : Nat
  reads : Nat
  draws : Nat
  trace : List Touch

inductive Stop where
  | failed
  | fault
  | running
  deriving DecidableEq

abbrev LoadM := EStateM Stop Caller

structure Image where
  entry : Nat
  appEntry : Nat
  is64 : Bool
  isLinux : Bool
  isPe : Bool
  hasInterp : Bool
  phdrVaddr : Nat
  phentsize : Nat
  phnum : Nat
  bias : Nat
  base : Nat
  brkBase : Nat
  peRt : Nat

structure Env where
  grant : Nat → Bool
  limit : Nat → Nat
  /-- `rand_u64`. -/
  rand : Nat → Nat
  cowOk : Nat → Bool
  openImage : List UInt8 → Option File
  peLoad : LoadM Image
  rounds : Nat
  /-- `create_page_dir`: the new space, if there is memory for its tables. -/
  pageDir : Option Space
  /-- `get_kernel_pages` for the bitmap. -/
  bitmapPages : Bool

/-! ### Steps of the state -/

/-- `if (!c) return -1;` -/
def require (c : Bool) : LoadM Unit := if c then pure () else throw .failed

def setBit (p : Nat → Bool) (v : Nat) (b : Bool) : Nat → Bool := fun w => if w = v then b else p w

variable (env : Env)

/-- Whether the next allocation succeeds. -/
def nextGrant : LoadM Bool := do
  let s ← get
  set { s with allocs := s.allocs + 1 }
  return env.grant s.allocs

/-- `rand_u64`. -/
def rand64 : LoadM Nat := do
  let s ← get
  set { s with draws := s.draws + 1 }
  return u64 (env.rand s.draws)

/-- `rand_u32`. -/
def rand32 : LoadM Nat := do
  let r ← rand64 env
  return r / 0x100000000

/-- The page is in the bitmap. Below `USER_VADDR_START` the difference
wraps, and is larger than any bitmap. -/
def inBitmap (b : Bitmap) (v : Nat) : Bool :=
  decide (userVaddrStart / pageSize ≤ v ∧ v - userVaddrStart / pageSize < b.bits)

/-- A page with zeroes, for user code and writable. -/
def mapPage (v : Nat) (s : Caller) : Caller :=
  { s with
    bitmap := { s.bitmap with used := setBit s.bitmap.used v true }
    space :=
      { present := setBit s.space.present v true
        user := setBit s.space.user v true
        writable := setBit s.space.writable v true
        mem := blit s.space.mem (v * pageSize) pageSize fun _ => 0 }
    trace := .map v :: s.trace }

/-- `get_a_page`, and whether it gives the page. -/
def getAPage (v : Nat) : LoadM Bool := do
  let s ← get
  if ¬ inBitmap s.bitmap v then pure false
  else if s.bitmap.used v then pure false
  else do
    let ok ← nextGrant env
    if ok then do
      modify (mapPage v)
      pure true
    else pure false

/-- The page is gone, and its bit is clear. -/
def unmapPage (v : Nat) (s : Caller) : Caller :=
  { s with
    bitmap :=
      { s.bitmap with
        used := if inBitmap s.bitmap v then setBit s.bitmap.used v false else s.bitmap.used }
    space := { s.space with present := setBit s.space.present v false }
    trace := .free v :: s.trace }

/-- `free_user_page`. -/
def freeUserPage (v : Nat) : LoadM Unit := do
  let s ← get
  if s.space.present v then set (unmapPage v s) else pure ()

/-- A store to the page goes through: it is writable, or a copy is made. -/
def storable (s : Caller) (v : Nat) : Bool :=
  s.space.present v && (s.space.writable v || env.cowOk v)

/-- How many of the `n` bytes at `a` can be stored to, from the first on. -/
def storableBytes (s : Caller) (a n : Nat) : Nat :=
  ((List.range n).takeWhile fun i => storable env s ((a + i) / pageSize)).length

/-- The first `k` bytes of `b` are at `a`. -/
def putBytes (a k : Nat) (b : Buf) (s : Caller) : Caller :=
  { s with
    space := { s.space with mem := blit s.space.mem a k b }
    trace := .store a k :: s.trace }

/-- Store the first `n` bytes of `b` at `a`, upwards, until a page stops
it. -/
def storeBytes (a n : Nat) (b : Buf) : LoadM Unit := do
  let s ← get
  let k := storableBytes env s a n
  set (putBytes a k b s)
  if k < n then throw .fault else pure ()

/-- Load the 8 bytes at `a`. -/
def loadWord (a : Nat) : LoadM Nat := do
  let s ← get
  if s.space.present (a / pageSize) && s.space.present ((a + 7) / pageSize) then
    pure (leNat s.space.mem 8 a)
  else throw .fault

/-! ### Files -/

/-- `sys_lseek(fd, off, SEEK_SET)`. The offset is an `int32_t`, and a
negative one leaves the position. -/
def lseek (fd : Fd) (off : Nat) : LoadM Unit :=
  modify fun s =>
    { s with pos := fun d => if d = fd ∧ u32 off < 0x80000000 then u32 off else s.pos d }

variable (f : File) (fd : Fd)

/-- `ext4_read_from_inode`: how many bytes are read. The comparison with
the size is made with 32 bits. -/
def readLength (pos count limit : Nat) : Nat :=
  if f.size ≤ pos then 0
  else min (if f.size < u32 (pos + count) then f.size - pos else count) limit

/-- `read_file`: how many bytes were read, and the bytes. -/
def readFile (count : Nat) : LoadM (Nat × Buf) := do
  let s ← get
  let k := readLength f (s.pos fd) count (env.limit s.reads)
  set
    { s with
      pos := fun d => if d = fd then u32 (s.pos fd + k) else s.pos d
      reads := s.reads + 1 }
  return (k, fun i => f.content (s.pos fd + i))

/-- Read a structure of `size` bytes, or fail. -/
def readStruct (size : Nat) : LoadM Buf := do
  let r ← readFile env f fd size
  require (r.1 == size)
  return r.2

/-! ### Headers -/

def ptLoad : Nat := 1

def ptDynamic : Nat := 2

def ptInterp : Nat := 3

def ptNote : Nat := 4

def etExec : Nat := 2

def etDyn : Nat := 3

/-- The header checks make `e_phentsize` the size of a program header, so
the loops below go on by that size. -/
def phdr64Size : Nat := 56

def phdr32Size : Nat := 32

def ehdr64Size : Nat := 64

def ehdr32Size : Nat := 52

/-- The fields of `struct LINUX_ELF64_EHDR` and `LINUX_ELF32_EHDR` that the
loader reads. -/
structure Ehdr where
  eType : Nat
  eMachine : Nat
  eVersion : Nat
  eEntry : Nat
  ePhoff : Nat
  ePhentsize : Nat
  ePhnum : Nat

/-- The fields of `struct LINUX_ELF64_PHDR` and `LINUX_ELF32_PHDR` that the
loader reads. -/
structure Phdr where
  pType : Nat
  pFlags : Nat
  pOffset : Nat
  pVaddr : Nat
  pFilesz : Nat
  pMemsz : Nat

def parseEhdr64 (b : Buf) : Ehdr where
  eType := leNat b 2 16
  eMachine := leNat b 2 18
  eVersion := leNat b 4 20
  eEntry := leNat b 8 24
  ePhoff := leNat b 8 32
  ePhentsize := leNat b 2 54
  ePhnum := leNat b 2 56

def parsePhdr64 (b : Buf) : Phdr where
  pType := leNat b 4 0
  pFlags := leNat b 4 4
  pOffset := leNat b 8 8
  pVaddr := leNat b 8 16
  pFilesz := leNat b 8 32
  pMemsz := leNat b 8 40

def parseEhdr32 (b : Buf) : Ehdr where
  eType := leNat b 2 16
  eMachine := leNat b 2 18
  eVersion := leNat b 4 20
  eEntry := leNat b 4 24
  ePhoff := leNat b 4 28
  ePhentsize := leNat b 2 42
  ePhnum := leNat b 2 44

def parsePhdr32 (b : Buf) : Phdr where
  pType := leNat b 4 0
  pFlags := leNat b 4 24
  pOffset := leNat b 4 4
  pVaddr := leNat b 4 8
  pFilesz := leNat b 4 16
  pMemsz := leNat b 4 20

/-- `ident[0..3]` is the ELF magic. -/
def isElf (b : Buf) : Bool := b 0 == 0x7f && b 1 == 0x45 && b 2 == 0x4c && b 3 == 0x46

/-- The test of `probe_elf64` on the header. -/
def ehdr64Ok (e : Ehdr) : Bool :=
  (e.eType == etExec || e.eType == etDyn) && e.eMachine == 62 && e.eVersion == 1 &&
    decide (e.ePhnum ≤ 1024) && e.ePhentsize == phdr64Size

def probeElf64 : LoadM Ehdr := do
  lseek fd 0
  let ident ← readStruct env f fd 16
  require (isElf ident && ident 4 == 2)
  lseek fd 0
  let b ← readStruct env f fd ehdr64Size
  require (ehdr64Ok (parseEhdr64 b))
  return parseEhdr64 b

/-- The loop of `probe_image64`. -/
def probeHeaders (env : Env) (f : File) (fd : Fd) : (n pho lo hi : Nat) → LoadM (Nat × Nat)
  | 0, _, lo, hi => pure (lo, hi)
  | n + 1, pho, lo, hi => do
      lseek fd pho
      let b ← readStruct env f fd phdr64Size
      let ph := parsePhdr64 b
      if ph.pType ≠ ptLoad then probeHeaders env f fd n (u64 (pho + phdr64Size)) lo hi
      else
        probeHeaders env f fd n (u64 (pho + phdr64Size)) (min lo (u32 ph.pVaddr))
          (max hi (u32 (ph.pVaddr + ph.pMemsz)))

/-- The header, the lowest address and the span of the `PT_LOAD`s. -/
def probeImage64 : LoadM (Ehdr × Nat × Nat) := do
  let e ← probeElf64 env f fd
  let r ← probeHeaders env f fd e.ePhnum e.ePhoff 0xffffffff 0
  require (decide (r.1 < r.2))
  return (e, r.1, r.2 - r.1)

/-! ### Segments -/

/-- `occupy_pages`. -/
def segmentPages (memsz vaddr : Nat) : Nat :=
  if pageSize - vaddr % pageSize < memsz then
    pagesUp (memsz - (pageSize - vaddr % pageSize)) + 1
  else 1

/-- The body of the loop of `segment_load`: a page that is there and
writable is taken as it is. -/
def mapSegmentPage (v : Nat) : LoadM Unit := do
  let s ← get
  if ¬ s.space.present v then do
    let ok ← getAPage env v
    require ok
  else if ¬ s.space.writable v then do
    freeUserPage v
    let ok ← getAPage env v
    require ok
  else pure ()

def mapSegmentPages (env : Env) : (n v : Nat) → LoadM Unit
  | 0, _ => pure ()
  | n + 1, v => do
      mapSegmentPage env v
      mapSegmentPages env n ((v + 1) % 0x100000)

def segmentLoad (offset filesz memsz vaddr : Nat) : LoadM Unit := do
  mapSegmentPages env (segmentPages memsz vaddr) (vaddr / pageSize)
  lseek fd offset
  let r ← readFile env f fd filesz
  storeBytes env vaddr r.1 r.2
  require (r.1 == filesz)

/-- The page is for user code, and not writable. -/
def sealPage (v : Nat) (s : Caller) : Caller :=
  { s with
    space :=
      { s.space with
        user := setBit s.space.user v true
        writable := setBit s.space.writable v false }
    trace := .protect v :: s.trace }

/-- The body of the loop of `apply_rx`. -/
def protectPage (v : Nat) : LoadM Unit := do
  let s ← get
  if s.space.present v then set (sealPage v s) else pure ()

def applyRx : (pages v : Nat) → LoadM Unit
  | 0, _ => pure ()
  | n + 1, v => do
      protectPage v
      applyRx n ((v + 1) % 0x100000)

/-- `wx[wxn]`, as first page and number of pages. The size is a
`uint64_t`. -/
def wxRange (memsz vaddr : Nat) : Nat × Nat :=
  (vaddr / pageSize,
    u32 (if pageSize - vaddr % pageSize < memsz then
      u64 (memsz - (pageSize - vaddr % pageSize) + 0xfff) / pageSize + 1
    else 1))

def applyRxAll : List (Nat × Nat) → LoadM Unit
  | [] => pure ()
  | w :: ws => do
      applyRx w.2 w.1
      applyRxAll ws

/-- The loop of `map_image64`. -/
def mapHeaders (env : Env) (f : File) (fd : Fd) (bias : Nat) (bounded : Bool) :
    (n pho imageEnd : Nat) → (wx : List (Nat × Nat)) → LoadM (Nat × List (Nat × Nat))
  | 0, _, imageEnd, wx => pure (imageEnd, wx)
  | n + 1, pho, imageEnd, wx => do
      lseek fd pho
      let b ← readStruct env f fd phdr64Size
      let ph := parsePhdr64 b
      let va := u32 ph.pVaddr
      if ph.pType ≠ ptLoad ∨ bounded ∧ (va < userVaddrStart ∨ userStack3Vaddr ≤ va) then
        mapHeaders env f fd bias bounded n (u64 (pho + phdr64Size)) imageEnd wx
      else do
        let mapAt := u32 (va + bias)
        require (decide (mapAt < userStack3Vaddr))
        segmentLoad env f fd (u32 ph.pOffset) (u32 ph.pFilesz) (u32 ph.pMemsz) mapAt
        mapHeaders env f fd bias bounded n (u64 (pho + phdr64Size))
          (max imageEnd (u32 (mapAt + u32 ph.pMemsz)))
          (if ph.pFlags % 2 = 1 ∧ wx.length < execWxMax then wx ++ [wxRange ph.pMemsz mapAt]
          else wx)

/-- The end of the image. -/
def mapImage64 (e : Ehdr) (bias : Nat) (bounded : Bool) : LoadM Nat := do
  let r ← mapHeaders env f fd bias bounded e.ePhnum e.ePhoff 0 []
  applyRxAll r.2
  return r.1

/-! ### Relocations -/

/-- The entries of the dynamic section that `apply_relocs` looks at. -/
structure DynTable where
  rela : Nat
  relasz : Nat
  relaent : Nat
  relr : Nat
  relrsz : Nat

def DynTable.add (t : DynTable) (tag val : Nat) : DynTable :=
  if tag = 7 then { t with rela := val }
  else if tag = 8 then { t with relasz := val }
  else if tag = 9 then { t with relaent := val }
  else if tag = 36 then { t with relr := val }
  else if tag = 35 then { t with relrsz := val }
  else t

/-- The loop over `d[i]`, up to `DT_NULL`. -/
def dynTable : (rounds d : Nat) → DynTable → LoadM DynTable
  | 0, _, _ => throw .running
  | n + 1, d, t => do
      let tag ← loadWord d
      if tag = 0 then pure t
      else do
        let val ← loadWord (d + 8)
        dynTable n (d + 16) (t.add tag val)

/-- The loop over the entries of the RELA table; type 8 is
`R_X86_64_RELATIVE`. -/
def relaLoop (env : Env) (bias : Nat) (t : DynTable) : (rounds off : Nat) → LoadM Unit
  | 0, _ => throw .running
  | n + 1, off =>
    if off < t.relasz then do
      let r := u64 (bias + t.rela + off)
      let info ← loadWord (r + 8)
      if u32 info = 8 then do
        let offset ← loadWord r
        let addend ← loadWord (r + 16)
        storeBytes env (u64 (bias + offset)) 8 (leBytes (u64 (bias + addend)))
        relaLoop env bias t n (u64 (off + t.relaent))
      else relaLoop env bias t n (u64 (off + t.relaent))
    else pure ()

/-- `*(uint64_t *)(bias + a) += bias`. -/
def relocAdd (bias a : Nat) : LoadM Unit := do
  let v ← loadWord (u64 (bias + a))
  storeBytes env (u64 (bias + a)) 8 (leBytes (u64 (v + bias)))

/-- The loop over the 63 bits of a RELR bitmap; `n` bits are left. -/
def relrBits (env : Env) (bias where_ bitmap : Nat) : (n : Nat) → LoadM Unit
  | 0 => pure ()
  | n + 1 =>
    if bitmap.testBit (62 - n) then do
      relocAdd env bias (u64 (where_ + (62 - n) * 8))
      relrBits env bias where_ bitmap n
    else relrBits env bias where_ bitmap n

/-- The loop over the words of the RELR table. -/
def relrLoop (env : Env) (bias : Nat) (t : DynTable) : (rounds off where_ : Nat) → LoadM Unit
  | 0, _, _ => throw .running
  | n + 1, off, where_ =>
    if off < t.relrsz then do
      let w ← loadWord (u64 (bias + t.relr + off))
      if w % 2 = 0 then do
        relocAdd env bias w
        relrLoop env bias t n (u64 (off + 8)) (u64 (w + 8))
      else do
        relrBits env bias where_ (w / 2) 63
        relrLoop env bias t n (u64 (off + 8)) (u64 (where_ + 63 * 8))
    else pure ()

def applyRela (bias : Nat) (t : DynTable) : LoadM Unit :=
  if t.rela ≠ 0 ∧ t.relasz ≠ 0 then relaLoop env bias t env.rounds 0 else pure ()

def applyRelr (bias : Nat) (t : DynTable) : LoadM Unit :=
  if t.relr = 0 ∨ t.relrsz = 0 then pure () else relrLoop env bias t env.rounds 0 0

def applyRelocs (bias dynVaddr : Nat) : LoadM Unit :=
  if bias = 0 ∨ dynVaddr = 0 then pure ()
  else do
    let t ← dynTable env.rounds (u32 (bias + dynVaddr)) ⟨0, 0, 24, 0, 0⟩
    applyRela env bias t
    applyRelr env bias t

/-! ### Notes, paths and the heap -/

/-- `(x + 3) & ~3u`. -/
def align4 (x : Nat) : Nat := u32 (x + 3) / 4 * 4

/-- What the note says, if it is the ABI tag of GNU. -/
def noteAbi (namesz descsz type : Nat) (isLinux : Bool) : LoadM Bool :=
  if type = 1 ∧ 4 ≤ namesz then do
    let name ← readFile env f fd 4
    if name.2 0 = 0x47 ∧ name.2 1 = 0x4e ∧ name.2 2 = 0x55 ∧ name.2 3 = 0 ∧ 8 ≤ descsz then do
      let desc ← readFile env f fd 8
      pure (isLinux || desc.2 0 == 0)
    else pure isLinux
  else pure isLinux

/-- The loop of `scan_note_abi`. -/
def scanNotes (env : Env) (f : File) (fd : Fd) (baseOff filesz : Nat) :
    (rounds remaining : Nat) → (isLinux : Bool) → LoadM Bool
  | 0, _, _ => throw .running
  | n + 1, remaining, isLinux =>
    if remaining < 12 then pure isLinux
    else do
      let r ← readFile env f fd 12
      let namesz := leNat r.2 4 0
      let descsz := leNat r.2 4 4
      let sz := u32 (12 + align4 namesz + align4 descsz)
      if r.1 ≠ 12 ∨ remaining < sz then pure isLinux
      else do
        let isLinux ← noteAbi env f fd namesz descsz (leNat r.2 4 8) isLinux
        lseek fd (baseOff + (filesz - (remaining - sz)))
        scanNotes env f fd baseOff filesz n (remaining - sz) isLinux

def scanNoteAbi (baseOff filesz : Nat) (isLinux : Bool) : LoadM Bool := do
  lseek fd baseOff
  scanNotes env f fd baseOff filesz env.rounds filesz isLinux

/-- The bytes before the first zero. -/
def cstring (b : Buf) (n : Nat) : List UInt8 := ((List.range n).map b).takeWhile (· ≠ 0)

/-- `read_interp_path`. The last byte is overwritten with a zero. -/
def readInterpPath (ph : Phdr) : LoadM (List UInt8) := do
  let sz := u32 ph.pFilesz
  require (decide (2 ≤ sz ∧ sz ≤ maxInterpPath))
  lseek fd (u32 ph.pOffset)
  let b ← readStruct env f fd sz
  require (b 0 == 0x2f)
  return cstring b (sz - 1)

/-- `brk_page_taken` decides how far the loop of `pick_brk_base` goes down;
`n` pages are left above `brk_end`. -/
def lowerBrk (s : Caller) (brkEnd : Nat) : (n : Nat) → Nat
  | 0 => brkEnd
  | n + 1 =>
    if s.space.present (brkEnd / pageSize + (n + 1)) then lowerBrk s brkEnd n
    else brkEnd + (n + 1) * pageSize

def pickBrkBase (imageEnd : Nat) : LoadM Nat := do
  let brkEnd := pageBase (u32 (imageEnd + 0xfff))
  let span := min ((userLowCeiling - brkEnd) / pageSize) heapAslrPages
  if userLowCeiling ≤ brkEnd ∨ span = 0 then pure brkEnd
  else do
    let r ← rand32 env
    let s ← get
    pure (lowerBrk s brkEnd (r % span))

/-! ### Images -/

/-- What the first loop of `load64` collects. -/
structure Scan where
  interp : Option (List UInt8)
  dynVaddr : Nat
  isLinux : Bool
  minV : Nat
  maxE : Nat
  phdrVaddr : Nat
  phentsize : Nat
  phnum : Nat

/-- The `if` chain on the type of a header. -/
def scanHeader (ph : Phdr) (c : Scan) : LoadM Scan :=
  if ph.pType = ptInterp then do
    let path ← readInterpPath env f .image ph
    pure { c with interp := some path }
  else if ph.pType = ptDynamic then pure { c with dynVaddr := u32 ph.pVaddr }
  else if ph.pType = ptNote then do
    let isLinux ← scanNoteAbi env f .image (u32 ph.pOffset) (u32 ph.pFilesz) c.isLinux
    pure { c with isLinux := isLinux }
  else pure c

/-- What a `PT_LOAD` adds: the range of the image, and where the program
headers are. -/
def Scan.load (c : Scan) (e : Ehdr) (ph : Phdr) : Scan :=
  let c := { c with
    minV := min c.minV (u32 ph.pVaddr)
    maxE := max c.maxE (u32 (ph.pVaddr + ph.pMemsz)) }
  if ph.pOffset ≤ e.ePhoff ∧ e.ePhoff < u64 (ph.pOffset + ph.pFilesz) ∧
      ph.pVaddr < userStack3Vaddr ∧ (e.eType = etDyn ∨ userVaddrStart ≤ ph.pVaddr) then
    { c with
      phdrVaddr := u32 (ph.pVaddr + (e.ePhoff - ph.pOffset))
      phentsize := e.ePhentsize
      phnum := e.ePhnum }
  else c

def scanHeaders (env : Env) (f : File) (e : Ehdr) : (n pho : Nat) → Scan → LoadM Scan
  | 0, _, c => pure c
  | n + 1, pho, c => do
      lseek .image pho
      let b ← readStruct env f .image phdr64Size
      let ph := parsePhdr64 b
      let c ← scanHeader env f ph c
      scanHeaders env f e n (u64 (pho + phdr64Size))
        (if ph.pType = ptLoad then c.load e ph else c)

/-- The interpreter, its header, and the lowest address and span of its
segments. -/
structure Interp where
  file : File
  ehdr : Ehdr
  minV : Nat
  span : Nat

def openInterp (path : Option (List UInt8)) : LoadM (Option Interp) :=
  match path with
  | none => pure none
  | some path =>
    match env.openImage path with
    | none => throw .failed
    | some f => do
        modify fun s => { s with pos := fun d => if d = .interp then 0 else s.pos d }
        let r ← probeImage64 env f .interp
        require (r.1.eType == etDyn)
        pure (some ⟨f, r.1, r.2.1, r.2.2⟩)

/-- `reserve` of a position-independent image. -/
def reserveSize (c : Scan) (i : Option Interp) : Nat :=
  match i with
  | none => c.maxE - c.minV
  | some i => u32 (c.maxE - c.minV + (pageSize + u32 (pagesUp i.span * pageSize)))

/-- `bias`: 0 for an image with fixed addresses. -/
def chooseBias (e : Ehdr) (c : Scan) (i : Option Interp) : LoadM Nat :=
  if e.eType = etDyn then do
    require (decide (c.minV ≤ c.maxE))
    require (decide (reserveSize c i < userLowCeiling - userVaddrStart))
    let r ← rand32 env
    pure (userVaddrStart +
      pageBase (r % (userLowCeiling - userVaddrStart - reserveSize c i)))
  else pure 0

/-- `gap`: a random number of pages between the image and the
interpreter. -/
def interpGap (room : Nat) : LoadM Nat :=
  if room = 0 then pure 0
  else do
    let r ← rand32 env
    pure (r % room)

/-- Map the interpreter above the image: its load bias and the end of both. -/
def mapInterp (i : Interp) (imageEnd : Nat) : LoadM (Nat × Nat) := do
  let below := pageBase (u32 (imageEnd + 0xfff))
  require (decide (u32 (below + i.span) ≤ userLowCeiling))
  let gap ← interpGap env (sub32 (sub32 userLowCeiling below) i.span / pageSize)
  let bias := sub32 (u32 (below + gap * pageSize)) i.minV
  let stop ← mapImage64 env i.file .interp i.ehdr bias false
  pure (bias, max imageEnd stop)

/-- The part of `load64` that depends on whether there is an interpreter:
with one, relocations are left to it. The result is the load bias of the
interpreter, if there is one, and the end of the image. -/
def mapRest (i : Option Interp) (bias dynVaddr imageEnd : Nat) : LoadM (Option Nat × Nat) :=
  match i with
  | some i => do
      let r ← mapInterp env i imageEnd
      pure (some r.1, r.2)
  | none => do
      applyRelocs env bias dynVaddr
      pure (none, imageEnd)

/-- `S_ISUID`: the user of the file is taken. -/
def takeUser (s : Caller) : Caller :=
  if f.mode &&& 0x800 ≠ 0 then
    { s with euid := f.uid, suid := f.uid, trace := .ids :: s.trace }
  else s

/-- `S_ISGID`: the group of the file is taken. -/
def takeGroup (s : Caller) : Caller :=
  if f.mode &&& 0x400 ≠ 0 then
    { s with egid := f.gid, sgid := f.gid, trace := .ids :: s.trace }
  else s

/-- The credentials that a set-user-id or set-group-id file gives. -/
def setIds : LoadM Unit :=
  modify fun s => if f.mode &&& 0xf000 = 0x8000 then takeGroup f (takeUser f s) else s

/-- The last test of the loaders, and the start of the heap. -/
def finishImage (imageEnd : Nat) : LoadM Nat := do
  require (decide (userVaddrStart < imageEnd ∧ u32 (imageEnd + pageSize) < userLowCeiling))
  pickBrkBase env imageEnd

/-- What `load64` knows of an image before it maps it. -/
structure Plan where
  ehdr : Ehdr
  scan : Scan
  interp : Option Interp
  bias : Nat

/-- The first part of `load64`: it reads the headers of the image and of its
interpreter. -/
def planImage : LoadM Plan := do
  let e ← probeElf64 env f .image
  let c ← scanHeaders env f e e.ePhnum e.ePhoff ⟨none, 0, false, 0xffffffff, 0, 0, 0, 0⟩
  let i ← openInterp env c.interp
  let bias ← chooseBias env e c i
  pure ⟨e, c, i, bias⟩

/-- `img->entry`: that of the interpreter, if there is one. -/
def entryOf (appEntry : Nat) : Option Interp → Option Nat → Nat
  | some i, some b => u32 (b + u32 i.ehdr.eEntry)
  | _, _ => appEntry

/-- The second part of `load64`: it maps the image. -/
def mapPlanned (p : Plan) : LoadM Image := do
  let imageEnd ← mapImage64 env f .image p.ehdr p.bias (p.ehdr.eType != etDyn)
  let r ← mapRest env p.interp p.bias p.scan.dynVaddr imageEnd
  setIds f
  let brk ← finishImage env r.2
  let appEntry := u32 (p.bias + u32 p.ehdr.eEntry)
  pure
    { entry := entryOf appEntry p.interp r.1
      appEntry := appEntry
      is64 := true
      isLinux := p.scan.isLinux
      isPe := false
      hasInterp := p.interp.isSome
      phdrVaddr := p.scan.phdrVaddr
      phentsize := p.scan.phentsize
      phnum := p.scan.phnum
      bias := p.bias
      base := r.1.getD p.bias
      brkBase := brk
      peRt := 0 }

def load64 : LoadM Image := do
  let p ← planImage env f
  mapPlanned env f p

/-- What the loop of `load32` collects. -/
structure Scan32 where
  isLinux : Bool
  phdrVaddr : Nat
  phentsize : Nat
  phnum : Nat
  imageEnd : Nat

/-- `p_vaddr >= USER_VADDR_START && p_vaddr < USER_STACK3_VADDR`. -/
def inImageRange (ph : Phdr) : Bool :=
  decide (userVaddrStart ≤ ph.pVaddr ∧ ph.pVaddr < userStack3Vaddr)

/-- `PF_X`: the pages are counted as in `segment_load`. -/
def protectSegment32 (ph : Phdr) : LoadM Unit :=
  if ph.pFlags % 2 = 1 then applyRx (segmentPages ph.pMemsz ph.pVaddr) (ph.pVaddr / pageSize)
  else pure ()

def loadHeader32 (ph : Phdr) (c : Scan32) : LoadM Scan32 :=
  if ph.pType = ptLoad ∧ inImageRange ph then do
    segmentLoad env f .image ph.pOffset ph.pFilesz ph.pMemsz ph.pVaddr
    protectSegment32 ph
    pure { c with imageEnd := max c.imageEnd (u32 (ph.pVaddr + ph.pMemsz)) }
  else pure c

def scanNote32 (ph : Phdr) (isLinux : Bool) : LoadM Bool :=
  if ph.pType = ptNote then scanNoteAbi env f .image ph.pOffset ph.pFilesz isLinux
  else pure isLinux

/-- `PT_NOTE`, and where the program headers are, for a header of any
type. -/
def scanHeader32 (e : Ehdr) (ph : Phdr) (c : Scan32) : LoadM Scan32 := do
  let isLinux ← scanNote32 env f ph c.isLinux
  pure
    (if ph.pOffset ≤ e.ePhoff ∧ e.ePhoff < u32 (ph.pOffset + ph.pFilesz) ∧ inImageRange ph then
      { c with
        isLinux := isLinux
        phdrVaddr := u32 (ph.pVaddr + (e.ePhoff - ph.pOffset))
        phentsize := e.ePhentsize
        phnum := e.ePhnum }
    else { c with isLinux := isLinux })

def loadHeaders32 (env : Env) (f : File) (e : Ehdr) : (n pho : Nat) → Scan32 → LoadM Scan32
  | 0, _, c => pure c
  | n + 1, pho, c => do
      lseek .image pho
      let b ← readStruct env f .image phdr32Size
      let ph := parsePhdr32 b
      let c ← scanHeader32 env f e ph c
      let c ← loadHeader32 env f ph c
      loadHeaders32 env f e n (u32 (pho + phdr32Size)) c

/-- The test of `load32` on the header. -/
def ehdr32Ok (b : Buf) (e : Ehdr) : Bool :=
  isElf b && b 4 == 1 && b 5 == 1 && b 6 == 1 && e.eType == 2 && e.eMachine == 3 &&
    e.eVersion == 1 && decide (e.ePhnum ≤ 1024) && e.ePhentsize == phdr32Size

/-- The part of `load32` behind the header. -/
def mapImage32 (e : Ehdr) : LoadM Image := do
  let c ← loadHeaders32 env f e e.ePhnum e.ePhoff ⟨false, 0, 0, 0, 0⟩
  let brk ← finishImage env c.imageEnd
  pure
    { entry := e.eEntry
      appEntry := e.eEntry
      is64 := false
      isLinux := c.isLinux
      isPe := false
      hasInterp := false
      phdrVaddr := c.phdrVaddr
      phentsize := c.phentsize
      phnum := c.phnum
      bias := 0
      base := 0
      brkBase := brk
      peRt := 0 }

/-- The header is read from where `load` has left the file, behind the
16 bytes that it has read. -/
def load32 : LoadM Image := do
  let b ← readStruct env f .image ehdr32Size
  let e := parseEhdr32 b
  require (ehdr32Ok b e)
  mapImage32 env f e

/-- The three formats, by the first bytes. -/
def loadFile : LoadM Image := do
  let ident ← readStruct env f .image 16
  if ident 0 = 0x4d ∧ ident 1 = 0x5a then env.peLoad
  else if ¬ isElf ident ∨ ident 4 ≠ 1 ∧ ident 4 ≠ 2 then throw .failed
  else if ident 4 = 2 then load64 env f
  else load32 env f

def load (path : List UInt8) : LoadM Image :=
  match env.openImage path with
  | none => throw .failed
  | some f => do
      modify fun s => { s with pos := fun d => if d = .image then 0 else s.pos d }
      loadFile env f

end CoreZ.Userprog.Exec
