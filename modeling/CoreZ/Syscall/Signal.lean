import CoreZ.Lib.Bytes
import CoreZ.Mm.Cow

/-!
# `CoreZ.Syscall.Signal`: signal frames

`deliver_signal` and `deliver_signal64` push a frame on the user stack and
redirect the saved registers to the handler; `sys_sigreturn` checks the
frame and loads the registers from it.

The frame is built in a local variable and copied with one `memcpy`. The
local is a buffer that starts with whatever the kernel stack held (`stale`)
and is filled by a list of stores, each at the offset that the structure
gives its field.

User memory is read through `mem : Nat → Buf`: `mem t` is what memory
holds at the `t`-th read of the call, since another thread of the process
can store to the frame at any time. The offset of a field is its index
times the width of a word, in both formats, and the formats agree on the
indices up to `EBP`.

Page tables are those of `CoreZ.Mm.Cow`, restricted to the space of the
current task, with the pages under 2 MiB entries. A store of the kernel can
fault: `isr_handler` then ends the task or stops the machine. Left out: the
text that `signal_terminate` prints, and what `proc_exit` does with the
status it is given.
-/

set_option autoImplicit false

namespace CoreZ.Syscall

open CoreZ.Lib (Buf Put puts fields leNat)
open CoreZ.Mm.Cow (Pte Frame present writable isUser isCow inMemory frameOf physOf pteWx pteP pteU
  pteW cowFlag cowKeep userStart userEnd)

def userVaddrStart : Nat := 0x8048000

def userSpaceEnd : Nat := 0xc0000000

def pageSize : Nat := 0x1000

def selectorUData : BitVec 64 := 0x23

def selectorUCode : BitVec 64 := 0x2B

def selectorUser64Code : BitVec 64 := 0x33

def sigkill : Nat := 9

def sigsegv : Nat := 11

def sigstop : Nat := 19

/-- `NSIG`: a signal is the number of a bit of a `sigset_t`. -/
abbrev Signo := Fin 32

/-- `struct ARCH_REGS`, without `gs_saved`, `int_no` and `err_code`. -/
structure ArchRegs where
  r15 : BitVec 64
  r14 : BitVec 64
  r13 : BitVec 64
  r12 : BitVec 64
  r11 : BitVec 64
  r10 : BitVec 64
  r9 : BitVec 64
  r8 : BitVec 64
  rbp : BitVec 64
  rdi : BitVec 64
  rsi : BitVec 64
  rdx : BitVec 64
  rcx : BitVec 64
  rbx : BitVec 64
  rax : BitVec 64
  rip : BitVec 64
  cs : BitVec 64
  rflags : BitVec 64
  userRsp : BitVec 64
  ss : BitVec 64

/-- `struct SYS_SIGACTION`. -/
structure SysSigaction where
  saHandler : BitVec 64
  saMask : BitVec 32
  saFlags : BitVec 32
  saRestorer : BitVec 64

/-- `sa_flags & SA_NODEFER`. -/
def SysSigaction.nodefer (sa : SysSigaction) : Bool := sa.saFlags.getLsbD 1

/-- `sa_flags & SA_SIGINFO`. -/
def SysSigaction.siginfo (sa : SysSigaction) : Bool := sa.saFlags.getLsbD 2

/-- The fields of `struct TASK` that signal delivery uses. -/
structure SigTask where
  signalMask : BitVec 32
  stackBottom : BitVec 32
  sigFaultAddr : BitVec 32

/-! ### User pages -/

/-- The address space of the current task: the entries of its pages and
its bitmap, by pages. `frames v` is what the pool and the page tables
answer when page `v` is to be mapped or copied: a frame, or nothing if
either fails.

Some pages are under a 2 MiB entry of the kernel: `large`. All of these
entries are writable, and none is for user code. `pte_query` does not test
`PTE_PS` and takes the memory under such an entry for a page table: `pte v`
is then a word of that memory. Where the memory belongs to a device, the
kernel has no mapping of it at `VIRT_OF`, and the read faults: `lost v` is
the page of the read. The I/O APIC is such a device in every space, with
physical address `0xfec00000` under page `0x40000`. -/
structure UserPages where
  nxUsable : Bool
  pte : Nat → Pte
  large : Nat → Bool
  lost : Nat → Option Nat
  bits : Nat
  used : Nat → Bool
  /-- `frame_owner` of the frame of the page is at most 1. -/
  owned : Nat → Bool
  frames : Nat → Option Frame
  ioapic : lost 0x40000 = some 0x1bec00

variable (u : UserPages)

/-- A page that user code can reach. -/
def UserPages.IsUserPage (v : Nat) : Prop :=
  u.large v = false ∧ present (u.pte v) = true ∧ isUser (u.pte v) = true
  deriving Decidable

def UserPages.setPte (v : Nat) (e : Pte) : UserPages :=
  { u with pte := Function.update u.pte v e }

/-- How a page fault of kernel code ends. -/
inductive Fault where
  /-- `signal_terminate(current, SIGSEGV)`. -/
  | killed
  /-- The screen of an exception; the machine stops. -/
  | halted
  deriving DecidableEq

/-- `isr_handler`, for a fault of kernel code in page `v` that is not one of
copy-on-write. It looks at the low half of the address, and its bounds are
multiples of the page size. -/
def isrHandler (v : Nat) : Fault :=
  let fa := v % 0x100000
  if userStart ≤ fa ∧ fa < userEnd ∧ (fa < 0x40000 ∨ 0x80200 ≤ fa) then .killed else .halted

/-- `get_a_page`, and whether it gives the page. -/
def getAPage (v : Nat) : UserPages × Bool :=
  if ¬ (userStart ≤ v ∧ v - userStart < u.bits) then (u, false)
  else if u.used v then (u, false)
  else
    match u.frames v with
    | none => (u, false)
    | some f =>
      ({ u with
          used := Function.update u.used v true
          pte := Function.update u.pte v
            (physOf f ||| pteWx u.nxUsable (pteP ||| pteU) true false) }, true)

/-- `ensure_user_page`, and whether it returns 0. -/
def ensureUserPage (vaddr : BitVec 32) : Except Fault (UserPages × Bool) :=
  let v := vaddr.toNat / pageSize
  match u.lost v with
  | some table => .error (isrHandler table)
  | none => .ok (if present (u.pte v) then (u, true) else getAPage u v)

/-- The loop that makes the pages of a frame. `fp` is a `uint32_t`, so it
starts over at 0 after the last page of the 32-bit space; a loop that does
so reaches the pages of the I/O APIC and faults. The rounds are never used
up, see `ensurePages_eq`. -/
def ensurePages : (rounds : Nat) → UserPages → (fp : BitVec 32) → (stop : BitVec 64) →
    Except Fault UserPages
  | 0, _, _, _ => .error .halted
  | rounds + 1, u, fp, stop =>
    if fp.setWidth 64 < stop then
      -- what ensure_user_page returns is not looked at
      ensureUserPage u fp >>= fun w => ensurePages rounds w.1 (fp + 0x1000#32) stop
    else .ok u

/-- One round for each page, and the one that finds the end. -/
def allRounds : Nat := 0x100001

/-- `page_cow_resolve`: nothing if it returns 0. -/
def pageCowResolve (v : Nat) : Option UserPages :=
  let e := u.pte v
  if inMemory (frameOf e) = false then none
  else if u.owned v then some (u.setPte v ((e &&& ~~~cowFlag) ||| pteW))
  else (u.frames v).map fun f => u.setPte v (physOf f ||| (e &&& cowKeep) ||| pteW)

/-- A store of kernel code to page `v`. `CR0.WP` is set, so that it faults on
a page that is not writable; `handle_cow_fault` makes the page writable if
it is one of copy-on-write, and the store is made again. -/
def storePage (v : Nat) : Except Fault UserPages :=
  if u.large v ∨ (present (u.pte v) ∧ writable (u.pte v)) then .ok u
  else if userStart ≤ v ∧ v < userEnd ∧ present (u.pte v) ∧ isCow (u.pte v) then
    (pageCowResolve u v).elim (.error (isrHandler v)) .ok
  else .error (isrHandler v)

/-- The `memcpy` of a frame, as far as the pages go. It copies upwards and a
frame is shorter than a page, so it stores to the page of the first byte and
then to that of the last one. -/
def copyFrame (addr : BitVec 64) (len : Nat) : Except Fault UserPages :=
  storePage u (addr.toNat / pageSize) >>= fun u =>
    storePage u ((addr + BitVec.ofNat 64 (len - 1)).toNat / pageSize)

/-- The loop over the pages of a frame, and the copy. -/
def pushFrame (base : BitVec 32) (stop addr : BitVec 64) (len : Nat) : Except Fault UserPages :=
  ensurePages allRounds u base stop >>= fun u => copyFrame u addr len

/-- `user_range_readable`. -/
def userRangeReadable (addr len : Nat) : Bool :=
  if addr < userVaddrStart ∨ len = 0 ∨ userSpaceEnd - userVaddrStart < len ∨
      userSpaceEnd - len < addr then false
  else
    let first := addr / pageSize
    let last := (addr + len - 1) / pageSize
    (List.range (last + 1 - first)).all fun k => decide (u.IsUserPage (first + k))

/-! ### Frames -/

/-- `sizeof(struct SYS_SIGFRAME)`. -/
def sigframeSize : Nat := 60

/-- `sizeof(struct SYS_SIGFRAME64)`: 23 words, `info` with 128 bytes and
`uc` with 240. -/
def sigframe64Size : Nat := 552

/-- `offsetof(struct SYS_SIGFRAME64, info)`. -/
def infoOff : Nat := 184

/-- `offsetof(struct SYS_SIGFRAME64, uc)`. -/
def ucOff : Nat := 312

/-- The size of a frame for code with these registers. -/
def frameSize (r : ArchRegs) : Nat :=
  if r.cs = selectorUser64Code then sigframe64Size else sigframeSize

/-- `flags & ~(1 << 8)`: the handler does not run in single steps. -/
def withoutTf (rflags : BitVec 64) : BitVec 64 := rflags &&& ~~~0x100#64

variable (cur : SigTask) (r : ArchRegs) (sig : Signo)

/-- The stores of `deliver_signal` to its frame. The fields have 32 bits;
a store keeps the low half of the value. -/
def sigframe (sa : SysSigaction) : List Put :=
  fields 4 0
    [sa.saRestorer.toNat, sig, r.rip.toNat, r.cs.toNat, (withoutTf r.rflags).toNat,
      r.userRsp.toNat, r.ss.toNat, r.rax.toNat, r.rbx.toNat, r.rcx.toNat, r.rdx.toNat,
      r.rsi.toNat, r.rdi.toNat, r.rbp.toNat, cur.signalMask.toNat]

/-- The words of a `SYS_SIGFRAME64` that are always stored. -/
def sigframe64Regs (sa : SysSigaction) : List Put :=
  fields 8 0
    [sa.saRestorer.toNat, sig, r.rip.toNat, r.cs.toNat, (withoutTf r.rflags).toNat,
      r.userRsp.toNat, r.ss.toNat, r.rax.toNat, r.rbx.toNat, r.rcx.toNat, r.rdx.toNat,
      r.rsi.toNat, r.rdi.toNat, r.rbp.toNat, r.r8.toNat, r.r9.toNat, r.r10.toNat, r.r11.toNat,
      r.r12.toNat, r.r13.toNat, r.r14.toNat, r.r15.toNat, cur.signalMask.toNat]

/-- `(sig == SIGSEGV) ? cur->sig_fault_addr : 0`. -/
def faultAddr : Nat :=
  if sig.val = sigsegv then cur.sigFaultAddr.toNat else 0

/-- The stores to `info`: `si_pad` and `si_pad2` have none. -/
def siginfo64 : List Put :=
  fields 4 infoOff [sig, 0, if sig.val = sigsegv then 1 else 0x80] ++
    fields 8 (infoOff + 16) [faultAddr cur sig]

/-- The stores to `uc`. The registers stand in the order of `UCGR_*`. -/
def ucontext64 : List Put :=
  fields 8 ucOff
    ([0, 0, 0, 0, 0] ++
      [r.r8.toNat, r.r9.toNat, r.r10.toNat, r.r11.toNat, r.r12.toNat, r.r13.toNat, r.r14.toNat,
        r.r15.toNat, r.rdi.toNat, r.rsi.toNat, r.rbp.toNat, r.rbx.toNat, r.rdx.toNat,
        r.rax.toNat, r.rcx.toNat, r.userRsp.toNat, r.rip.toNat, (withoutTf r.rflags).toNat,
        (r.cs ||| r.ss <<< 16).toNat, 0, 0, cur.signalMask.toNat, faultAddr cur sig] ++
      [0, cur.signalMask.toNat])

/-- The stores of `deliver_signal64` to its frame. -/
def sigframe64 (sa : SysSigaction) : List Put :=
  sigframe64Regs cur r sig sa ++
    if sa.siginfo then siginfo64 cur sig ++ ucontext64 cur r sig else []

/-! ### Delivery -/

/-- `~((1u << SIGKILL) | (1u << SIGSTOP))`. -/
def maskable : BitVec 32 := ~~~(1#32 <<< sigkill ||| 1#32 <<< sigstop)

/-- The signal mask while the handler runs. -/
def handlerMask (mask : BitVec 32) (sig : Signo) (sa : SysSigaction) : BitVec 32 :=
  ((if sa.nodefer then mask else mask ||| 1#32 <<< sig.val) ||| sa.saMask) &&& maskable

/-- What a delivery leaves behind: the bytes `bytes 0 .. bytes (len - 1)`
copied to `addr`, the pages at that time, the task and its registers. -/
structure Delivery where
  addr : BitVec 64
  len : Nat
  bytes : Buf
  pages : UserPages
  task : SigTask
  regs : ArchRegs

inductive Delivered where
  /-- `signal_terminate`: the task exits with `128 + sig`. -/
  | terminated (status : Nat)
  /-- A fault of kernel code for which the machine stops. -/
  | halted
  | written (d : Delivery)

def Fault.delivered : Fault → Delivered
  | .killed => .terminated (128 + sigsegv)
  | .halted => .halted

/-- Where `deliver_signal64` puts its frame: below the red zone, and 8
bytes off a multiple of 16. -/
def frameSp64 (userRsp : BitVec 64) : BitVec 64 :=
  ((userRsp - 128 - BitVec.ofNat 64 sigframe64Size) &&& ~~~0xf#64) - 8

/-- Where `deliver_signal` puts its frame, a `uint32_t`. -/
def frameEsp (userRsp : BitVec 64) : BitVec 32 :=
  (userRsp - BitVec.ofNat 64 sigframeSize).setWidth 32 &&& ~~~3#32

/-- `cur->stack_bottom != 0 && sp < stack_low`. -/
def belowStack (sp : BitVec 64) : Bool :=
  decide (cur.stackBottom ≠ 0 ∧ sp < cur.stackBottom.setWidth 64)

def deliverSignal64 (stale : Buf) (u : UserPages) (cur : SigTask) (r : ArchRegs) (sig : Signo)
    (sa : SysSigaction) : Delivered :=
  let frame := puts stale (sigframe64 cur r sig sa)
  let sp := frameSp64 r.userRsp
  if belowStack cur sp then .terminated (128 + sig)
  else
    match pushFrame u ((sp &&& ~~~0xfff#64).setWidth 32)
        (sp + BitVec.ofNat 64 sigframe64Size) sp sigframe64Size with
    | .error f => f.delivered
    | .ok u =>
      .written
        { addr := sp
          len := sigframe64Size
          bytes := frame
          pages := u
          task := { cur with signalMask := handlerMask cur.signalMask sig sa }
          regs :=
            { r with
              userRsp := sp
              rip := sa.saHandler
              rdi := BitVec.ofNat 64 sig
              rsi := if sa.siginfo then sp + BitVec.ofNat 64 infoOff else 0
              rdx := if sa.siginfo then sp + BitVec.ofNat 64 ucOff else 0
              rax := 0 } }

def deliverSignal (stale : Buf) (u : UserPages) (cur : SigTask) (r : ArchRegs) (sig : Signo)
    (sa : SysSigaction) : Delivered :=
  if r.cs = selectorUser64Code then deliverSignal64 stale u cur r sig sa
  else
    let frame := puts stale (sigframe cur r sig sa)
    let newEsp := frameEsp r.userRsp
    if belowStack cur (newEsp.setWidth 64) then .terminated (128 + sig)
    else
      -- the bound of the loop is computed with 32 bits here
      match pushFrame u (newEsp &&& ~~~0xfff#32)
          ((newEsp + BitVec.ofNat 32 sigframeSize).setWidth 64) (newEsp.setWidth 64)
          sigframeSize with
      | .error f => f.delivered
      | .ok u =>
        .written
          { addr := newEsp.setWidth 64
            len := sigframeSize
            bytes := frame
            pages := u
            task := { cur with signalMask := handlerMask cur.signalMask sig sa }
            regs :=
              { r with
                userRsp := newEsp.setWidth 64
                rip := (sa.saHandler.setWidth 32).setWidth 64
                rax := BitVec.ofNat 64 sig } }

/-! ### Return -/

def sigframeValid (cs rip rsp ss rflags : BitVec 64) : Bool :=
  if cs ≠ selectorUser64Code ∧ cs ≠ selectorUCode then false
  else if ss ≠ selectorUData then false
  else if rip.toNat < userVaddrStart ∨ userSpaceEnd ≤ rip.toNat then false
  else if rsp.toNat < userVaddrStart ∨ userSpaceEnd ≤ rsp.toNat then false
  else if rflags >>> 32 ≠ 0 ∨ rflags &&& 0x1AF028 ≠ 0 ∨ rflags &&& 0x202 ≠ 0x202 then false
  else true

inductive Returned where
  /-- `signal_terminate`: the task exits with `128 + sig`. -/
  | terminated (status : Nat)
  | resumed (task : SigTask) (regs : ArchRegs) (value : BitVec 64)

/-- Read number `t` of the call: the field with index `k` of a frame of
`width`-byte words. -/
def readField (mem : Nat → Buf) (width faddr t k : Nat) : BitVec 64 :=
  BitVec.ofNat 64 (leNat (mem t) width (faddr + width * k))

/-- The branch of `sys_sigreturn` for one of the formats, with `restore`
for the registers that only the 64-bit frame has and `maskAt` for the index
of `old_mask`. Reads 0 to 4 are the arguments of `sigframe_valid`. -/
def sigreturnFrame (read : Nat → Nat → BitVec 64) (faddr : BitVec 64) (size maskAt : Nat)
    (restore : ArchRegs → ArchRegs) : Returned :=
  if faddr.toNat < userVaddrStart ∨ userSpaceEnd - size < faddr.toNat ∨
      userRangeReadable u (faddr.toNat % 0x100000000) size = false then
    .terminated (128 + sigsegv)
  else if sigframeValid (read 0 3) (read 1 2) (read 2 5) (read 3 6) (read 4 4) = false then
    .terminated (128 + sigsegv)
  else
    .resumed { cur with signalMask := (read 25 maskAt).setWidth 32 &&& maskable }
      (restore
        { r with
          rip := read 5 2
          cs := read 6 3
          rflags := read 7 4
          userRsp := read 8 5
          ss := read 9 6
          rax := read 10 7
          rbx := read 11 8
          rcx := read 12 9
          rdx := read 13 10
          rsi := read 14 11
          rdi := read 15 12
          rbp := read 16 13 })
      (read 26 7)

/-- Where `sys_sigreturn` takes the frame to be. The handler's `ret` has
popped `restorer`. -/
def returnFaddr : BitVec 64 :=
  if r.cs = selectorUser64Code then r.userRsp - 8 else r.userRsp - 4

/-- The width of a word of the frame that `sys_sigreturn` reads. -/
def returnWidth : Nat := if r.cs = selectorUser64Code then 8 else 4

def sysSigreturn (mem : Nat → Buf) : Returned :=
  let faddr := returnFaddr r
  let read := readField mem (returnWidth r) faddr.toNat
  if r.cs = selectorUser64Code then
    sigreturnFrame u cur r read faddr (frameSize r) 22 fun r =>
      { r with
        r8 := read 17 14
        r9 := read 18 15
        r10 := read 19 16
        r11 := read 20 17
        r12 := read 21 18
        r13 := read 22 19
        r14 := read 23 20
        r15 := read 24 21 }
  else sigreturnFrame u cur r read faddr (frameSize r) 14 id

end CoreZ.Syscall
