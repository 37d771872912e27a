import CoreZ.Syscall.Signal

/-!
# `CoreZ.Syscall.SignalRun`: a task with handlers that may be interrupted

A 64-bit task runs user code, has signals delivered to it (`deliver_signal64`) and returns
from handlers (`sys_sigreturn`). The functions are those of `CoreZ.Syscall.Signal`; here
they act on the registers, the mask and the memory of the task, so that a signal can come
while a handler runs.

User code may do anything to the registers and the mask, may store anywhere but in the
frames of handlers that have not returned, and may map and unmap pages as long as these
frames stay readable. A handler runs on the stack below its frame: a signal that comes
while it runs finds the stack pointer there. `active` is not in the source: it has the
frames of the handlers that have not returned, the innermost first, with the registers and
the mask at the delivery.
-/

set_option autoImplicit false

namespace CoreZ.Syscall

open CoreZ.Lib (Buf Put puts blit)

/-- A frame on the user stack, and the state before it was pushed. -/
structure SavedFrame where
  addr : BitVec 64
  regs : ArchRegs
  mask : BitVec 32

structure Machine where
  regs : ArchRegs
  task : SigTask
  mem : Buf
  pages : UserPages
  active : List SavedFrame

/-- 64-bit user code, with its instruction and stack pointers in the user address range. -/
@[mk_iff]
structure UserState64 (r : ArchRegs) : Prop where
  cs : r.cs = selectorUser64Code
  ss : r.ss = selectorUData
  rip : userVaddrStart ≤ r.rip.toNat ∧ r.rip.toNat < userSpaceEnd
  rsp : userVaddrStart ≤ r.userRsp.toNat ∧ r.userRsp.toNat < userSpaceEnd

instance (r : ArchRegs) : Decidable (UserState64 r) := decidable_of_iff' _ (userState64_iff r)

/-- The frame is in the user address range and on user pages. -/
def UserPages.Readable (u : UserPages) (addr : BitVec 64) : Prop :=
  userRangeReadable u addr.toNat sigframe64Size = true
  deriving Decidable

/-- The store leaves the frame alone. -/
def Spares (p : Put) (f : SavedFrame) : Prop :=
  p.off + p.width ≤ f.addr.toNat ∨ f.addr.toNat + sigframe64Size ≤ p.off
  deriving Decidable

/-- The stack pointer of the handler that runs, which `ret` moves past `restorer`. -/
def OnHandlerStack (m : Machine) : Prop :=
  ∀ f ∈ m.active.head?, m.regs.userRsp.toNat ≤ f.addr.toNat + 8
  deriving Decidable

/-- The handler has returned to the restorer, which makes the system call. -/
def AtReturn (m : Machine) (f : SavedFrame) : Prop :=
  m.regs.cs = selectorUser64Code ∧ m.regs.userRsp = f.addr + 8
  deriving Decidable

inductive SignalEvent where
  /-- User code runs: its registers, mask and pages after that, and its stores. -/
  | user (regs : ArchRegs) (mask : BitVec 32) (pages : UserPages) (stores : List Put)
  | deliver (stale : Buf) (sig : Signo) (sa : SysSigaction)
  | sigreturn

def Machine.step (m : Machine) : SignalEvent → Option Machine
  | .user regs mask pages stores =>
    if ∀ f ∈ m.active, pages.Readable f.addr ∧ ∀ p ∈ stores, Spares p f then
      some { m with
        regs := regs
        task := { m.task with signalMask := mask }
        pages := pages
        mem := puts m.mem stores }
    else none
  | .deliver stale sig sa =>
    if UserState64 m.regs ∧ OnHandlerStack m then
      match deliverSignal64 stale m.pages m.task m.regs sig sa with
      | .written d =>
        if d.pages.Readable d.addr then
          some {
            regs := d.regs
            task := d.task
            pages := d.pages
            mem := blit m.mem d.addr.toNat d.len d.bytes
            active := ⟨d.addr, m.regs, m.task.signalMask⟩ :: m.active }
        else none
      | _ => none
    else none
  | .sigreturn =>
    match m.active with
    | [] => none
    | f :: rest =>
      if AtReturn m f then
        match sysSigreturn m.pages m.task m.regs fun _ => m.mem with
        | .resumed task regs value =>
          some { m with regs := { regs with rax := value }, task := task, active := rest }
        | .terminated _ => none
      else none

end CoreZ.Syscall
