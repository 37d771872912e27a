import Mathlib.Tactic.Push
import CoreZ.Syscall.Signal

/-!
# `CoreZ.Proofs.Syscall.Sigreturn`: what a signal frame can load

`sys_sigreturn` loads the saved registers from user memory. `UserContext`
says which registers user mode may continue with, and `sigframe_valid`
accepts no others (`UserContext.of_sigframeValid`).

The check reads the five fields it looks at, and the registers are loaded
by reading them again. Another thread of the process can store to the frame
in between, so the registers need not be those that were checked:
`not_confined_reread` ends with a kernel code selector. When the second
reads return what the check has seen, or the frame is refused before they
are made (`NoGap`), the task is terminated or continues in user mode
(`sysSigreturn_confined`).
-/

set_option autoImplicit false

namespace CoreZ.Proofs.Syscall

open CoreZ.Lib (Buf puts fields)
open CoreZ.Syscall

/-- The user address range. -/
def InWindow (a : Nat) : Prop := userVaddrStart ≤ a ∧ a < userSpaceEnd
  deriving Decidable

/-- The test of the source, read the other way. -/
theorem inWindow_of_not {a : Nat} (h : ¬ (a < userVaddrStart ∨ userSpaceEnd ≤ a)) :
    InWindow a := by
  unfold InWindow
  omega

/-- Registers that user mode may continue with: user selectors, IOPL 0
(bits 12 and 13), interrupts on (bit 9), VM off (bit 17), and the
instruction and the stack pointer in the user address range. -/
@[mk_iff]
structure UserContext (r : ArchRegs) : Prop where
  code : r.cs = selectorUser64Code ∨ r.cs = selectorUCode
  stack : r.ss = selectorUData
  iopl : r.rflags.getLsbD 12 = false ∧ r.rflags.getLsbD 13 = false
  interrupts : r.rflags.getLsbD 9 = true
  vm : r.rflags.getLsbD 17 = false
  rip : InWindow r.rip.toNat
  rsp : InWindow r.userRsp.toNat

instance (r : ArchRegs) : Decidable (UserContext r) := decidable_of_iff' _ (userContext_iff r)

/-- The task is being terminated, or continues in user mode. -/
def Confined : Returned → Prop
  | .terminated _ => True
  | .resumed _ regs _ => UserContext regs

instance : (o : Returned) → Decidable (Confined o)
  | .terminated _ => inferInstanceAs (Decidable True)
  | .resumed _ regs _ => inferInstanceAs (Decidable (UserContext regs))

/-- Read number `t` of the call: field `k` of the frame that `r` points at. -/
def fieldRead (r : ArchRegs) (mem : Nat → Buf) (t k : Nat) : BitVec 64 :=
  readField mem (returnWidth r) (returnFaddr r).toNat t k

/-- The place of the frame is refused: it is not in the user address range,
or not all of it is on user pages. Nothing is read then. -/
def PlaceRefused (u : UserPages) (r : ArchRegs) : Prop :=
  (returnFaddr r).toNat < userVaddrStart ∨
    userSpaceEnd - frameSize r < (returnFaddr r).toNat ∨
    userRangeReadable u ((returnFaddr r).toNat % 0x100000000) (frameSize r) = false

/-- The check refuses what its five reads return. Nothing is read again
then. -/
def CheckRefused (r : ArchRegs) (mem : Nat → Buf) : Prop :=
  sigframeValid (fieldRead r mem 0 3) (fieldRead r mem 1 2) (fieldRead r mem 2 5)
    (fieldRead r mem 3 6) (fieldRead r mem 4 4) = false

/-- The fields that the check has read are the same when they are read
again, with the numbers of the two reads. -/
structure Stable (r : ArchRegs) (mem : Nat → Buf) : Prop where
  cs : fieldRead r mem 6 3 = fieldRead r mem 0 3
  rip : fieldRead r mem 5 2 = fieldRead r mem 1 2
  rsp : fieldRead r mem 8 5 = fieldRead r mem 2 5
  ss : fieldRead r mem 9 6 = fieldRead r mem 3 6
  rflags : fieldRead r mem 7 4 = fieldRead r mem 4 4

/-- Nobody can use the gap between the check and the loads: the frame is
refused before it, or it does not change. -/
def NoGap (u : UserPages) (r : ArchRegs) (mem : Nat → Buf) : Prop :=
  PlaceRefused u r ∨ CheckRefused r mem ∨ Stable r mem

/-! ### The check -/

/-- What `sigframe_valid` accepts is a user context. -/
theorem UserContext.of_sigframeValid {r : ArchRegs}
    (h : sigframeValid r.cs r.rip r.userRsp r.ss r.rflags = true) : UserContext r := by
  unfold sigframeValid at h
  -- each test of the source that fails returns 0
  split at h
  · cases h
  next hcs =>
  split at h
  · cases h
  next hss =>
  split at h
  · cases h
  next hrip =>
  split at h
  · cases h
  next hrsp =>
  split at h
  · cases h
  next hflags =>
  push Not at hcs hss hflags
  obtain ⟨-, hzero, hone⟩ := hflags
  have hclear : ∀ i, (0x1AF028#64).getLsbD i = true → r.rflags.getLsbD i = false :=
    fun i hi => by simpa [hi] using congrArg (fun y => y.getLsbD i) hzero
  exact
    { code := Classical.or_iff_not_imp_left.mpr hcs
      stack := hss
      iopl := ⟨hclear 12 (by decide), hclear 13 (by decide)⟩
      interrupts := by simpa using congrArg (fun y => y.getLsbD 9) hone
      vm := hclear 17 (by decide)
      rip := inWindow_of_not hrip
      rsp := inWindow_of_not hrsp }

/-! ### The call -/

/-- One branch of `sys_sigreturn`: it terminates the task at one of its two
tests, or loads what the first reads have returned to the check. The
registers that `restore` adds are not among those that were checked. -/
theorem confined_sigreturnFrame {u : UserPages} {cur : SigTask} {r : ArchRegs} {mem : Nat → Buf}
    {maskAt : Nat} {restore : ArchRegs → ArchRegs}
    (hrestore : ∀ r, UserContext r → UserContext (restore r)) (h : NoGap u r mem) :
    Confined (sigreturnFrame u cur r (fieldRead r mem) (returnFaddr r) (frameSize r) maskAt
      restore) := by
  unfold sigreturnFrame
  split
  · trivial
  next hplace =>
  split
  · trivial
  next hvalid =>
  obtain hrefused | hrefused | hstable := h
  · exact absurd hrefused hplace
  · exact absurd hrefused hvalid
  · refine hrestore _ (UserContext.of_sigframeValid ?_)
    rw [hstable.cs, hstable.rip, hstable.rsp, hstable.ss, hstable.rflags]
    exact Bool.of_not_eq_false hvalid

/-- For every page table, task, register state and sequence of memories: if
the frame is refused, or the second reads of the checked fields return what
the check has read, then after `sys_sigreturn` the task is being terminated
or its registers are those of user mode. -/
theorem sysSigreturn_confined (u : UserPages) (cur : SigTask) (r : ArchRegs) (mem : Nat → Buf)
    (h : NoGap u r mem) : Confined (sysSigreturn u cur r mem) := by
  unfold sysSigreturn
  split
  · refine confined_sigreturnFrame ?_ h
    intro r hr
    exact ⟨hr.code, hr.stack, hr.iopl, hr.interrupts, hr.vm, hr.rip, hr.rsp⟩
  · exact confined_sigreturnFrame (fun _ hr => hr) h

/-! ### Two runs -/

/-- Every page is a user page, but for those that hold the I/O APIC. -/
def mappedPages : UserPages where
  nxUsable := true
  pte := fun _ => 7
  large := fun v => decide (0x40000 ≤ v ∧ v < 0x40200)
  lost := fun v => if 0x40000 ≤ v ∧ v < 0x40200 then some 0x1bec00 else none
  bits := 0xb7fb8
  used := fun _ => true
  owned := fun _ => true
  frames := fun _ => none
  ioapic := rfl

def zeroRegs : ArchRegs := ⟨0, 0, 0, 0, 0, 0, 0, 0, 0, 0, 0, 0, 0, 0, 0, 0, 0, 0, 0, 0⟩

/-- The registers of a handler that returns with its stack pointer at
`0xbfff0008`, from 64-bit code. -/
def returningRegs : ArchRegs :=
  { zeroRegs with cs := selectorUser64Code, ss := selectorUData, userRsp := 0xbfff0008 }

/-- A frame at `0xbfff0000` with the code selector `cs`. -/
def frameWith (cs : Nat) : Buf :=
  puts (fun _ => 0)
    (fields 8 0xbfff0000 [0, 10, 0x8048000, cs, 0x202, 0xbfff1000, 0x23, 0, 0, 0, 0, 0, 0, 0,
      0, 0, 0, 0, 0, 0, 0, 0, 0])

/-- A frame that nobody changes. -/
theorem sysSigreturn_confined_sample :
    NoGap mappedPages returningRegs (fun _ => frameWith 0x33) ∧
      Confined (sysSigreturn mappedPages ⟨0, 0, 0⟩ returningRegs fun _ => frameWith 0x33) :=
  ⟨.inr (.inr ⟨rfl, rfl, rfl, rfl, rfl⟩),
    sysSigreturn_confined mappedPages ⟨0, 0, 0⟩ returningRegs (fun _ => frameWith 0x33)
      (.inr (.inr ⟨rfl, rfl, rfl, rfl, rfl⟩))⟩

/-- Another thread stores the kernel's code selector 8 between the check,
which ends with read 4, and the second read of `cs`. The task continues
with that selector. -/
theorem not_confined_reread :
    ¬ Confined (sysSigreturn mappedPages ⟨0, 0, 0⟩ returningRegs fun t =>
      frameWith (if t < 5 then 0x33 else 8)) := by
  decide +kernel

end CoreZ.Proofs.Syscall
