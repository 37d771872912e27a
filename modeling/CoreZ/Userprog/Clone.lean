import CoreZ.Fs.File
import CoreZ.Mm.Cow

/-!
# `CoreZ.Userprog.Clone`: `sys_clone_ex` and the address spaces

The model of `kernel/userprog/clone.c` over the tasks and files of
`CoreZ.Fs.File` and the address spaces of `CoreZ.Mm.Cow`. What depends on the
pools is in the `SpawnEnv` of a call. `space_ref_table` has a slot for every
task, so the model has a count for every page-table root. The page of the
stack that a thread gets is left out. With `CLONE_CHILD_CLEARTID` and
`CLONE_CHILD_SETTID` the call stores a zero through `r10`, in the space of the
caller and before anything can fail.
-/

set_option autoImplicit false

namespace CoreZ.Userprog.Clone

open CoreZ.Fs CoreZ.Mm.Cow

structure Machine where
  kernel : Kernel
  vm : Vm
  /-- `space_ref_table` -/
  refs : Nat → Nat

def spaceRef (refs : Nat → Nat) (pml4 : Nat) : Nat → Nat :=
  if pml4 = 0 then refs else Function.update refs pml4 (refs pml4 + 1)

/-- The arguments of a call: the flags that `CoreZ.Fs` looks at, the two flags
of the thread id, and the register with its address. -/
structure CloneCall where
  flags : CloneFlags
  childCleartid : Bool := false
  childSettid : Bool := false
  r10 : Nat := 0

/-- The kernel stores one byte of zero in the space `root`. A copy-on-write
page is resolved by the fault. `none` stands for the fault that ends the task,
and for an address outside of the pages of the space. -/
def storeByte (root : Nat) (grant : Nat → Option Frame) (vm : Vm) (addr : Nat) : Option Vm :=
  let v := addr / 0x1000
  let vm := if writable (vm.pte root v) then vm
    else handleCowFault vm root v (vm.pte root v) (grant v)
  if userStart ≤ v ∧ v < userEnd ∧ sharedPage v = false ∧ present (vm.pte root v) ∧
      writable (vm.pte root v) then
    some (store vm root v (addr % 0x1000) 0)
  else none

/-- The bytes that the call sets to zero at `r10`. -/
def CloneCall.tidBytes (call : CloneCall) : List Nat :=
  if call.childCleartid ∧ call.childSettid ∧ call.r10 ≠ 0 then
    [call.r10, call.r10 + 1, call.r10 + 2, call.r10 + 3]
  else []

/-- `sys_clone_ex` of the task `c`. The failure exit calls `free_user_space`
for the root of the child, which under `CLONE_VM` is the parent's. -/
def sysCloneEx (m : Machine) (c : Tid) (call : CloneCall) (e : SpawnEnv)
    (grant : Nat → Option Frame) : Option Machine :=
  let root := (m.kernel.tasks c).pml4
  let kernel := CoreZ.Fs.sysCloneEx m.kernel c call.flags e
  match threadAllocSlot m.kernel e.stack with
  | none => some { m with kernel }
  | some _ =>
    (call.tidBytes.foldlM (storeByte root grant) m.vm).map fun vm =>
      if call.flags.vm then
        if root = 0 then { m with kernel, vm }
        else
          { kernel
            vm := if e.userStack then vm else freeUserSpace vm root
            refs := spaceRef m.refs root }
      else if e.pml4 = 0 then { m with kernel, vm }
      else
        let new := createSpace vm e.pml4
        { kernel
          vm :=
            if e.copied = false then freeUserSpace new e.pml4
            else if root = 0 then new
            else shareUserSpaceCow new root e.pml4
          refs := spaceRef m.refs e.pml4 }

end CoreZ.Userprog.Clone
