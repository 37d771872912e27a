import CoreZ.Lib.RefCount
import CoreZ.Mm.Cow

/-!
# `CoreZ.Proofs.Mm.Cow.Entries`: page tables as slots

For the reference counts a page table entry is a slot: it refers to a
frame, or to none (`entry`). This module says what the masks of the
source do to `entry` and to `PTE_W`. Nothing behind it looks at bits.
-/

set_option autoImplicit false

namespace CoreZ.Proofs.Mm.Cow

open CoreZ.Lib.RefCount
open CoreZ.Mm.Cow
open BitVec (allOnes or_zero getLsbD_or getLsbD_and)

/-! ### Bits of an entry -/

/-- The frame that an entry refers to. -/
def entry (e : Pte) : Option Frame := if present e then some (frameOf e) else none

variable {a v : Nat} {e m x : Pte} {s : Vm}

/-- An entry that is not present maps no frame. -/
theorem entry_of_not_present (h : present e = false) : entry e = none := by
  rw [entry, h]
  rfl

/-- A present entry maps the frame in its address bits. -/
theorem entry_eq_some {f : Frame} : entry e = some f ↔ present e = true ∧ frameOf e = f := by
  rw [entry]
  cases h : present e <;> simp

theorem entry_zero : entry 0 = none := by decide

section Bits

variable (x y : Pte) (f : Frame)

/-- The address bits of an entry that is put together. -/
theorem frameOf_or : frameOf (x ||| y) = frameOf x ||| frameOf y := BitVec.extractLsb'_or

theorem frameOf_and : frameOf (x &&& y) = frameOf x &&& frameOf y := BitVec.extractLsb'_and

/-- A frame has its own address. -/
theorem frameOf_physOf : frameOf (physOf f) = f := by
  ext i hi
  have h1 : 12 + i < 64 := by omega
  simp [frameOf, physOf, h1, BitVec.getLsbD_eq_getElem hi]

/-- The low bits of a physical address are flags of the entry. -/
theorem getLsbD_physOf {i : Nat} (h : i < 12) : (physOf f).getLsbD i = false := by
  simp [physOf, h]

/-- A mask with all bits of the address keeps the frame. -/
theorem frameOf_and_keep (h : frameOf m = allOnes 20) : frameOf (x &&& m) = frameOf x := by
  rw [frameOf_and, h, BitVec.and_allOnes]

end Bits

/-- An address with flags. -/
theorem entry_phys (f : Frame) (hx : frameOf x = 0#20) :
    entry (physOf f ||| x) = if present x then some f else none := by
  have hframe : frameOf (physOf f ||| x) = f := by
    rw [frameOf_or, frameOf_physOf, hx, or_zero]
  have hpres : present (physOf f ||| x) = present x := by
    rw [present, getLsbD_or, getLsbD_physOf f (by decide), Bool.false_or]
    rfl
  rw [entry, hframe, hpres]

/-- Flags of an entry change, its address and `PTE_P` do not. -/
theorem entry_flags (e : Pte) (hm : frameOf m = allOnes 20) (hmp : present m = true)
    (hx : frameOf x = 0#20) (hxp : present x = false) : entry ((e &&& m) ||| x) = entry e := by
  have hframe : frameOf ((e &&& m) ||| x) = frameOf e := by
    rw [frameOf_or, frameOf_and_keep e hm, hx, or_zero]
  have hpres : present ((e &&& m) ||| x) = present e := by
    rw [present] at hmp hxp
    rw [present, getLsbD_or, getLsbD_and, hmp, hxp, Bool.and_true, Bool.or_false]
    rfl
  rw [entry, entry, hframe, hpres]

/-- The parent's entry after a fork. -/
theorem writable_cowParent (e : Pte) : writable ((e &&& ~~~pteW) ||| cowFlag) = false := by
  simp [writable, pteW, cowFlag]

/-- An entry made of a frame and the kept flags of another entry. -/
theorem entry_keep {f : Frame} {e : Pte} (hx : frameOf x = 0#20) (hxp : present x = false) :
    entry (physOf f ||| (e &&& cowKeep) ||| x) = if present e then some f else none := by
  have hkeep : frameOf ((e &&& cowKeep) ||| x) = 0#20 := by
    rw [frameOf_or, frameOf_and, show frameOf cowKeep = 0#20 by decide, BitVec.and_zero, hx,
      or_zero]
  have hpres : present ((e &&& cowKeep) ||| x) = present e := by
    rw [present] at hxp
    rw [present, getLsbD_or, getLsbD_and, hxp, Bool.or_false,
      show cowKeep.getLsbD 0 = true by decide, Bool.and_true]
    rfl
  rw [BitVec.or_assoc, entry_phys f hkeep, hpres]

/-- The child's entry after a fork. -/
theorem writable_cowChild (f : Frame) (e : Pte) :
    writable (physOf f ||| (e &&& cowKeep) ||| cowFlag) = false := by
  rw [writable, getLsbD_or, getLsbD_or, getLsbD_and,
    getLsbD_physOf f (by decide)]
  simp [cowKeep, cowFlag]

/-- The entry of a page that `page_cow_resolve` finds unshared. -/
theorem entry_cowClaim (e : Pte) : entry ((e &&& ~~~cowFlag) ||| pteW) = entry e :=
  entry_flags e (by decide) (by decide) (by decide) (by decide)

/-- The flags that `pte_wx` adds for user pages. -/
theorem pteWx_flags {nx w x : Bool} :
    frameOf (pteWx nx (pteP ||| pteU) w x) = 0#20 ∧ present (pteWx nx (pteP ||| pteU) w x) = true ∧
      writable (pteWx nx (pteP ||| pteU) w x) = w := by
  cases nx <;> cases w <;> cases x <;> decide

/-- A new page maps its frame. -/
theorem entry_fresh {nx w x : Bool} {f : Frame} :
    entry (physOf f ||| pteWx nx (pteP ||| pteU) w x) = some f := by
  obtain ⟨hframe, hpres, -⟩ := pteWx_flags
  rw [entry_phys f hframe, hpres]
  rfl

/-- `apply_prot` keeps the frame and decides on `PTE_W`. -/
theorem entry_prot {nx w x : Bool} {e : Pte} :
    entry ((e &&& offMask) ||| pteWx nx (pteP ||| pteU) w x) = some (frameOf e) := by
  obtain ⟨hframe, hpres, -⟩ := pteWx_flags
  rw [entry_eq_some]
  constructor
  · rw [present] at hpres
    rw [present, getLsbD_or, hpres, Bool.or_true]
  · rw [frameOf_or, frameOf_and_keep e (by decide), hframe, or_zero]

/-- `mprotect` gives write access where it is asked for. -/
theorem writable_prot (nx w x : Bool) (e : Pte) :
    writable ((e &&& offMask) ||| pteWx nx (pteP ||| pteU) w x) = w := by
  obtain ⟨-, -, hw⟩ := pteWx_flags
  rw [writable] at hw
  rw [writable, getLsbD_or, hw, getLsbD_and, show offMask.getLsbD 1 = false by decide,
    Bool.and_false, Bool.false_or]

/-! ### Write and execute -/

/-- `PTE_NX` of an entry made of a frame, or of other address bits, and
flags is that of the flags. -/
theorem noExec_or (x y : Pte) : noExec (x ||| y) = (noExec x || noExec y) := getLsbD_or

theorem noExec_physOf (f : Frame) : noExec (physOf f) = false := by
  rw [noExec, physOf, BitVec.getLsbD_shiftLeft, BitVec.getLsbD_setWidth,
    BitVec.getLsbD_of_ge f (63 - 12) (by decide)]
  simp

/-- With `PTE_NX` usable, what `pte_wx` makes writable is not
executable. -/
theorem noExec_pteWx (w x : Bool) :
    noExec (pteWx true (pteP ||| pteU) w x) = !(x && !w) := by
  cases w <;> cases x <;> decide

/-- The address bits do not touch the NX bit. -/
theorem noExec_phys (f : Frame) (x : Pte) : noExec (physOf f ||| x) = noExec x := by
  rw [noExec_or, noExec_physOf, Bool.false_or]

/-- The copy has the `PTE_NX` of the entry that was read. -/
theorem noExec_cowCopy (g : Frame) (val : Pte) :
    noExec (physOf g ||| (val &&& cowKeep) ||| pteW) = noExec val := by
  rw [noExec_or, noExec_phys, noExec, getLsbD_and, show cowKeep.getLsbD 63 = true by decide,
    show noExec pteW = false by decide, Bool.and_true, Bool.or_false]
  rfl

/-- A page that is claimed back keeps its NX bit. -/
theorem noExec_cowClaim (e : Pte) : noExec ((e &&& ~~~cowFlag) ||| pteW) = noExec e := by
  rw [noExec_or, noExec, getLsbD_and, show (~~~cowFlag).getLsbD 63 = true by decide,
    show noExec pteW = false by decide, Bool.and_true, Bool.or_false]
  rfl

/-- `mprotect` makes a page executable that is to be executable and not writable. -/
theorem noExec_prot (w x : Bool) (e : Pte) :
    noExec ((e &&& offMask) ||| pteWx true (pteP ||| pteU) w x) = !(x && !w) := by
  rw [noExec_or, noExec_pteWx, noExec, getLsbD_and,
    show offMask.getLsbD 63 = false by decide, Bool.and_false, Bool.false_or]

/-- A page that moves to another frame keeps its rights. -/
theorem writable_remap (g : Frame) (e : Pte) :
    writable (physOf g ||| (e &&& 0xfff)) = writable e := by
  rw [writable, getLsbD_or, getLsbD_physOf g (by decide), Bool.false_or, getLsbD_and,
    show (0xfff : Pte).getLsbD 1 = true by decide, Bool.and_true]
  rfl

/-! ### Slots -/

/-- The page tables of all spaces as slots. -/
def slots (s : Vm) : Nat × Nat → Option Frame := fun x => entry (s.pte x.1 x.2)

/-- The number of entries that refer to a frame. -/
noncomputable def refs (s : Vm) (f : Frame) : Nat := count (slots s) f

/-- A write to a page of the second gigabyte is seen in every space. -/
theorem pte_setPte (s : Vm) (a v : Nat) (e : Pte) (b w : Nat) :
    (s.setPte a v e).pte b w =
      if (b = a ∨ sharedPage v = true) ∧ w = v then e else s.pte b w := by
  by_cases hw : w = v
  · subst hw
    cases h : sharedPage w <;> simp [Vm.pte, Vm.setPte, h]
  · simp [Vm.pte, Vm.setPte, hw]

@[simp] theorem setPte_self {s : Vm} {a v : Nat} {e : Pte} : (s.setPte a v e).pte a v = e := by
  rw [pte_setPte, if_pos ⟨.inl rfl, rfl⟩]

/-- Other entries stay, outside of the tables that all spaces share. -/
theorem setPte_of_ne {s : Vm} {b w : Nat} {e : Pte} (hv : sharedPage v = false)
    (h : (b, w) ≠ (a, v)) : (s.setPte a v e).pte b w = s.pte b w := by
  rw [pte_setPte, hv]
  exact if_neg fun hbw => h (Prod.ext (hbw.1.resolve_right Bool.false_ne_true) hbw.2)

/-- The frames that are mapped after a store to one entry. -/
theorem slots_setPte (s : Vm) (a : Nat) {v : Nat} (hv : sharedPage v = false) (e : Pte) :
    slots (s.setPte a v e) = Function.update (slots s) (a, v) (entry e) := by
  funext ⟨b, w⟩
  by_cases h : (b, w) = (a, v)
  · cases h
    rw [Function.update_self, slots, setPte_self]
  · rw [Function.update_of_ne h, slots, slots, setPte_of_ne hv h]

/-- The entries of one space's own page directories go. -/
theorem pte_clear {s t : Vm} {a : Nat} (hown : t.own = fun b w => if b = a then 0 else s.own b w)
    (hcommon : t.common = s.common) (b w : Nat) :
    t.pte b w = if b = a ∧ sharedPage w = false then 0 else s.pte b w := by
  rw [Vm.pte, Vm.pte, hown, hcommon]
  cases sharedPage w <;> simp

/-- The frame of a known entry. -/
theorem slots_of_pte (h : s.pte a v = e) : slots s (a, v) = entry e := by
  rw [slots, h]

/-- A page with a frame is present. -/
theorem slots_present {f : Frame} (h : slots s (a, v) = some f) :
    present (s.pte a v) = true ∧ frameOf (s.pte a v) = f := entry_eq_some.mp h

/-- A present page has a frame. -/
theorem slots_of_present (h : present (s.pte a v) = true) :
    slots s (a, v) = some (frameOf (s.pte a v)) := if_pos h

end CoreZ.Proofs.Mm.Cow
