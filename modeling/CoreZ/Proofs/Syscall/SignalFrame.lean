import CoreZ.Proofs.Syscall.FramePages
import CoreZ.Proofs.Syscall.Sigreturn

/-!
# `CoreZ.Proofs.Syscall.SignalFrame`: where a signal frame goes and what it holds

`FrameConfined` says what a delivery may do: terminate the task, or copy
the frame to user pages of the user address range, with bytes that do not
depend on the old content of the kernel stack.

`deliver_signal` compares the frame's address with `stack_bottom` and with
nothing else. The user chooses the stack pointer, so the frame can go to
any page that the kernel can store to. `CoreZ.Proofs.Syscall.FramePages` has
what the loop over the pages and the copy do, and when one of them ends the
task instead.

`deliver_signal64` also copies the bytes of `info` and `uc` that it has not
stored to. `si_pad2` is never stored to, so every 64-bit frame that is
written carries bytes of the kernel stack (`sigframe64_stale`).

`frameConfined_iff` gives the exact condition (`Deliverable`).
-/

set_option autoImplicit false

namespace CoreZ.Proofs.Syscall

open CoreZ.Lib (Buf puts fields puts_of_not_covers puts_eq_of_covers exists_fields_covers
  fields_not_covers)
open CoreZ.Mm.Cow (userStart userEnd)
open CoreZ.Syscall
open BitVec (ofNat toNat_add toNat_ofNat toNat_setWidth)

/-! ### The property -/

/-- Every byte of the frame goes to a user page of the user address
range. -/
def OnUserPages (d : Delivery) : Prop :=
  ∀ i < d.len, InWindow (d.addr + ofNat 64 i).toNat ∧
    d.pages.IsUserPage ((d.addr + ofNat 64 i).toNat / pageSize)

/-- The task is terminated, or the frame is written where it may be. -/
def Settled : Delivered → Prop
  | .terminated _ => True
  | .halted => False
  | .written d => OnUserPages d

structure FrameConfined (u : UserPages) (cur : SigTask) (r : ArchRegs) (sig : Signo)
    (sa : SysSigaction) : Prop where
  settled : ∀ stale, Settled (deliverSignal stale u cur r sig sa)
  determined : ∀ stale stale' d d', deliverSignal stale u cur r sig sa = .written d →
    deliverSignal stale' u cur r sig sa = .written d' → ∀ i < d.len, d.bytes i = d'.bytes i

/-! ### The condition -/

section

variable (r : ArchRegs)

/-- The address of the frame. -/
def frameAddr : BitVec 64 :=
  if r.cs = selectorUser64Code then frameSp64 r.userRsp else (frameEsp r.userRsp).setWidth 64

/-- The bound of the loop: the end of the frame, computed with 64 bits for
64-bit code and with 32 for other code. -/
def frameStop : Nat :=
  if r.cs = selectorUser64Code then ((frameAddr r).toNat + frameSize r) % 0x10000000000000000
  else ((frameAddr r).toNat + frameSize r) % 0x100000000

def firstPage : Nat := (frameAddr r).toNat / pageSize

def lastPage : Nat := ((frameAddr r).toNat + frameSize r - 1) / pageSize

/-- How many pages the loop goes through: all of them if its bound is above
the last page. -/
def walked : Nat :=
  if 0xfffff000 < frameStop r then 0x100000
  else (frameStop r + 0xfff) / pageSize - firstPage r

end

/-- The place of the frame is below `stack_bottom`, and `stack_bottom` is
set. -/
def Refused (cur : SigTask) (r : ArchRegs) : Prop :=
  belowStack cur (frameAddr r) = true
  deriving Decidable

/-- The loop meets a page that ends the task. -/
def LoopFaults (u : UserPages) (r : ArchRegs) : Prop :=
  (firstLost u.lost (firstPage r) (walked r)).map isrHandler = some .killed
  deriving Decidable

/-- The frame has an ordinary end and the loop meets no page that faults. -/
def Walkable (u : UserPages) (r : ArchRegs) : Prop :=
  frameSize r ≤ frameStop r ∧ frameStop r ≤ 0xfffff000 ∧
    firstLost u.lost (firstPage r) (walked r) = none
  deriving Decidable

/-- The copy meets a page that ends the task: the first page of the frame,
or the last one. -/
def CopyFaults (u : UserPages) (r : ArchRegs) : Prop :=
  (¬ Storable u (firstPage r) ∧ isrHandler (firstPage r) = .killed) ∨
    (Storable u (firstPage r) ∧ ¬ Storable u (lastPage r) ∧ isrHandler (lastPage r) = .killed)
  deriving Decidable

/-- The frame is one of 32-bit code, all of it lies in the user address
range, and its pages are for the user and can be stored to. -/
def Proper (u : UserPages) (r : ArchRegs) : Prop :=
  r.cs ≠ selectorUser64Code ∧ userVaddrStart ≤ (frameAddr r).toNat ∧
    (frameAddr r).toNat + frameSize r ≤ userSpaceEnd ∧
    (Storable u (firstPage r) ∧ ForUser u (firstPage r)) ∧
    Storable u (lastPage r) ∧ ForUser u (lastPage r)
  deriving Decidable

/-- The frame is refused, or a fault ends the task, or the frame is a proper
one. -/
def Deliverable (u : UserPages) (cur : SigTask) (r : ArchRegs) : Prop :=
  Refused cur r ∨ LoopFaults u r ∨ (Walkable u r ∧ (CopyFaults u r ∨ Proper u r))
  deriving Decidable

/-! ### Places -/

/-- Clearing the low bits. -/
theorem toNat_and_high {m : Nat} (e : BitVec m) (k : Nat) :
    (e &&& (BitVec.allOnes m <<< k)).toNat = e.toNat / 2 ^ k * 2 ^ k := by
  rw [← BitVec.shiftLeft_ushiftRight, BitVec.toNat_shiftLeft, BitVec.toNat_ushiftRight,
    Nat.shiftRight_eq_div_pow, Nat.shiftLeft_eq]
  exact Nat.mod_eq_of_lt (Nat.lt_of_le_of_lt (Nat.div_mul_le_self _ _) e.isLt)

/-- The page that the loop starts with, and its bound. -/
def frameBase (r : ArchRegs) : BitVec 32 :=
  if r.cs = selectorUser64Code then (frameSp64 r.userRsp &&& ~~~0xfff#64).setWidth 32
  else frameEsp r.userRsp &&& ~~~0xfff#32

def frameBound (r : ArchRegs) : BitVec 64 :=
  if r.cs = selectorUser64Code then frameSp64 r.userRsp + ofNat 64 sigframe64Size
  else (frameEsp r.userRsp + ofNat 32 sigframeSize).setWidth 64

variable {u w : UserPages} {r : ArchRegs} {cur : SigTask}

theorem frameSize_bounds (r : ArchRegs) : 0 < frameSize r ∧ frameSize r ≤ 552 := by
  unfold frameSize sigframe64Size sigframeSize
  split <;> omega

theorem toNat_frameBase (r : ArchRegs) :
    (frameBase r).toNat = (frameAddr r).toNat / pageSize % 0x100000 * pageSize := by
  unfold frameBase frameAddr pageSize
  split
  · rw [show ~~~0xfff#64 = BitVec.allOnes 64 <<< 12 by decide, toNat_setWidth, toNat_and_high]
    omega
  · rw [show ~~~0xfff#32 = BitVec.allOnes 32 <<< 12 by decide, toNat_and_high, toNat_setWidth]
    omega

theorem toNat_frameBound (r : ArchRegs) : (frameBound r).toNat = frameStop r := by
  unfold frameBound frameStop frameAddr frameSize sigframe64Size sigframeSize
  split
  · rw [toNat_add, toNat_ofNat]
  · rw [toNat_setWidth, toNat_add, toNat_ofNat, toNat_setWidth]
    omega

/-- A frame that goes around the end of the space of its addresses. -/
theorem frameAddr_of_wrap (h : frameStop r < frameSize r) :
    (r.cs = selectorUser64Code ∧ 0x10000000000000000 - 552 ≤ (frameAddr r).toNat) ∨
      (0x100000000 - 60 ≤ (frameAddr r).toNat ∧ (frameAddr r).toNat < 0x100000000 ∧
        frameSize r = 60) := by
  unfold frameStop at h
  have hlt := (frameAddr r).isLt
  by_cases hcs : r.cs = selectorUser64Code
  · have hsize : frameSize r = 552 := if_pos hcs
    rw [if_pos hcs, hsize] at h
    exact .inl ⟨hcs, by omega⟩
  · have hsize : frameSize r = 60 := if_neg hcs
    have haddr : (frameAddr r).toNat < 0x100000000 := by
      unfold frameAddr
      rw [if_neg hcs, toNat_setWidth]
      omega
    rw [if_neg hcs, hsize] at h
    exact .inr ⟨by omega, haddr, hsize⟩

/-- The end of any other frame. -/
theorem frameStop_of_le (h : frameSize r ≤ frameStop r) :
    frameStop r = (frameAddr r).toNat + frameSize r := by
  have hsize := frameSize_bounds r
  unfold frameStop at *
  have hlt := (frameAddr r).isLt
  split at h
  next hcs =>
    rw [if_pos hcs]
    omega
  next hcs =>
    have haddr : (frameAddr r).toNat < 0x100000000 := by
      unfold frameAddr
      rw [if_neg hcs, toNat_setWidth]
      omega
    rw [if_neg hcs]
    omega

/-! ### Deliveries -/

/-- The loop and the copy of a delivery. -/
def framePush (u : UserPages) (r : ArchRegs) : Except Fault UserPages :=
  pushFrame u (frameBase r) (frameBound r) (frameAddr r) (frameSize r)

/-- The stores to the frame. -/
def framePuts (cur : SigTask) (r : ArchRegs) (sig : Signo) (sa : SysSigaction) :
    List CoreZ.Lib.Put :=
  if r.cs = selectorUser64Code then sigframe64 cur r sig sa else sigframe cur r sig sa

theorem deliverSignal_of_refused (h : Refused cur r) (stale : Buf) (u : UserPages) (sig : Signo)
    (sa : SysSigaction) : deliverSignal stale u cur r sig sa = .terminated (128 + sig) := by
  unfold Refused frameAddr at h
  unfold deliverSignal
  split
  next hcs =>
    rw [if_pos hcs] at h
    exact if_pos h
  next hcs =>
    rw [if_neg hcs] at h
    exact if_pos h

/-- What a delivery that is not refused does, for both kinds of code. -/
theorem deliverSignal_cases (hrefused : ¬ Refused cur r) (u : UserPages) (sig : Signo)
    (sa : SysSigaction) :
    (∃ f, framePush u r = .error f ∧
      ∀ stale, deliverSignal stale u cur r sig sa = f.delivered) ∨
    ∃ w, framePush u r = .ok w ∧
      ∀ stale, ∃ d, deliverSignal stale u cur r sig sa = .written d ∧
        d.addr = frameAddr r ∧ d.len = frameSize r ∧ d.pages = w ∧
        d.bytes = puts stale (framePuts cur r sig sa) := by
  unfold Refused at hrefused
  unfold framePush frameBase frameBound framePuts
  unfold frameAddr frameSize at *
  unfold deliverSignal deliverSignal64
  by_cases hcs : r.cs = selectorUser64Code
  · simp only [hcs, if_true] at hrefused ⊢
    simp only [if_neg hrefused]
    cases pushFrame u ((frameSp64 r.userRsp &&& ~~~0xfff#64).setWidth 32)
        (frameSp64 r.userRsp + ofNat 64 sigframe64Size) (frameSp64 r.userRsp) sigframe64Size with
    | error f => exact .inl ⟨f, rfl, fun _ => rfl⟩
    | ok w => exact .inr ⟨w, rfl, fun _ => ⟨_, rfl, rfl, rfl, rfl, rfl⟩⟩
  · simp only [hcs, if_false] at hrefused ⊢
    simp only [if_neg hrefused]
    cases pushFrame u (frameEsp r.userRsp &&& ~~~0xfff#32)
        ((frameEsp r.userRsp + ofNat 32 sigframeSize).setWidth 64)
        ((frameEsp r.userRsp).setWidth 64) sigframeSize with
    | error f => exact .inl ⟨f, rfl, fun _ => rfl⟩
    | ok w => exact .inr ⟨w, rfl, fun _ => ⟨_, rfl, rfl, rfl, rfl, rfl⟩⟩

/-! ### Bytes -/

/-- `si_pad2[0]`, 24 bytes into `info`, is never stored to. -/
theorem sigframe64_stale (cur : SigTask) (r : ArchRegs) (sig : Signo) (sa : SysSigaction)
    (stale : Buf) : puts stale (sigframe64 cur r sig sa) (infoOff + 24) = stale (infoOff + 24) := by
  refine puts_of_not_covers fun p hp => ?_
  obtain hp | hp := List.mem_append.mp hp
  · exact fields_not_covers (by simp [infoOff]) p hp
  · split at hp
    · -- SA_SIGINFO: the first fields of info lie before the byte, uc behind it
      unfold siginfo64 ucontext64 at hp
      simp only [List.mem_append] at hp
      obtain (hp | hp) | hp := hp
      · exact fields_not_covers (by simp [infoOff]) p hp
      · exact fields_not_covers (by simp [infoOff]) p hp
      · exact fields_not_covers (by simp [infoOff, ucOff]) p hp
    · exact absurd hp List.not_mem_nil

/-- The bytes of a frame do not depend on the kernel stack exactly when it is
one of 32-bit code. -/
theorem framePuts_determined_iff (cur : SigTask) (sig : Signo) (sa : SysSigaction) :
    (∀ stale stale' : Buf, ∀ i < frameSize r,
      puts stale (framePuts cur r sig sa) i = puts stale' (framePuts cur r sig sa) i) ↔
      r.cs ≠ selectorUser64Code := by
  unfold framePuts frameSize
  by_cases hcs : r.cs = selectorUser64Code
  · rw [if_pos hcs, if_pos hcs]
    refine ⟨fun h => ?_, fun h => absurd hcs h⟩
    have hbyte := h (fun _ => 0) (fun _ => 1) (infoOff + 24) (by decide)
    rw [sigframe64_stale, sigframe64_stale] at hbyte
    exact absurd hbyte (by decide)
  · rw [if_neg hcs, if_neg hcs]
    refine ⟨fun _ => hcs, fun _ stale stale' i hi => ?_⟩
    -- every byte belongs to a field that is stored to
    exact puts_eq_of_covers
      (exists_fields_covers (Nat.zero_le i) (by simpa [sigframeSize] using hi)) _ _

/-- Every byte of the frame is on a user page of the user address range. -/
def Inside (w : UserPages) (r : ArchRegs) : Prop :=
  ∀ i < frameSize r, InWindow (frameAddr r + ofNat 64 i).toNat ∧
    w.IsUserPage ((frameAddr r + ofNat 64 i).toNat / pageSize)

/-- The property, from how the loop and the copy end. -/
theorem frameConfined_iff_push (hrefused : ¬ Refused cur r) (u : UserPages) (sig : Signo)
    (sa : SysSigaction) :
    FrameConfined u cur r sig sa ↔ framePush u r = .error .killed ∨
      (r.cs ≠ selectorUser64Code ∧ ∃ w, framePush u r = .ok w ∧ Inside w r) := by
  obtain ⟨f, hpush, hdeliver⟩ | ⟨w, hpush, hdeliver⟩ := deliverSignal_cases hrefused u sig sa
  · rw [hpush]
    constructor
    · intro h
      have hsettled := h.settled fun _ => 0
      rw [hdeliver] at hsettled
      cases f with
      | killed => exact .inl rfl
      | halted => exact hsettled.elim
    · rintro (h | ⟨-, w, h, -⟩)
      · cases h
        refine ⟨fun stale => ?_, fun stale _ d _ hd => ?_⟩
        · rw [hdeliver]
          trivial
        · rw [hdeliver] at hd
          cases hd
      · cases h
  · rw [hpush]
    -- the frame is copied: its bytes are the stores over what was there
    have hbytes : ∀ stale d, deliverSignal stale u cur r sig sa = .written d →
        d.len = frameSize r ∧ d.bytes = puts stale (framePuts cur r sig sa) := by
      intro stale d hd
      obtain ⟨c, hc, -, hlen, -, hbytes⟩ := hdeliver stale
      cases hc.symm.trans hd
      exact ⟨hlen, hbytes⟩
    constructor
    · intro h
      refine .inr ⟨(framePuts_determined_iff cur sig sa).mp fun stale stale' i hi => ?_, w, rfl, ?_⟩
      · obtain ⟨d, hd, -, hlen, -, hb⟩ := hdeliver stale
        obtain ⟨d', hd', -, -, -, hb'⟩ := hdeliver stale'
        rw [← hb, ← hb']
        exact h.determined stale stale' d d' hd hd' i (hlen ▸ hi)
      · obtain ⟨d, hd, haddr, hlen, hpages, -⟩ := hdeliver fun _ => 0
        have hsettled := h.settled fun _ => 0
        rw [hd] at hsettled
        intro i hi
        have hi' := hsettled i (hlen ▸ hi)
        rwa [haddr, hpages] at hi'
    · rintro (h | ⟨hcs, w', hw, hinside⟩)
      · cases h
      cases hw
      constructor
      · intro stale
        obtain ⟨d, hd, haddr, hlen, hpages, -⟩ := hdeliver stale
        rw [hd]
        intro i hi
        rw [haddr, hpages]
        exact hinside i (hlen ▸ hi)
      · intro stale stale' d d' hd hd' i hi
        obtain ⟨hlen, hb⟩ := hbytes stale d hd
        rw [hb, (hbytes stale' d' hd').2]
        exact (framePuts_determined_iff cur sig sa).mpr hcs stale stale' i (hlen ▸ hi)

/-! ### The exact condition -/

/-- Where a frame with an ordinary end lies, from its first and last page. -/
theorem inside_iff (hstop : frameSize r ≤ frameStop r) (hend : frameStop r ≤ 0xfffff000) :
    Inside w r ↔ userVaddrStart ≤ (frameAddr r).toNat ∧
      (frameAddr r).toNat + frameSize r ≤ userSpaceEnd ∧
      w.IsUserPage (firstPage r) ∧ w.IsUserPage (lastPage r) := by
  have hsize := frameSize_bounds r
  have hsum := frameStop_of_le hstop
  have hbyte : ∀ i < frameSize r, (frameAddr r + ofNat 64 i).toNat = (frameAddr r).toNat + i := by
    intro i hi
    rw [toNat_add, toNat_ofNat]
    omega
  constructor
  · intro h
    have hfirst := h 0 (by omega)
    have hlast := h (frameSize r - 1) (by omega)
    rw [hbyte _ (by omega)] at hfirst hlast
    obtain ⟨⟨hlo, -⟩, hfirst⟩ := hfirst
    obtain ⟨⟨-, hhi⟩, hlast⟩ := hlast
    refine ⟨hlo, by omega, hfirst, ?_⟩
    rwa [← Nat.add_sub_assoc hsize.1] at hlast
  · rintro ⟨hlo, hhi, hfirst, hlast⟩ i hi
    rw [hbyte i hi]
    refine ⟨⟨by omega, by omega⟩, ?_⟩
    -- the frame is shorter than a page, so the byte is on the first or on the last one
    have hcase : ((frameAddr r).toNat + i) / pageSize = firstPage r ∨
        ((frameAddr r).toNat + i) / pageSize = lastPage r := by
      unfold firstPage lastPage pageSize
      omega
    obtain h | h := hcase
    · rw [h]
      exact hfirst
    · rw [h]
      exact hlast

/-- A frame that goes around the end is never confined: its first page is
the last one of the space. -/
theorem not_pushed_of_wrap (h : frameStop r < frameSize r) :
    framePush u r ≠ .error .killed ∧ ¬ InWindow (frameAddr r).toNat := by
  have hsize := frameSize_bounds r
  have hplace := frameAddr_of_wrap h
  have hlt := (frameAddr r).isLt
  refine ⟨fun hpush => ?_, fun hin => ?_⟩
  · have hend : (frameBound r).toNat ≤ firstPage r % 0x100000 * pageSize := by
      rw [toNat_frameBound]
      unfold firstPage pageSize
      omega
    unfold framePush pushFrame at hpush
    rw [ensurePages_eq _ 0 (firstPage r) allRounds u (frameBase r) (by decide) (toNat_frameBase r)
      (fun k hk => absurd hk (Nat.not_lt_zero k)) fun _ => hend] at hpush
    -- both pages of the copy are outside user space
    have hfirst : isrHandler ((frameAddr r).toNat / pageSize) = .halted := by
      refine if_neg ?_
      unfold userStart userEnd pageSize
      omega
    have hlast : isrHandler ((frameAddr r + ofNat 64 (frameSize r - 1)).toNat / pageSize) =
        .halted := by
      refine if_neg ?_
      rw [toNat_add, toNat_ofNat]
      unfold userStart userEnd pageSize
      omega
    change copyFrame u (frameAddr r) (frameSize r) = _ at hpush
    obtain ⟨-, hc⟩ | ⟨-, -, hc⟩ | ⟨-, -, w, hc, -⟩ := copyFrame_cases rfl rfl u
    · rw [hc, hfirst] at hpush
      cases hpush
    · rw [hc, hlast] at hpush
      cases hpush
    · rw [hc] at hpush
      cases hpush
  · unfold InWindow userVaddrStart userSpaceEnd at hin
    omega

/-- A page at which the loop faults decides. -/
theorem iff_of_faults {t : Nat} (hpush : framePush u r = .error (isrHandler t))
    (hlost : firstLost u.lost (firstPage r) (walked r) = some t) (hwalk : ¬ Walkable u r) :
    (framePush u r = .error .killed ∨
      (r.cs ≠ selectorUser64Code ∧ ∃ w, framePush u r = .ok w ∧ Inside w r)) ↔
      LoopFaults u r ∨ (Walkable u r ∧ (CopyFaults u r ∨ Proper u r)) := by
  rw [LoopFaults, hlost, hpush]
  constructor
  · rintro (h | ⟨-, w, h, -⟩)
    · exact .inl (congrArg some (Except.error.inj h))
    · cases h
  · rintro (h | ⟨h, -⟩)
    · exact .inl (congrArg Except.error (Option.some.inj h))
    · exact absurd h hwalk

/-- After a loop without a fault, the first and the last page of the frame
decide. -/
theorem iff_of_copy (hle : frameSize r ≤ frameStop r) (hend : frameStop r ≤ 0xfffff000)
    (hcopy : (¬ Storable u (firstPage r) ∧ framePush u r = .error (isrHandler (firstPage r))) ∨
      (Storable u (firstPage r) ∧ ¬ Storable u (lastPage r) ∧
        framePush u r = .error (isrHandler (lastPage r))) ∨
      (Storable u (firstPage r) ∧ Storable u (lastPage r) ∧
        ∃ w, framePush u r = .ok w ∧ (w.IsUserPage (firstPage r) ↔ ForUser u (firstPage r)) ∧
          (w.IsUserPage (lastPage r) ↔ ForUser u (lastPage r)))) :
    (framePush u r = .error .killed ∨
      (r.cs ≠ selectorUser64Code ∧ ∃ w, framePush u r = .ok w ∧ Inside w r)) ↔
      CopyFaults u r ∨ Proper u r := by
  unfold CopyFaults Proper
  obtain ⟨hf, hpush⟩ | ⟨hf, hl, hpush⟩ | ⟨hf, hl, w, hpush, hfirst, hlast⟩ := hcopy
  · simp [hpush, hf]
  · simp [hpush, hf, hl]
  · have hins := inside_iff (w := w) hle hend
    rw [hfirst, hlast] at hins
    simp [hpush, hf, hl, hins]

/-- For every page table, task, register state, signal and action: whatever
the kernel stack holds, the delivery terminates the task or writes a frame
that depends on none of it to user pages of the user address range, exactly
when the frame is deliverable. -/
theorem frameConfined_iff (u : UserPages) (cur : SigTask) (r : ArchRegs) (sig : Signo)
    (sa : SysSigaction) : FrameConfined u cur r sig sa ↔ Deliverable u cur r := by
  unfold Deliverable
  by_cases hrefused : Refused cur r
  · refine ⟨fun _ => .inl hrefused, fun _ => ⟨fun stale => ?_, fun stale _ d _ hd => ?_⟩⟩
    · rw [deliverSignal_of_refused hrefused]
      trivial
    · rw [deliverSignal_of_refused hrefused] at hd
      cases hd
  rw [frameConfined_iff_push hrefused, or_iff_right hrefused]
  have hsize := frameSize_bounds r
  by_cases hendless : 0xfffff000 < frameStop r
  · -- the loop ends at a page that faults
    have hwalk : ¬ Walkable u r := fun h => Nat.not_lt.mpr h.2.1 hendless
    obtain ⟨t, ht, hpush⟩ := pushFrame_endless (toNat_frameBase r) u (frameSize r)
      (by rwa [toNat_frameBound])
    exact iff_of_faults hpush (by rw [walked, if_pos hendless]; exact ht) hwalk
  by_cases hwrap : frameStop r < frameSize r
  · -- the stack pointer wraps below 0: the frame starts outside of user space
    obtain ⟨hkilled, hout⟩ := not_pushed_of_wrap (u := u) hwrap
    refine iff_of_false ?_ ?_
    · rintro (h | ⟨-, w, -, hinside⟩)
      · exact hkilled h
      · have hzero := (hinside 0 hsize.1).1
        exact hout (by simpa using hzero)
    · rintro (h | ⟨h, -⟩)
      · have hnone : walked r = 0 := by
          have hplace := frameAddr_of_wrap hwrap
          rw [walked, if_neg hendless]
          unfold firstPage pageSize
          omega
        rw [LoopFaults, hnone] at h
        cases h
      · exact Nat.not_lt.mpr h.1 hwrap
  have hle : frameSize r ≤ frameStop r := Nat.not_lt.mp hwrap
  have hend : frameStop r ≤ 0xfffff000 := Nat.not_lt.mp hendless
  have hstop : (frameBound r).toNat = (frameAddr r).toNat + frameSize r :=
    (toNat_frameBound r).trans (frameStop_of_le hle)
  have hbound : (frameBound r).toNat ≤ 0xfffff000 := by rwa [toNat_frameBound]
  have hpage : frameSize r < pageSize := Nat.lt_of_le_of_lt hsize.2 (by decide)
  have hwalked : ((frameBound r).toNat + 0xfff) / pageSize - firstPage r = walked r := by
    rw [walked, if_neg hendless, toNat_frameBound]
  -- the loop stops at the first page that is behind a lost table
  cases hlost : firstLost u.lost (firstPage r) (walked r) with
  | some t =>
    have hloop := ensurePages_short (toNat_frameBase r) hsize.1 hpage hstop hbound u
    have hpush : framePush u r = .error (isrHandler t) := by
      unfold framePush pushFrame
      rw [hloop, show (frameAddr r).toNat / pageSize = firstPage r from rfl, hwalked, hlost]
      rfl
    exact iff_of_faults hpush hlost fun h => by
      rw [h.2.2] at hlost
      cases hlost
  | none =>
    have hloop : ¬ LoopFaults u r := by
      rw [LoopFaults, hlost]
      exact fun h => by cases h
    have hwalk : Walkable u r := ⟨hle, hend, hlost⟩
    rw [or_iff_right hloop, and_iff_right hwalk]
    have hcopy := pushFrame_short (toNat_frameBase r) hsize.1 hpage hstop hbound u
      (by rw [show (frameAddr r).toNat / pageSize = firstPage r from rfl, hwalked, hlost])
    exact iff_of_copy hle hend hcopy

/-- A thread of 64-bit code on an ordinary stack, a signal with a handler
and no flags. -/
theorem not_frameConfined_stale :
    ¬ FrameConfined mappedPages ⟨0, 0, 0⟩ returningRegs 10 ⟨0x8048000, 0, 0, 0x8048100⟩ := by
  have hpush : (framePush mappedPages returningRegs).isOk = true := by
    decide +kernel
  rw [frameConfined_iff_push (by decide)]
  rintro (h | ⟨h, -⟩)
  · rw [h] at hpush
    cases hpush
  · exact h rfl

/-- The kernel's heap starts at `0x40400000`, inside the user address range.
A thread without a `stack_bottom` that puts its stack pointer there has the
frame written over the heap. -/
example : ¬ FrameConfined { mappedPages with pte := fun _ => 3 } ⟨0, 0, 0⟩
    { zeroRegs with cs := selectorUCode, userRsp := 0x40400100 } 10
    ⟨0x8048000, 0, 0, 0x8048100⟩ := by
  rw [frameConfined_iff_push (by decide), iff_of_copy (by decide) (by decide)]
  · decide
  · exact .inr (.inr ⟨by decide, by decide, _, rfl, by decide, by decide⟩)

end CoreZ.Proofs.Syscall
