import CoreZ.Lib.Run
import CoreZ.Syscall.SignalRun
import CoreZ.Proofs.Syscall.SignalFrame

/-!
# `CoreZ.Proofs.Syscall.SignalRoundTrip`: a handler that returns leaves no trace

`RoundTrip` says that `sys_sigreturn` gives back the registers and the mask that were
there at the delivery. The run may have pushed and popped other frames in between. What
carries the proof is that the active frames lie below one another on the stack, so that a
delivery does not write over one (`frameSp64_le`), and that each of them holds the words
of its registers (`Holds`).

`sys_sigreturn` refuses flags that user code can have: NT (bit 14) can be set with `popf`,
and `sigframe_valid` takes it for an attack. `deliver_signal64` has saved it all the same,
so the handler's return terminates the task (`not_roundTrip_nt`). `sigreturn_restores_iff`
gives the exact condition.
-/

set_option autoImplicit false

namespace CoreZ.Proofs.Syscall

open CoreZ.Lib
open CoreZ.Syscall
open List

/-! ### The property -/

/-- `sys_sigreturn` brings back the registers of the delivery, without the trap flag, and
its mask. -/
def RoundTrip (m : Machine) (f : SavedFrame) : Prop :=
  ∃ task value, sysSigreturn m.pages m.task m.regs (fun _ => m.mem) =
      .resumed task { f.regs with rflags := withoutTf f.regs.rflags } value ∧
    value = f.regs.rax ∧ task.signalMask = f.mask

/-- Flags that `sigframe_valid` accepts, and a mask without SIGKILL and SIGSTOP. -/
def Restorable (f : SavedFrame) : Prop :=
  (f.regs.rflags >>> 32 = 0 ∧ f.regs.rflags &&& 0x1AF028 = 0 ∧ f.regs.rflags &&& 0x202 = 0x202) ∧
    f.mask &&& maskable = f.mask
  deriving Decidable

/-! ### Frames on the stack -/

/-- The words from `rip` on. -/
def savedWords (f : SavedFrame) : List Nat :=
  [f.regs.rip.toNat, f.regs.cs.toNat, (withoutTf f.regs.rflags).toNat, f.regs.userRsp.toNat,
    f.regs.ss.toNat, f.regs.rax.toNat, f.regs.rbx.toNat, f.regs.rcx.toNat, f.regs.rdx.toNat,
    f.regs.rsi.toNat, f.regs.rdi.toNat, f.regs.rbp.toNat, f.regs.r8.toNat, f.regs.r9.toNat,
    f.regs.r10.toNat, f.regs.r11.toNat, f.regs.r12.toNat, f.regs.r13.toNat, f.regs.r14.toNat,
    f.regs.r15.toNat, f.mask.toNat]

/-- Memory holds the words of the frame. -/
def Holds (mem : Buf) (f : SavedFrame) : Prop :=
  ∀ k (hk : k < (savedWords f).length),
    leNat mem 8 (f.addr.toNat + 8 * (k + 2)) = (savedWords f)[k]

/-- The frames that wait for their handlers: each in the user address range, readable and
with its words, the inner ones below the outer ones. -/
structure Frames (m : Machine) : Prop where
  user : ∀ f ∈ m.active, UserState64 f.regs
  readable : ∀ f ∈ m.active, m.pages.Readable f.addr
  holds : ∀ f ∈ m.active, Holds m.mem f
  below : m.active.Pairwise fun f g => f.addr.toNat + sigframe64Size ≤ g.addr.toNat

variable {v : Nat} {u : UserPages}

theorem toNat_lt_of_savedWords (f : SavedFrame) (hv : v ∈ savedWords f) : v < 256 ^ 8 := by
  have hmask : f.mask.toNat < 256 ^ 8 := Nat.lt_trans f.mask.isLt (by decide)
  have hword : ∀ x : BitVec 64, x.toNat < 256 ^ 8 := fun x => x.isLt
  simp only [savedWords, mem_cons, not_mem_nil, or_false] at hv
  rcases hv with h | h | h | h | h | h | h | h | h | h | h | h | h | h | h | h | h | h | h | h | h
  all_goals rw [h]
  all_goals first | exact hword _ | exact hmask

/-- The frame that `deliver_signal64` builds holds the registers. -/
theorem holds_sigframe64 {stale mem : Buf} {cur : SigTask} {r : ArchRegs} {sig : Signo}
    {sa : SysSigaction} {addr : BitVec 64} :
    Holds (blit mem addr.toNat sigframe64Size (puts stale (sigframe64 cur r sig sa)))
      ⟨addr, r, cur.signalMask⟩ := by
  intro k hk
  have hk' : k < 21 := hk
  -- the stores to `info` and `uc` are above the words
  have hwords : leNat (puts stale (sigframe64 cur r sig sa)) 8 (8 * (k + 2)) =
      leNat (puts stale (sigframe64Regs cur r sig sa)) 8 (0 + 8 * (k + 2)) := by
    refine leNat_congr fun j hj => ?_
    rw [zero_add]
    show puts stale (sigframe64Regs cur r sig sa ++ _) _ = _
    rw [puts_append]
    refine puts_of_not_covers ?_
    split
    · intro p hp
      rcases mem_append.mp hp with hp | hp
      · rcases mem_append.mp hp with hp | hp
        · exact fields_not_covers (.inl (by unfold infoOff; omega)) p hp
        · exact fields_not_covers (.inl (by unfold infoOff; omega)) p hp
      · exact fields_not_covers (.inl (by unfold ucOff; omega)) p hp
    · intro p hp
      cases hp
  have hcopy : leNat (blit mem addr.toNat sigframe64Size (puts stale (sigframe64 cur r sig sa))) 8
      (addr.toNat + 8 * (k + 2)) = leNat (puts stale (sigframe64 cur r sig sa)) 8
        (8 * (k + 2)) := by
    refine leNat_congr fun j hj => ?_
    rw [add_assoc]
    exact blit_add (by unfold sigframe64Size; omega)
  rw [hcopy, hwords]
  unfold sigframe64Regs
  rw [leNat_puts_fields _ _ _ (k + 2) (by simp only [length_cons, length_nil]; omega)]
  have hsame : (savedWords ⟨addr, r, cur.signalMask⟩)[k] ∈ savedWords ⟨addr, r, cur.signalMask⟩ :=
    getElem_mem hk
  exact Nat.mod_eq_of_lt (toNat_lt_of_savedWords _ hsame)

/-- The frame is below the red zone of the stack that it is pushed on. -/
theorem frameSp64_le {rsp : BitVec 64} (h : userVaddrStart ≤ rsp.toNat) :
    (frameSp64 rsp).toNat + sigframe64Size + 136 ≤ rsp.toNat := by
  unfold userVaddrStart at h
  have hroom : (rsp - 128 - BitVec.ofNat 64 sigframe64Size).toNat = rsp.toNat - 680 := by
    have h128 : (128 : BitVec 64).toNat = 128 := by decide
    simp only [BitVec.toNat_sub, BitVec.toNat_ofNat, sigframe64Size, h128]
    omega
  have hround := toNat_and_high (rsp - 128 - BitVec.ofNat 64 sigframe64Size) 4
  rw [hroom, show BitVec.allOnes 64 <<< 4 = ~~~0xf#64 by decide] at hround
  unfold frameSp64
  rw [BitVec.toNat_sub_of_le, hround]
  · show (rsp.toNat - 680) / 16 * 16 - 8 + 552 + 136 ≤ _
    omega
  · rw [BitVec.le_def, hround]
    show 8 ≤ _
    omega

/-! ### What keeps the frames -/

/-- A page that is made takes no page away. -/
theorem made_keeps (h : u.IsUserPage v) (x : Nat) : (made u x).IsUserPage v := by
  obtain ⟨hmade, -⟩ | ⟨habsent, -, f, hmade⟩ := made_cases u x
  · rwa [hmade]
  · -- the new page was absent, so it is another one
    have hv : v ≠ x := by
      rintro rfl
      rw [h.2.1] at habsent
      cases habsent
    unfold UserPages.IsUserPage
    rw [(made_sameRest u x).large, (made_other u hv).1]
    exact h

variable {u' : UserPages} {addr : BitVec 64} {f : SavedFrame} {stale : Buf} {r : ArchRegs}
  {sig : Signo} {sa : SysSigaction}

/-- By induction on the rounds of the loop. -/
theorem ensurePages_keeps {stop : BitVec 64} (rounds : Nat) {fp : BitVec 32} (h : u.IsUserPage v)
    (hrun : ensurePages rounds u fp stop = .ok u') : u'.IsUserPage v := by
  induction rounds generalizing u fp with
  | zero => cases hrun
  | succ rounds ih =>
    unfold ensurePages at hrun
    split at hrun
    · cases hlost : u.lost (fp.toNat / pageSize) with
      | some t =>
        rw [ensureUserPage_of_lost rfl hlost] at hrun
        cases hrun
      | none =>
        obtain ⟨b, hmade⟩ := ensureUserPage_of_none rfl hlost
        rw [hmade] at hrun
        exact ih (made_keeps h _) hrun
    · cases hrun
      exact h

/-- The loop and the copy leave the user pages. -/
theorem pushFrame_keeps {base : BitVec 32} {stop : BitVec 64} {len : Nat} (h : u.IsUserPage v)
    (hrun : pushFrame u base stop addr len = .ok u') : u'.IsUserPage v := by
  unfold pushFrame at hrun
  cases hloop : ensurePages allRounds u base stop with
  | error f =>
    rw [hloop] at hrun
    cases hrun
  | ok w =>
    rw [hloop] at hrun
    change copyFrame w addr len = .ok u' at hrun
    obtain ⟨-, hc⟩ | ⟨-, -, hc⟩ | ⟨-, -, w', hc, huser⟩ := copyFrame_cases rfl rfl w
    · rw [hc] at hrun
      cases hrun
    · rw [hc] at hrun
      cases hrun
    · cases hc.symm.trans hrun
      exact (huser v).mpr (ensurePages_keeps _ h hloop)

/-- More user pages make no frame unreadable. -/
theorem Readable.mono (h : u.Readable addr) (hpages : ∀ v, u.IsUserPage v → u'.IsUserPage v) :
    u'.Readable addr := by
  unfold UserPages.Readable userRangeReadable at *
  split
  · rename_i hout
    rw [if_pos hout] at h
    exact h
  rename_i hout
  rw [if_neg hout] at h
  simp only [all_eq_true, decide_eq_true_eq] at h ⊢
  exact fun k hk => hpages _ (h k hk)

/-- A readable frame lies in user space. -/
theorem Readable.window (h : u.Readable addr) :
    userVaddrStart ≤ addr.toNat ∧ addr.toNat + sigframe64Size ≤ userSpaceEnd := by
  unfold UserPages.Readable userRangeReadable at h
  split at h
  · cases h
  · rename_i hout
    omega

/-- A frame depends on its own bytes. -/
theorem Holds.congr {mem mem' : Buf} (h : Holds mem f)
    (hsame : ∀ i < sigframe64Size, mem' (f.addr.toNat + i) = mem (f.addr.toNat + i)) :
    Holds mem' f := by
  intro k hk
  have hk' : k < 21 := hk
  rw [← h k hk]
  refine leNat_congr fun j hj => ?_
  have hbyte := hsame (8 * (k + 2) + j) (by unfold sigframe64Size; omega)
  rw [add_assoc, hbyte]

/-- What a successful delivery does. -/
theorem deliverSignal64_cases {cur : SigTask} {d : Delivery}
    (h : deliverSignal64 stale u cur r sig sa = .written d) :
    d.addr = frameSp64 r.userRsp ∧ d.len = sigframe64Size ∧
      d.bytes = puts stale (sigframe64 cur r sig sa) ∧
      ∀ v, u.IsUserPage v → d.pages.IsUserPage v := by
  unfold deliverSignal64 at h
  simp only at h
  split at h
  · cases h
  split at h
  · rename_i f hrun
    cases f <;> cases h
  · rename_i u' hrun
    cases h
    exact ⟨rfl, rfl, rfl, fun v hv => pushFrame_keeps hv hrun⟩

section Step

variable {m m' : Machine}

/-- The handler runs, and spares the frames. -/
theorem Frames.user_step {regs : ArchRegs} {mask : BitVec 32} {pages : UserPages}
    {stores : List Put} (h : Frames m)
    (hstep : m.step (.user regs mask pages stores) = some m') : Frames m' := by
  simp only [Machine.step, Option.ite_none_right_eq_some, Option.some.injEq] at hstep
  obtain ⟨hok, rfl⟩ := hstep
  refine ⟨h.user, fun f hf => (hok f hf).1, fun f hf => ?_, h.below⟩
  refine (h.holds f hf).congr fun i hi => ?_
  refine puts_of_not_covers fun p hp hcovers => ?_
  have hspares := (hok f hf).2 p hp
  unfold Spares at hspares
  unfold Put.Covers at hcovers
  omega

/-- A new frame is put below the others. -/
theorem Frames.deliver_step (h : Frames m) (hstep : m.step (.deliver stale sig sa) = some m') :
    Frames m' := by
  simp only [Machine.step, Option.ite_none_right_eq_some] at hstep
  obtain ⟨⟨huser, hstack⟩, hstep⟩ := hstep
  split at hstep
  · rename_i d hd
    simp only [Option.ite_none_right_eq_some, Option.some.injEq] at hstep
    obtain ⟨hreadable, rfl⟩ := hstep
    obtain ⟨haddr, hlen, hbytes, hpages⟩ := deliverSignal64_cases hd
    have hsp := frameSp64_le huser.rsp.1
    rw [← haddr] at hsp
    -- the new frame is below every active one
    have hbelow : ∀ f ∈ m.active, d.addr.toNat + sigframe64Size ≤ f.addr.toNat := by
      have hpairs := h.below
      cases hactive : m.active with
      | nil =>
        intro f hf
        cases hf
      | cons g rest =>
        have hg := hstack g (by rw [hactive]; rfl)
        rw [hactive] at hpairs
        refine forall_mem_cons.mpr ⟨by omega, fun f hf => ?_⟩
        have hgf := (pairwise_cons.mp hpairs).1 f hf
        omega
    refine ⟨forall_mem_cons.mpr ⟨huser, h.user⟩, forall_mem_cons.mpr ⟨hreadable, ?_⟩,
      forall_mem_cons.mpr ⟨?_, ?_⟩, pairwise_cons.mpr ⟨hbelow, h.below⟩⟩
    · exact fun f hf => Readable.mono (h.readable f hf) hpages
    · rw [hlen, hbytes]
      exact holds_sigframe64
    · intro f hf
      refine (h.holds f hf).congr fun i hi => ?_
      have := hbelow f hf
      exact blit_out (.inr (by rw [hlen]; omega))
  · cases hstep

/-- The newest frame goes. -/
theorem Frames.sigreturn_step (h : Frames m) (hstep : m.step .sigreturn = some m') : Frames m' := by
  simp only [Machine.step] at hstep
  split at hstep
  · cases hstep
  rename_i f rest hactive
  simp only [Option.ite_none_right_eq_some] at hstep
  obtain ⟨-, hstep⟩ := hstep
  have hmem : ∀ g ∈ rest, g ∈ m.active := by
    intro g hg
    rw [hactive]
    exact mem_cons_of_mem f hg
  have hbelow := h.below
  rw [hactive] at hbelow
  split at hstep
  · cases hstep
    exact ⟨fun g hg => h.user g (hmem g hg), fun g hg => h.readable g (hmem g hg),
      fun g hg => h.holds g (hmem g hg), (pairwise_cons.mp hbelow).2⟩
  · cases hstep

/-- Every event keeps the frames. -/
theorem Frames.step {e : SignalEvent} (h : Frames m) (hstep : m.step e = some m') : Frames m' := by
  cases e with
  | user regs mask pages stores => exact h.user_step hstep
  | deliver stale sig sa => exact h.deliver_step hstep
  | sigreturn => exact h.sigreturn_step hstep

end Step

/-! ### The return -/

/-- The test of the flags does not look at the trap flag. -/
theorem withoutTf_ok_iff (x : BitVec 64) :
    (withoutTf x >>> 32 = 0 ∧ withoutTf x &&& 0x1AF028 = 0 ∧ withoutTf x &&& 0x202 = 0x202) ↔
      (x >>> 32 = 0 ∧ x &&& 0x1AF028 = 0 ∧ x &&& 0x202 = 0x202) := by
  have hhigh : withoutTf x >>> 32 = x >>> 32 := by
    have hmask : ∀ i : Fin 64, (~~~0x100#64).getLsbD (32 + i) = decide (32 + i.val < 64) := by
      decide
    refine BitVec.eq_of_getLsbD_eq fun i hi => ?_
    rw [BitVec.getLsbD_ushiftRight, BitVec.getLsbD_ushiftRight, withoutTf, BitVec.getLsbD_and,
      hmask ⟨i, hi⟩]
    by_cases hlow : 32 + i < 64
    · simp [hlow]
    · simp [BitVec.getLsbD_of_ge x (32 + i) (Nat.not_lt.mp hlow)]
  have hbad : withoutTf x &&& 0x1AF028 = x &&& 0x1AF028 := by
    unfold withoutTf
    rw [BitVec.and_assoc]
    rfl
  have hset : withoutTf x &&& 0x202 = x &&& 0x202 := by
    unfold withoutTf
    rw [BitVec.and_assoc]
    rfl
  rw [hhigh, hbad, hset]

/-- Of what a user state has, only the flags can fail the check. -/
theorem sigframeValid_eq_false_iff (h : UserState64 r) {x : BitVec 64} :
    sigframeValid r.cs r.rip r.userRsp r.ss x = false ↔
      ¬ (x >>> 32 = 0 ∧ x &&& 0x1AF028 = 0 ∧ x &&& 0x202 = 0x202) := by
  have hcs : ¬ (r.cs ≠ selectorUser64Code ∧ r.cs ≠ selectorUCode) := fun hne => hne.1 h.cs
  have hss : ¬ r.ss ≠ selectorUData := fun hne => hne h.ss
  have hrip : ¬ (r.rip.toNat < userVaddrStart ∨ userSpaceEnd ≤ r.rip.toNat) := by
    have := h.rip
    omega
  have hrsp : ¬ (r.userRsp.toNat < userVaddrStart ∨ userSpaceEnd ≤ r.userRsp.toNat) := by
    have := h.rsp
    omega
  unfold sigframeValid
  rw [if_neg hcs, if_neg hss, if_neg hrip, if_neg hrsp]
  split
  · rename_i hbad
    refine ⟨fun _ hgood => ?_, fun _ => rfl⟩
    rcases hbad with hbad | hbad | hbad
    · exact hbad hgood.1
    · exact hbad hgood.2.1
    · exact hbad hgood.2.2
  · rename_i hgood
    simp only [ne_eq, not_or, Decidable.not_not] at hgood
    exact ⟨fun hfalse => absurd hfalse (by simp), fun hbad => absurd hgood hbad⟩

/-- `sys_sigreturn` at a frame that holds its words. -/
theorem sysSigreturn_eq {m : Machine} (hret : AtReturn m f) (huser : UserState64 f.regs)
    (hreadable : m.pages.Readable f.addr) (hholds : Holds m.mem f) :
    sysSigreturn m.pages m.task m.regs (fun _ => m.mem) =
      if f.regs.rflags >>> 32 = 0 ∧ f.regs.rflags &&& 0x1AF028 = 0 ∧
          f.regs.rflags &&& 0x202 = 0x202 then
        .resumed { m.task with signalMask := f.mask &&& maskable }
          { f.regs with rflags := withoutTf f.regs.rflags } f.regs.rax
      else .terminated (128 + sigsegv) := by
  obtain ⟨hcs, hrsp⟩ := hret
  have hwindow := Readable.window hreadable
  have hfaddr : returnFaddr m.regs = f.addr := by
    unfold returnFaddr
    rw [if_pos hcs, hrsp]
    exact BitVec.add_sub_cancel f.addr 8
  -- every read gives the word that was saved
  have hread : ∀ t k, 2 ≤ k → k < 23 →
      readField (fun _ => m.mem) (returnWidth m.regs) f.addr.toNat t k =
        BitVec.ofNat 64 ((savedWords f).getD (k - 2) 0) := by
    intro t k hlo hhi
    obtain ⟨j, rfl⟩ : ∃ j, k = j + 2 := ⟨k - 2, by omega⟩
    have hlen : j < (savedWords f).length := Nat.lt_of_add_lt_add_right hhi
    have hwidth : returnWidth m.regs = 8 := if_pos hcs
    unfold readField
    rw [hwidth, hholds j hlen, Nat.add_sub_cancel, getD_eq_getElem?_getD,
      getElem?_eq_getElem hlen]
    rfl
  have hlow : f.addr.toNat % 0x100000000 = f.addr.toNat := by
    unfold userSpaceEnd at hwindow
    exact Nat.mod_eq_of_lt (by omega)
  have hplace : ¬ (f.addr.toNat < userVaddrStart ∨ userSpaceEnd - sigframe64Size < f.addr.toNat ∨
      userRangeReadable m.pages (f.addr.toNat % 0x100000000) sigframe64Size = false) := by
    rw [hlow, show userRangeReadable m.pages f.addr.toNat sigframe64Size = true from hreadable]
    simp
    omega
  have hsize : frameSize m.regs = sigframe64Size := if_pos hcs
  unfold sysSigreturn
  simp only [hfaddr, hcs, if_true, hsize]
  unfold sigreturnFrame
  rw [if_neg hplace]
  simp (disch := decide) only [hread]
  have hword : ∀ x : BitVec 64, BitVec.ofNat 64 x.toNat = x := fun x => by
    rw [BitVec.ofNat_toNat, BitVec.setWidth_eq]
  have hmask : (BitVec.ofNat 64 f.mask.toNat).setWidth 32 = f.mask := by
    rw [BitVec.ofNat_toNat, BitVec.setWidth_setWidth_of_le _ (by decide), BitVec.setWidth_eq]
  simp only [savedWords, Nat.reduceSub, getD_cons_succ, getD_cons_zero, hword, hmask]
  have hvalid := (sigframeValid_eq_false_iff huser).trans
    (not_congr (withoutTf_ok_iff f.regs.rflags))
  split
  · rename_i hbad
    rw [if_neg (hvalid.mp hbad)]
  · rename_i hok
    rw [if_pos (Decidable.not_not.mp fun hbad => hok (hvalid.mpr hbad))]

/-! ### Runs -/

/-- In every run of a 64-bit task, the return of a handler gives back the registers and
the mask of its delivery exactly when the flags and the mask are restorable. -/
theorem sigreturn_restores_iff (m₀ m : Machine) (es : List SignalEvent) (f : SavedFrame)
    (rest : List SavedFrame) (hstart : m₀.active = []) (hrun : run Machine.step m₀ es = some m)
    (hactive : m.active = f :: rest) (hret : AtReturn m f) : RoundTrip m f ↔ Restorable f := by
  have hinit : Frames m₀ := by
    refine ⟨?_, ?_, ?_, ?_⟩
    · simp [hstart]
    · simp [hstart]
    · simp [hstart]
    · simp [hstart]
  have hframes := run_invariant (I := Frames) (fun _ _ _ h hs => h.step hs) hinit hrun
  have hmem : f ∈ m.active := by
    rw [hactive]
    exact List.mem_cons_self
  have heq := sysSigreturn_eq hret (hframes.user f hmem) (hframes.readable f hmem)
    (hframes.holds f hmem)
  unfold RoundTrip Restorable
  rw [heq]
  split
  · rename_i hflags
    constructor
    · rintro ⟨task, value, hres, -, hmask⟩
      cases hres
      exact ⟨hflags, hmask⟩
    · rintro ⟨-, hmask⟩
      exact ⟨_, _, rfl, rfl, hmask⟩
  · rename_i hflags
    constructor
    · rintro ⟨task, value, hres, -⟩
      cases hres
    · rintro ⟨hok, -⟩
      exact absurd hok hflags

/-- A task at an ordinary place, with the flags `rflags`. -/
def ordinary (rflags : BitVec 64) : Machine where
  regs := { zeroRegs with
    cs := selectorUser64Code, ss := selectorUData, rip := 0x8048000, rax := 7,
    userRsp := 0xbfff1000, rflags := rflags }
  task := ⟨0, 0, 0⟩
  mem _ := 0
  pages := mappedPages
  active := []

/-- The registers of a handler at its end, with the frame at `addr`. -/
def atEnd (addr : BitVec 64) : ArchRegs :=
  { zeroRegs with
    cs := selectorUser64Code, ss := selectorUData, userRsp := addr + 8, rip := 0x8048200 }

/-- A handler is interrupted by a second signal, whose handler returns; then it returns. -/
def nested : List SignalEvent :=
  [.deliver (fun _ => 0) 10 ⟨0x8048100, 0, 0, 0x8048200⟩,
    .user { atEnd 0xbfff0D48 with userRsp := 0xbfff0800, rflags := 0x202 } 0 mappedPages [],
    .deliver (fun _ => 0) 12 ⟨0x8048100, 0, 4, 0x8048200⟩,
    .user (atEnd 0xbfff0548) 0 mappedPages [],
    .sigreturn,
    .user (atEnd 0xbfff0D48) 0 mappedPages []]

/-- A handler that is interrupted by a second one. -/
theorem sigreturn_restores_nested :
    ∃ m f, run Machine.step (ordinary 0x202) nested = some m ∧ m.active = [f] ∧ AtReturn m f ∧
      f.regs.rax = 7 ∧ RoundTrip m f := by
  have hrun : (run Machine.step (ordinary 0x202) nested).any (fun m =>
      decide (m.active.length = 1 ∧
        ∀ f ∈ m.active, AtReturn m f ∧ f.regs.rax = 7 ∧ Restorable f)) = true := by
    decide +kernel
  obtain ⟨m, hm, hready⟩ := (Option.any_eq_true _ _).mp hrun
  obtain ⟨hlen, hf⟩ := of_decide_eq_true hready
  obtain ⟨f, hactive⟩ := List.length_eq_one_iff.mp hlen
  obtain ⟨hret, hrax, hrestorable⟩ := hf f (by rw [hactive]; exact List.mem_cons_self)
  refine ⟨m, f, hm, hactive, hret, hrax, ?_⟩
  exact (sigreturn_restores_iff (ordinary 0x202) m nested f [] rfl hm hactive hret).mpr hrestorable

/-- The task was terminated. -/
def isTerminated : Returned → Bool
  | .terminated _ => true
  | .resumed _ _ _ => false

/-- User code has set NT, and a signal comes. The handler leaves the frame alone and
returns; the task is terminated. -/
theorem not_roundTrip_nt :
    ∃ m f, run Machine.step (ordinary 0x4202)
        [.deliver (fun _ => 0) 10 ⟨0x8048100, 0, 0, 0x8048200⟩,
          .user (atEnd 0xbfff0D48) 0 mappedPages []] = some m ∧
      m.active = [f] ∧ AtReturn m f ∧ f.regs.rflags = 0x4202 ∧ ¬ RoundTrip m f := by
  have hrun : (run Machine.step (ordinary 0x4202)
      [.deliver (fun _ => 0) 10 ⟨0x8048100, 0, 0, 0x8048200⟩,
        .user (atEnd 0xbfff0D48) 0 mappedPages []]).any (fun m =>
      decide (m.active.length = 1 ∧ (∀ f ∈ m.active, AtReturn m f ∧ f.regs.rflags = 0x4202) ∧
        isTerminated (sysSigreturn m.pages m.task m.regs fun _ => m.mem) = true)) = true := by
    decide +kernel
  obtain ⟨m, hm, hready⟩ := (Option.any_eq_true _ _).mp hrun
  obtain ⟨hlen, hf, hterm⟩ := of_decide_eq_true hready
  obtain ⟨f, hactive⟩ := List.length_eq_one_iff.mp hlen
  obtain ⟨hret, hflags⟩ := hf f (by rw [hactive]; exact List.mem_cons_self)
  refine ⟨m, f, hm, hactive, hret, hflags, ?_⟩
  rintro ⟨task, value, hres, -⟩
  rw [hres] at hterm
  cases hterm

end CoreZ.Proofs.Syscall
