import CoreZ.Proofs.Syscall.UserAccess
import CoreZ.Syscall.Native

/-!
# `CoreZ.Proofs.Syscall.NativeGuarded`: sound registers keep a native call guarded

`NativeCall.Sound` says for each call with which registers every byte that it
touches has been checked. These things can go wrong. A buffer is checked by
the low half of its pointer and used through the whole pointer
(`BufferSound`). `recvfrom` stores the address of the sender and `nanosleep`
the time that is left through pointers that nobody checks, and `futex` reads
its timeout in the same way. `clone` stores through the address of the child's
identifier. `getcwd` asks `strlen` for the length of a string in the user's
buffer, which another thread can make longer than the buffer.

`handler_keeps` goes through the calls. The functions below a handler are
proved guarded for a range that has been checked, and the handler supplies it.
-/

set_option autoImplicit false

namespace CoreZ.Syscall

open CoreZ.Lib

variable {rs : List Range} {k : Kernel} {r : ArchRegs}

/-- The call was made by user code. -/
def Ring3 (r : ArchRegs) : Prop := r.cs.toNat % 4 = 3

/-- A buffer of `n` bytes that is checked by its low half and used through
the whole pointer. -/
def BufferSound (p : BitVec 64) (n : Nat) : Prop :=
  n = 0 ∨ ¬ InUser (lo p) n ∨ p.toNat < 4294967296

/-- The pointer is null or leads into the checked buffer. -/
def Inside (q : BitVec 64) (m a n : Nat) : Prop := q = 0 ∨ (a ≤ q.toNat ∧ q.toNat + m ≤ a + n)

/-- The path is not copied. -/
def PathRefused (p : BitVec 64) : Prop := lo p < userVaddrStart ∨ userSpaceEnd ≤ lo p

/-- The registers with which a call is sound. -/
def NativeCall.Sound (r : ArchRegs) : NativeCall → Prop
  | .write => isLocalFd (sint r.rbx) = false ∨ BufferSound r.rcx (lo r.rdx)
  | .read =>
    sint r.rbx = 1 ∨ sint r.rbx = 2 ∨ isLocalFd (sint r.rbx) = false ∨
      BufferSound r.rcx (lo r.rdx)
  | .getcwd => lo r.rcx < 2 ∨ ¬ InUser (lo r.rbx) (lo r.rcx)
  | .stat => PathRefused r.rbx ∨ BufferSound r.rcx fsStatSize
  | .pipe => BufferSound r.rbx 8
  | .fstat => isLocalFd (sint r.rbx) = false ∨ BufferSound r.rcx fsStatSize
  | .getdents =>
    isLocalFd (sint r.rbx) = false ∨ lo r.rdx < 11 ∨ BufferSound r.rcx (lo r.rdx)
  | .readlink => PathRefused r.rbx ∨ BufferSound r.rcx (lo r.rdx)
  | .recvfrom =>
    (sint r.rbx < netFdBase ∨ netFdLimit ≤ sint r.rbx) ∨
    (lo r.rdx ≠ 0 ∧ ¬ InUser (lo r.rcx) (lo r.rdx)) ∨
    ((lo r.rdx = 0 ∨ r.rcx.toNat < 4294967296) ∧ Inside r.rsi 4 (lo r.rcx) (lo r.rdx) ∧
      Inside r.rdi 2 (lo r.rcx) (lo r.rdx))
  | .nanosleep =>
    ¬ InUser (lo r.rbx) sysTimespecSize ∨ (r.rbx.toNat < 4294967296 ∧ r.rcx = 0)
  | .futex => ¬ InUser (lo r.rbx) 4 ∨ lo r.rcx % 128 ≠ 0 ∨ lo r.rsi = 0
  | .clone => (cloneClearTid r.rbx && cloneSetTid r.rbx) = false ∨ r.r10 = 0
  | _ => True

/-! ### A sound call is guarded -/

/-- A call from user space is checked. -/
theorem okAccess_of_ring3 (hr : Ring3 r) (d : Dir) (p : BitVec 64) (n : Nat) :
    okAccess k d r p n = accessOk k.toUserSpace d p n := by
  have hk : kernCall r = false := by
    unfold Ring3 at hr
    simp [kernCall, hr]
  simp [okAccess, hk]

variable {p : BitVec 64} {fd : Int} {n : Nat}

/-- A handler that goes on only after its check. -/
theorem okAccess_keeps {d : Dir} {x : Call Int} {e : Int} (hr : Ring3 r)
    (h : accessAnswer k.toUserSpace d (lo p) n = true → Keeps (Granted (⟨lo p, n, d⟩ :: rs)) x) :
    Keeps (Granted rs) (do
      let ok ← okAccess k d r p n
      if ok then x else throw e) := by
  rw [okAccess_of_ring3 hr]
  exact accessOk_bind h .throw

/-- A path is copied through the checks. -/
theorem pathArgReg_keeps {p : BitVec 64} : Keeps (Granted rs) (pathArgReg k r p) :=
  .ite .pure copyStrFromUser_keeps

/-- The pointer of a sound buffer that was accepted has no upper half. -/
theorem BufferSound.low {u : UserSpace} {d : Dir} (h : BufferSound p n)
    (hans : accessAnswer u d (lo p) n = true) : n = 0 ∨ p.toNat < 4294967296 := by
  rcases h with hn | hout | hlow
  · exact .inl hn
  · exact (accessAnswer_inUser hans).imp_right fun hin => absurd hin hout
  · exact .inr hlow

section Callees

variable {p : BitVec 64} {n : Nat}

/-- The buffer was checked, if the pointer has 32 bits. -/
theorem sysWrite_keeps (h : isLocalFd fd = false ∨ n = 0 ∨ p.toNat < 4294967296) :
    Keeps (Granted (⟨lo p, n, .read⟩ :: rs)) (sysWrite k fd p n) := by
  refine Triple.ite (fun _ => Keeps.throw) fun hfd => Keeps.bind ?_ fun _ => Keeps.pure
  exact buffer_keeps 0 (h.resolve_left hfd) (by omega) (.inr rfl)

/-- So was the buffer of `read`. -/
theorem sysRead_keeps (h : fd = 1 ∨ fd = 2 ∨ isLocalFd fd = false ∨ n = 0 ∨ p.toNat < 4294967296) :
    Keeps (Granted (⟨lo p, n, .write⟩ :: rs)) (sysRead k fd p n) := by
  refine Triple.ite (fun _ => Keeps.throw) fun hstd => ?_
  refine Triple.ite (fun _ => Keeps.throw) fun hfd => Keeps.bind ?_ fun _ => Keeps.pure
  have hp : n = 0 ∨ p.toNat < 4294967296 := by
    rcases h with h | h | h | h
    · exact absurd (.inl h) hstd
    · exact absurd (.inr h) hstd
    · exact absurd h hfd
    · exact h
  exact buffer_keeps 0 hp (by omega) (.inl rfl)

theorem sysStat_keeps (hp : fsStatSize = 0 ∨ p.toNat < 4294967296) :
    Keeps (Granted (⟨lo p, fsStatSize, .write⟩ :: rs)) (sysStat k p) := by
  refine .ite (.bind ?_ fun _ => .pure) .throw
  exact buffer_keeps 0 hp (by omega) (.inl rfl)

theorem sysPipe_keeps (hp : 8 = 0 ∨ p.toNat < 4294967296) :
    Keeps (Granted (⟨lo p, 8, .write⟩ :: rs)) (sysPipe k p) := by
  refine .ite (.bind ?_ fun _ => .bind ?_ fun _ => .pure) .throw
  · exact buffer_keeps 0 hp (by omega) (.inl rfl)
  · exact buffer_keeps 0 hp (by omega) (.inl rfl)

/-- A record is stored only where it fits. -/
theorem direntLoop_keeps (hp : n < 11 ∨ n = 0 ∨ p.toNat < 4294967296) :
    ∀ (names : List (Fin 256)) (written : Nat),
      Keeps (Granted (⟨lo p, n, .write⟩ :: rs)) (direntLoop p.toNat n names written) := by
  intro names
  induction names with
  | nil => intro written; exact .pure
  | cons name names ih =>
    intro written
    refine Triple.ite (fun _ => Keeps.pure) fun hfit => Keeps.bind ?_ fun _ => ih _
    exact buffer_keeps written (hp.resolve_left (by omega)) (by omega) (.inl rfl)

theorem sysReadlink_keeps (hp : n = 0 ∨ p.toNat < 4294967296) :
    Keeps (Granted (⟨lo p, n, .write⟩ :: rs)) (sysReadlink k p n) := by
  refine .ite .throw ?_
  split
  next => exact .throw
  next len _ =>
    refine .bind ?_ fun _ => .pure
    exact buffer_keeps 0 hp (by omega) (.inl rfl)

/-- A store inside of a range that was checked. -/
theorem storeAt_keeps {q : BitVec 64} {m : Nat} {c : Range} (hc : c ∈ rs) (hd : c.dir = .write)
    (h : Inside q m c.base c.len) : Keeps (Granted rs) (storeAt q m) := by
  refine Triple.ite (fun _ => Keeps.pure) fun hq => ?_
  obtain ⟨hlo, hhi⟩ := h.resolve_left hq
  exact touch_keeps hc ⟨hlo, hhi, .inl hd⟩

/-- The datagram and its sender go into the buffer. -/
theorem netRecvfrom_keeps {saddr sport : BitVec 64}
    (h : (fd < netFdBase ∨ netFdLimit ≤ fd) ∨ (n = 0 ∨ p.toNat < 4294967296) ∧
      Inside saddr 4 (lo p) n ∧ Inside sport 2 (lo p) n) :
    Keeps (Granted (⟨lo p, n, .write⟩ :: rs)) (netRecvfrom k fd p n saddr sport) := by
  refine Triple.ite (fun _ => Keeps.throw) fun hfd => ?_
  obtain ⟨hp, haddr, hport⟩ := h.resolve_left hfd
  split
  next => exact Keeps.throw
  next dlen _ =>
    refine Keeps.bind (buffer_keeps 0 hp (by omega) (.inl rfl)) fun _ => ?_
    refine Keeps.bind (storeAt_keeps List.mem_cons_self rfl haddr) fun _ => ?_
    exact Keeps.bind (storeAt_keeps List.mem_cons_self rfl hport) fun _ => Keeps.pure

/-- Without the second pointer only the first is read. -/
theorem sysNanosleep_keeps {rem : BitVec 64} (hp : p.toNat < 4294967296) (hrem : rem = 0) :
    Keeps (Granted (⟨lo p, sysTimespecSize, .read⟩ :: rs)) (sysNanosleep k p rem) := by
  have hstore : Keeps (Granted (⟨lo p, sysTimespecSize, .read⟩ :: rs))
      (storeAt rem sysTimespecSize) := Triple.ite (fun _ => Keeps.pure) fun h => absurd hrem h
  have hpart : ∀ o m, o + m ≤ 8 →
      Range.Holds ⟨lo p, sysTimespecSize, .read⟩ ⟨p.toNat + o, m, .read⟩ := by
    intro o m hom
    refine ⟨?_, ?_, .inr rfl⟩
    · show lo p ≤ p.toNat + o
      rw [lo_of_lt hp]
      omega
    · show p.toNat + o + m ≤ lo p + 8
      rw [lo_of_lt hp]
      omega
  refine Keeps.bind (readLe_keeps List.mem_cons_self (hpart 0 4 (by omega))) fun _ => ?_
  refine Keeps.ite Keeps.throw ?_
  refine Keeps.bind (readLe_keeps List.mem_cons_self (hpart 4 4 (by omega))) fun _ => ?_
  refine Keeps.ite Keeps.throw ?_
  refine Keeps.bind (touch_keeps List.mem_cons_self (hpart 0 8 (by omega))) fun _ => ?_
  refine Keeps.ite ?_ ?_
  · exact Keeps.bind hstore fun _ => Keeps.throw
  · exact Keeps.bind hstore fun _ => Keeps.pure

theorem futexDoWait_keeps {uaddr : Nat} :
    Keeps (Granted (⟨uaddr, 4, .read⟩ :: rs)) (futexDoWait k uaddr) :=
  .bind (touch_keeps List.mem_cons_self (Range.Holds.refl _)) fun _ => .pure

/-- The address is used by its low half. Without a timeout, or with a command
that does not wait for any bit, nothing else is touched. -/
theorem sysFutex_keeps {uaddr op timeout : Nat} (h : op % 128 ≠ 0 ∨ timeout = 0) :
    Keeps (Granted (⟨uaddr, 4, .read⟩ :: rs)) (sysFutex k uaddr op timeout 0) := by
  refine Keeps.ite Keeps.pure (Keeps.ite Keeps.pure ?_)
  refine Keeps.ite (Keeps.ite Keeps.pure Keeps.pure) ?_
  refine Triple.ite (fun hcmd => ?_) fun _ => Keeps.pure
  refine Triple.ite (fun _ => Keeps.pure) fun hbits => ?_
  refine Triple.ite (fun _ => futexDoWait_keeps) fun htime => ?_
  have hop : op % 128 = 0 := hcmd.resolve_right fun hnine => hbits ⟨hnine, rfl⟩
  exact ((h.resolve_right htime) hop).elim

/-- Without the flags or the address nothing is stored. -/
theorem sysCloneEx_keeps {flags ctid : BitVec 64}
    (h : (cloneClearTid flags && cloneSetTid flags) = false ∨ ctid = 0) :
    Keeps (Granted rs) (sysCloneEx k flags ctid) := by
  unfold sysCloneEx
  split
  next => exact .throw
  next pid _ =>
    refine .bind ?_ fun _ => .pure
    refine Triple.ite (fun hflags => ?_) fun _ => Keeps.pure
    refine Triple.ite (fun _ => Keeps.pure) fun hctid => ?_
    rcases h with h | h
    · exact absurd (h.symm.trans hflags) Bool.false_ne_true
    · exact absurd h hctid

/-- The store to `clear_child_tid` checks its address. -/
theorem releaseProgResource_keeps : Keeps (Granted rs) (releaseProgResource k) := by
  refine .ite .pure ?_
  refine accessOk_bind (fun _ => ?_) .pure
  have hlo : lo (k.clearChildTid.setWidth 64) = k.clearChildTid.toNat := by
    rw [lo, BitVec.toNat_setWidth]
    omega
  rw [hlo, if_pos rfl]
  exact touch_keeps List.mem_cons_self (Range.Holds.refl _)

end Callees

theorem lo_ofNat_lo (p : BitVec 64) : lo (BitVec.ofNat 64 (lo p)) = lo p := by
  have hlt : lo p < 4294967296 := Nat.mod_lt _ (by decide)
  rw [lo, BitVec.toNat_ofNat]
  omega

/-- A path outside of user space is refused. -/
theorem pathArgReg_of_refused (hr : Ring3 r) (h : PathRefused p) :
    pathArgReg k r p = return false := by
  have hk : kernCall r = false := by
    unfold Ring3 at hr
    simp [kernCall, hr]
  unfold PathRefused at h
  simp [pathArgReg, hk, copyStrFromUser, lo_ofNat_lo, h]

/-- The handlers that copy a path and then check a buffer. -/
theorem path_then_keeps {x : Call Int} (hr : Ring3 r) (h : PathRefused r.rbx ∨ BufferSound p n)
    (hx : n = 0 ∨ p.toNat < 4294967296 → Keeps (Granted (⟨lo p, n, .write⟩ :: rs)) x) :
    Keeps (Granted rs) (do
      let path ← pathArg k r
      if path then do
        let ok ← okWrite k r p n
        if ok then x else throw (-1)
      else throw (-1)) := by
  rcases h with h | h
  · rw [pathArg, pathArgReg_of_refused hr h]
    exact .throw
  · refine .bind pathArgReg_keeps fun path => .ite ?_ .throw
    exact okAccess_keeps hr fun hans => hx (h.low hans)

/-- A call is guarded, whatever the kernel answers, when its registers are
sound. -/
theorem handler_keeps (hr : Ring3 r) (c : NativeCall) (h : c.Sound r) :
    Keeps (Granted rs) (c.handler k r) := by
  have hpath : Keeps (Granted rs) (nsysPath k r) :=
    Keeps.bind pathArgReg_keeps fun _ => Keeps.ite Keeps.pure Keeps.throw
  have htwo : Keeps (Granted rs) (nsysTwoPaths k r) :=
    Keeps.bind pathArgReg_keeps fun _ => Keeps.bind pathArgReg_keeps fun _ =>
      Keeps.ite Keeps.pure Keeps.throw
  cases c with
  | write => exact okAccess_keeps hr fun hans => sysWrite_keeps (h.imp_right (·.low hans))
  | read =>
    refine okAccess_keeps hr fun hans => sysRead_keeps ?_
    exact h.imp_right (Or.imp_right (Or.imp_right (·.low hans)))
  | getcwd =>
    -- a buffer that passes the check is too short to be used
    refine okAccess_keeps hr fun hans => Triple.ite (fun _ => Keeps.throw) fun hsize => ?_
    have hzero := (accessAnswer_inUser hans).resolve_right (h.resolve_left hsize)
    exact absurd (show lo r.rcx < 2 by omega) hsize
  | chdir | mkdir | rmdir | openPath | unlink | opendir | access | truncate | chmod | mknod =>
    exact hpath
  | rename | symlink => exact htwo
  | readdir =>
    refine Keeps.ite Keeps.throw (okAccess_keeps hr fun _ => ?_)
    exact Keeps.bind copyUser_keeps fun _ => Keeps.ite Keeps.pure Keeps.throw
  | stat => exact path_then_keeps hr h sysStat_keeps
  | pipe => exact okAccess_keeps hr fun hans => sysPipe_keeps (h.low hans)
  | fstat =>
    refine okAccess_keeps hr fun hans => Triple.ite (fun _ => Keeps.throw) fun hfd => ?_
    exact sysStat_keeps ((h.resolve_left hfd).low hans)
  | getdents =>
    refine okAccess_keeps hr fun hans => Triple.ite (fun _ => Keeps.throw) fun hfd => ?_
    refine Keeps.ite Keeps.throw (direntLoop_keeps ?_ _ _)
    exact (h.resolve_left hfd).imp_right (·.low hans)
  | readlink => exact path_then_keeps hr h sysReadlink_keeps
  | recvfrom =>
    refine okAccess_keeps hr fun hans => netRecvfrom_keeps ?_
    rcases h with hfd | hout | hin
    · exact .inl hfd
    · exact ((accessAnswer_inUser hans).elim hout.1 hout.2).elim
    · exact .inr hin
  | nanosleep =>
    refine okAccess_keeps hr fun hans => ?_
    have hin := (accessAnswer_inUser hans).resolve_left (by decide)
    obtain ⟨hlow, hrem⟩ := h.resolve_left (not_not_intro hin)
    exact sysNanosleep_keeps hlow hrem
  | futex =>
    refine okAccess_keeps hr fun hans => ?_
    have hin := (accessAnswer_inUser hans).resolve_left (by decide)
    refine Keeps.bind (sysFutex_keeps (h.resolve_left (not_not_intro hin))) fun _ => ?_
    exact Keeps.ite Keeps.throw Keeps.pure
  | clone => exact sysCloneEx_keeps h
  | exit => exact Keeps.bind releaseProgResource_keeps fun _ => Keeps.pure

end CoreZ.Syscall
