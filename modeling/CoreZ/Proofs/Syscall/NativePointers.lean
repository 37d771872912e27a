import CoreZ.Proofs.Syscall.NativeGuarded

/-!
# `CoreZ.Proofs.Syscall.NativePointers`: native calls and user addresses

A native call from ring 3 touches only checked bytes exactly when its
registers are sound (`native_guarded_iff`). One direction is
`handler_keeps`. For the other, `openKernel` is a kernel in which every check
is answered with yes and every call goes on: the log of a call there is a
short list that depends on the registers only, and a byte of it that no check
allows is named.
-/

set_option autoImplicit false

namespace CoreZ.Syscall

open CoreZ.Lib

variable {k : Kernel} {r : ArchRegs}

/-- A kernel in which every call goes on. -/
def openKernel : Kernel where
  toUserSpace := openSpace fun _ _ => 0
  found := true
  answer := 0
  moved := 1
  cwd := some [(4294967296, 1)]
  emptied := false
  names := [0]
  target := some 1
  dgram := some 1
  interrupted := false
  futexResult := 0
  child := some 1
  clearChildTid := 0

variable {p : BitVec 64} {d : Dir} {log : List Act} {m n : Nat}

/-- The log of a handler whose check is answered with yes. -/
theorem log_okAccess {x : Call Int} {e : Int} (hr : Ring3 r)
    (hans : accessAnswer k.toUserSpace d (lo p) n = true) (log : List Act) :
    (do
      let ok ← okAccess k d r p n
      if ok then x else throw e) log = x (.check ⟨lo p, n, d⟩ :: log) := by
  rw [okAccess_of_ring3 hr, accessOk, if_pos hans]
  rfl

/-- No check covers a byte above the 32-bit space. -/
theorem high_not_covered (hm : 0 < m) (hp : 4294967296 ≤ p.toNat)
    (hlog : ∀ c, Act.check c ∈ log → c.base + c.len ≤ 4294967296) :
    ¬ Covered log ⟨p.toNat, m, d⟩ := by
  refine not_covered (x := p.toNat) ⟨Nat.le_refl _, by show p.toNat < p.toNat + m; omega⟩ ?_
  intro c hc hallows
  have hend := hlog c hc
  obtain ⟨⟨-, hhi⟩, -⟩ := hallows
  omega

/-- What a buffer that is not sound looks like. -/
theorem not_bufferSound (h : ¬ BufferSound p n) :
    n ≠ 0 ∧ InUser (lo p) n ∧ 4294967296 ≤ p.toNat := by
  obtain ⟨hn, hrest⟩ := not_or.mp h
  obtain ⟨hin, hp⟩ := not_or.mp hrest
  exact ⟨hn, not_not.mp hin, by omega⟩

/-- The checks of a log are about the 32-bit space. -/
def Below (log : List Act) : Prop := ∀ c, Act.check c ∈ log → c.base + c.len ≤ 4294967296

theorem below_nil : Below [] := by
  intro c hc
  cases hc

/-- A buffer that is checked and then touched through the whole pointer. -/
theorem bufferSound_of_log {full : List Act} (later : List Act) (hlog : Below log)
    (hm : n ≠ 0 → 0 < m) (hfull : InUser (lo p) n →
      full = later ++ .touch ⟨p.toNat, m, d⟩ :: .check ⟨lo p, n, d⟩ :: log) (h : Guarded full) :
    BufferSound p n := by
  by_contra hbad
  obtain ⟨hn, hin, hp⟩ := not_bufferSound hbad
  rw [hfull hin] at h
  refine high_not_covered (hm hn) hp ?_ h.of_append.1
  intro c hc
  rcases List.mem_cons.mp hc with heq | hc
  · cases heq
    exact hin.below
  · exact hlog c hc

section

variable (hr : Ring3 r)

include hr

/-- The handlers that check a buffer and then touch it through the whole
pointer. -/
theorem checked_sound {x : Call Int} {e : Int} (later : List Act) (hlog : Below log)
    (h : Guarded (Call.after ((do
      let ok ← okAccess openKernel d r p n
      if ok then x else throw e) log))) (hm : n ≠ 0 → 0 < m)
    (hx : ∀ log, InUser (lo p) n →
      Call.after (x log) = later ++ .touch ⟨p.toNat, m, d⟩ :: log) : BufferSound p n := by
  refine bufferSound_of_log (d := d) later hlog hm (fun hin => ?_) h
  rw [log_okAccess hr (accessAnswer_open hin)]
  exact hx _ hin

/-- The buffer that `write` reads must be sound. -/
theorem write_sound (h : Guarded (nsysWrite openKernel r).log) : NativeCall.write.Sound r := by
  by_cases hfd : isLocalFd (sint r.rbx) = false
  · exact .inl hfd
  refine .inr (checked_sound hr [] below_nil (m := min 1 (lo r.rdx)) h (by omega) fun log _ => ?_)
  rw [sysWrite, if_neg hfd]
  rfl

/-- The buffer that `read` fills must be sound. -/
theorem read_sound (h : Guarded (nsysRead openKernel r).log) : NativeCall.read.Sound r := by
  by_cases hstd : sint r.rbx = 1 ∨ sint r.rbx = 2
  · exact hstd.imp_right .inl
  by_cases hfd : isLocalFd (sint r.rbx) = false
  · exact .inr (.inr (.inl hfd))
  refine .inr (.inr (.inr (checked_sound hr [] below_nil (m := min 1 (lo r.rdx)) h
    (by omega) fun log _ => ?_)))
  rw [sysRead, if_neg hstd, if_neg hfd]
  rfl

/-- The buffer for the path must be refused, or too small for one. -/
theorem getcwd_sound (h : Guarded (nsysGetcwd openKernel r).log) : NativeCall.getcwd.Sound r := by
  by_cases hsize : lo r.rcx < 2
  · exact .inl hsize
  refine .inr fun hin => ?_
  -- strlen goes on behind the 32-bit space
  have hlog : (nsysGetcwd openKernel r).log =
      [.touch ⟨r.rbx.toNat, 1, .read⟩, .touch ⟨r.rbx.toNat + 4294967296, 2, .write⟩] ++
        .touch ⟨r.rbx.toNat, 4294967297, .read⟩ ::
          [.touch ⟨r.rbx.toNat, 1, .write⟩, .check ⟨lo r.rbx, lo r.rcx, .write⟩] := by
    have hfit : ¬ lo r.rcx < (4294967296 + 1 + 1) % 4294967296 := hsize
    unfold nsysGetcwd Call.log okWrite
    rw [log_okAccess hr (accessAnswer_open hin), sysGetcwd, if_neg hsize]
    simp only [show openKernel.cwd = some [(4294967296, 1)] from rfl, appendSegments, if_neg hfit]
    rfl
  rw [hlog] at h
  refine not_covered (x := r.rbx.toNat + 4294967296)
    ⟨Nat.le_add_right _ _, Nat.lt_succ_self _⟩ ?_ h.of_append.1
  rintro c hc ⟨⟨-, hhi⟩, -⟩
  have hend := hin.below
  simp only [List.mem_cons, List.not_mem_nil, or_false] at hc
  obtain hc | hc := hc
  · cases hc
  · cases hc
    exact absurd hhi (by show ¬ _ < lo r.rbx + lo r.rcx; omega)

theorem pipe_sound (h : Guarded (nsysPipe openKernel r).log) : NativeCall.pipe.Sound r :=
  checked_sound hr [.touch ⟨r.rbx.toNat, 8, .read⟩] below_nil h (by omega) fun _ _ => rfl

theorem fstat_sound (h : Guarded (nsysFstat openKernel r).log) : NativeCall.fstat.Sound r := by
  by_cases hfd : isLocalFd (sint r.rbx) = false
  · exact .inl hfd
  refine .inr (checked_sound hr [] below_nil (m := fsStatSize) h (by omega) fun log _ => ?_)
  rw [sysFstat, if_neg hfd]
  rfl

/-- A buffer that takes one record must be sound. -/
theorem getdents_sound (h : Guarded (nsysGetdents openKernel r).log) :
    NativeCall.getdents.Sound r := by
  by_cases hfd : isLocalFd (sint r.rbx) = false
  · exact .inl hfd
  by_cases hsize : lo r.rdx < 11
  · exact .inr (.inl hsize)
  have hloop : direntLoop r.rcx.toNat (lo r.rdx) [0] 0 = (do
      Call.touch ⟨r.rcx.toNat, 11, .write⟩
      return 11) := if_neg hsize
  refine .inr (.inr (checked_sound hr [] below_nil (m := 11) h (by omega) fun log _ => ?_))
  rw [sysGetdents, if_neg hfd, if_neg Bool.noConfusion, show openKernel.names = [0] from rfl, hloop]
  rfl

/-- The path of the open kernel is empty: its first byte ends it. -/
theorem pathArg_open (h : ¬ PathRefused r.rbx) :
    ∃ log, Below log ∧ pathArg openKernel r [] = .ok true log := by
  obtain ⟨hlo, hhi⟩ := not_or.mp h
  have hk : kernCall r = false := by
    unfold Ring3 at hr
    simp [kernCall, hr]
  have hne : BitVec.ofNat 64 (lo r.rbx) ≠ 0 := by
    intro hzero
    have hlozero := congrArg lo hzero
    rw [lo_ofNat_lo] at hlozero
    exact hlo (hlozero ▸ by decide)
  obtain ⟨room, hroom⟩ : ∃ room, pageRoom (lo r.rbx) maxPathLen = room + 1 :=
    ⟨pageRoom (lo r.rbx) maxPathLen - 1, by unfold pageRoom pageSize maxPathLen; omega⟩
  refine ⟨[.touch ⟨lo r.rbx, 1, .read⟩, .check ⟨lo r.rbx, room + 1, .read⟩], ?_, ?_⟩
  · intro c hc
    obtain rfl : c = ⟨lo r.rbx, room + 1, .read⟩ := by simpa using hc
    unfold pageRoom maxPathLen at hroom
    unfold userSpaceEnd at hhi
    show lo r.rbx + (room + 1) ≤ 4294967296
    omega
  · rw [pathArg, pathArgReg, if_neg (by simp [hk]), copyStrFromUser,
      if_neg (not_or.mpr ⟨hne, by decide⟩), lo_ofNat_lo, if_neg (not_or.mpr ⟨hlo, hhi⟩)]
    show spanPages (openSpace fun _ _ => 0) (511 + 1) (lo r.rbx) maxPathLen [] = _
    rw [spanPages, if_neg (by decide), pageOk_open, if_neg Bool.noConfusion, hroom]
    rfl

/-- The handlers that copy a path and then check a buffer. -/
theorem path_then_sound {x : Call Int} {result : Int} (hm : n ≠ 0 → 0 < m)
    (hx : ∀ log, n ≠ 0 → InUser (lo p) n → x log = .ok result (.touch ⟨p.toNat, m, .write⟩ :: log))
    (h : Guarded (Call.log (do
      let path ← pathArg openKernel r
      if path then do
        let ok ← okWrite openKernel r p n
        if ok then x else throw (-1)
      else throw (-1)))) : PathRefused r.rbx ∨ BufferSound p n := by
  by_cases hpath : PathRefused r.rbx
  · exact .inl hpath
  by_cases hn : n = 0
  · exact .inr (.inl hn)
  obtain ⟨log, hbelow, hrun⟩ := pathArg_open hr hpath
  rw [Call.log, bind_of_ok hrun, if_pos rfl] at h
  exact .inr (checked_sound hr [] hbelow h hm fun log hin => by rw [hx _ hn hin]; rfl)

theorem stat_sound (h : Guarded (nsysStat openKernel r).log) : NativeCall.stat.Sound r :=
  path_then_sound hr (fun _ => by decide) (fun _ _ _ => rfl) h

theorem readlink_sound (h : Guarded (nsysReadlink openKernel r).log) :
    NativeCall.readlink.Sound r := by
  have hrun : ∀ log, lo r.rdx ≠ 0 → InUser (lo r.rcx) (lo r.rdx) →
      sysReadlink openKernel r.rcx (lo r.rdx) log =
        .ok (min 1 (lo r.rdx) : Nat) (.touch ⟨r.rcx.toNat, min 1 (lo r.rdx), .write⟩ :: log) := by
    intro log hn hin
    have hne : r.rcx ≠ 0 := by
      intro hzero
      rw [hzero] at hin
      exact absurd hin.1 (by decide)
    rw [sysReadlink, if_neg (not_or.mpr ⟨hne, hn⟩)]
    rfl
  exact path_then_sound hr (by omega) hrun h

end

/-- The acts of a store through a pointer that may be null. -/
def storeActs (q : BitVec 64) (m : Nat) : List Act :=
  if q = 0 then [] else [.touch ⟨q.toNat, m, .write⟩]

/-- The log of a store through a pointer that may be null. -/
theorem storeAt_eq {q : BitVec 64} {m : Nat} {log : List Act} :
    storeAt q m log = .ok () (storeActs q m ++ log) := by
  unfold storeAt storeActs
  split
  next => rfl
  next => rfl

@[simp] theorem check_not_mem_storeActs (q : BitVec 64) (m : Nat) (c : Range) :
    Act.check c ∉ storeActs q m := by
  unfold storeActs
  split
  next => simp
  next => simp

/-- A store through a pointer after a check of another range: the pointer is
null or leads into that range, and the range was checked for writing. -/
theorem inside_of_guarded {q : BitVec 64} {c : Range} (hm : 0 < m)
    (hcheck : ∀ c', Act.check c' ∈ log → c' = c) (h : Guarded (storeActs q m ++ log)) :
    Inside q m c.base c.len ∧ (q = 0 ∨ c.dir = .write) := by
  by_cases hq : q = 0
  · exact ⟨.inl hq, .inl hq⟩
  have hacts : storeActs q m = [.touch ⟨q.toNat, m, .write⟩] := if_neg hq
  rw [hacts] at h
  have hbyte : ∀ x, q.toNat ≤ x → x < q.toNat + m → c.Allows .write x := by
    intro x hlo hhi
    obtain ⟨c', hc, hallows⟩ := h.1 x ⟨hlo, hhi⟩
    rw [← hcheck c' hc]
    exact hallows
  -- the first and the last byte are in the only range that was checked
  obtain ⟨⟨hfirst, -⟩, hdir⟩ := hbyte q.toNat (Nat.le_refl _) (by omega)
  obtain ⟨⟨-, hlast⟩, -⟩ := hbyte (q.toNat + m - 1) (by omega) (by omega)
  refine ⟨.inr ⟨hfirst, by omega⟩, .inr ?_⟩
  exact hdir.resolve_right Dir.noConfusion

/-- The two addresses must lie in the buffer. -/
theorem recvfrom_sound (hr : Ring3 r) (h : Guarded (nsysRecvfrom openKernel r).log) :
    NativeCall.recvfrom.Sound r := by
  by_cases hfd : sint r.rbx < netFdBase ∨ netFdLimit ≤ sint r.rbx
  · exact .inl hfd
  by_cases hout : lo r.rdx ≠ 0 ∧ ¬ InUser (lo r.rcx) (lo r.rdx)
  · exact .inr (.inl hout)
  have hans : accessAnswer openKernel.toUserSpace .write (lo r.rcx) (lo r.rdx) = true := by
    by_cases hn : lo r.rdx = 0
    · rw [accessAnswer, if_pos hn]
    · exact accessAnswer_open (by_contra fun hin => hout ⟨hn, hin⟩)
  have hlog : (nsysRecvfrom openKernel r).log =
      storeActs r.rdi 2 ++ (storeActs r.rsi 4 ++
        [.touch ⟨r.rcx.toNat, min 1 (lo r.rdx), .write⟩, .check ⟨lo r.rcx, lo r.rdx, .write⟩]) := by
    rw [Call.log, nsysRecvfrom, okWrite, log_okAccess hr hans, netRecvfrom, if_neg hfd]
    show Call.after ((storeAt r.rsi 4 >>= fun _ => storeAt r.rdi 2 >>= fun _ => pure _) _) = _
    rw [bind_of_ok storeAt_eq, bind_of_ok storeAt_eq]
    rfl
  rw [hlog] at h
  have hbuf : BufferSound r.rcx (lo r.rdx) :=
    bufferSound_of_log [] below_nil (by omega) (fun _ => rfl) h.of_append.of_append
  have haddr := inside_of_guarded (c := ⟨lo r.rcx, lo r.rdx, .write⟩) (Nat.succ_pos 3)
    (by simp) h.of_append
  have hport := inside_of_guarded (c := ⟨lo r.rcx, lo r.rdx, .write⟩) (Nat.succ_pos 1) (by simp) h
  exact .inr (.inr ⟨hbuf.low hans, haddr.1, hport.1⟩)

/-- There must be no second pointer. -/
theorem nanosleep_sound (hr : Ring3 r) (h : Guarded (nsysNanosleep openKernel r).log) :
    NativeCall.nanosleep.Sound r := by
  by_cases hin : InUser (lo r.rbx) sysTimespecSize
  · have hlog : (nsysNanosleep openKernel r).log =
        storeActs r.rcx 8 ++ [.touch ⟨r.rbx.toNat, 8, .read⟩,
          .touch ⟨r.rbx.toNat + 4, 4, .read⟩, .touch ⟨r.rbx.toNat, 4, .read⟩,
          .check ⟨lo r.rbx, 8, .read⟩] := by
      rw [Call.log, nsysNanosleep, okRead, log_okAccess hr (accessAnswer_open hin)]
      show Call.after ((storeAt r.rcx 8 >>= fun _ => pure 0) _) = _
      rw [bind_of_ok storeAt_eq]
      rfl
    rw [hlog] at h
    have hreq : BufferSound r.rbx 8 :=
      bufferSound_of_log [.touch ⟨r.rbx.toNat, 8, .read⟩, .touch ⟨r.rbx.toNat + 4, 4, .read⟩]
        below_nil (by omega) (fun _ => rfl) h.of_append
    -- the request was checked for reading only
    have hrem := inside_of_guarded (c := ⟨lo r.rbx, 8, .read⟩) (Nat.succ_pos 7) (by simp) h
    refine .inr ⟨?_, hrem.2.resolve_right Dir.noConfusion⟩
    exact (hreq.resolve_left (by decide)).resolve_left (not_not_intro hin)
  · exact .inl hin

/-- Memory that holds zeros has a valid timeout everywhere. -/
theorem readTimeout_open (timeout : Nat) (log : List Act) :
    readTimeout openKernel timeout log = .ok true (.touch ⟨timeout, 16, .read⟩ :: log) := by
  have hzero : ∀ width o, leNat (openKernel.mem log.length) width o = 0 := by
    intro width
    induction width with
    | zero => intro o; rfl
    | succ width ih =>
      intro o
      rw [leNat, ih]
      rfl
  show EStateM.Result.ok (timeoutValid (leNat (openKernel.mem log.length) 8 timeout)
    (leNat (openKernel.mem log.length) 8 (timeout + 8))) _ = _
  rw [hzero, hzero]
  rfl

/-- The word and the timeout must be sound, for the commands that use them. -/
theorem futex_sound (hr : Ring3 r) (h : Guarded (nsysFutex openKernel r).log) :
    NativeCall.futex.Sound r := by
  by_cases hin : InUser (lo r.rbx) 4
  · by_contra hbad
    obtain ⟨hcmd, htime⟩ := not_or.mp (not_or.mp hbad).2
    rw [not_not] at hcmd
    have hne : lo r.rbx ≠ 0 := by
      intro hzero
      rw [hzero] at hin
      exact absurd hin.1 (by decide)
    have hrun : ∀ log, sysFutex openKernel (lo r.rbx) (lo r.rcx) (lo r.rsi) 0 log =
        .ok 0 (.touch ⟨lo r.rbx, 4, .read⟩ :: .touch ⟨lo r.rsi, 16, .read⟩ :: log) := by
      intro log
      simp only [sysFutex, hne, hcmd, htime, if_false, if_true, true_or, false_and, Nat.zero_ne_one,
        show ¬ (0 : Nat) = 10 by decide, show ¬ (0 : Nat) = 9 by decide]
      rw [bind_of_ok (readTimeout_open _ _)]
      rfl
    have hlog : (nsysFutex openKernel r).log =
        [.touch ⟨lo r.rbx, 4, .read⟩, .touch ⟨lo r.rsi, 16, .read⟩,
          .check ⟨lo r.rbx, 4, .read⟩] := by
      rw [Call.log, nsysFutex, okRead, log_okAccess hr (accessAnswer_open hin), bind_of_ok (hrun _)]
      rfl
    rw [hlog] at h
    obtain ⟨-, htouch, -⟩ := h
    -- sixteen bytes do not fit into the four that were checked
    have hfirst := htouch (lo r.rsi) ⟨Nat.le_refl _, by simp⟩
    have hlast := htouch (lo r.rsi + 15) ⟨by simp, by simp⟩
    simp [Range.Allows, Range.Has] at hfirst hlast
    omega
  · exact .inl hin

/-- The call must not store the thread id. -/
theorem clone_sound (h : Guarded (nsysClone openKernel r).log) : NativeCall.clone.Sound r := by
  by_cases hflags : (cloneClearTid r.rbx && cloneSetTid r.rbx) = false
  · exact .inl hflags
  have hlog : (nsysClone openKernel r).log = storeActs r.r10 4 ++ [] := by
    show Call.after ((storeChildTid r.rbx r.r10 >>= fun _ => pure _) []) = _
    rw [storeChildTid, if_pos (Bool.of_not_eq_false hflags), bind_of_ok storeAt_eq]
    rfl
  rw [hlog] at h
  refine .inr (by_contra fun hctid => ?_)
  have hacts : storeActs r.r10 4 = [.touch ⟨r.r10.toNat, 4, .write⟩] := if_neg hctid
  rw [hacts] at h
  exact not_covered (x := r.r10.toNat) ⟨Nat.le_refl _, by simp⟩ (by simp) h.1

/-- A call that is guarded in the open kernel has sound registers. -/
theorem sound_of_guarded (hr : Ring3 r) (c : NativeCall)
    (h : Guarded (c.handler openKernel r).log) : c.Sound r := by
  cases c with
  | write => exact write_sound hr h
  | read => exact read_sound hr h
  | getcwd => exact getcwd_sound hr h
  | stat => exact stat_sound hr h
  | pipe => exact pipe_sound hr h
  | fstat => exact fstat_sound hr h
  | getdents => exact getdents_sound hr h
  | readlink => exact readlink_sound hr h
  | recvfrom => exact recvfrom_sound hr h
  | nanosleep => exact nanosleep_sound hr h
  | futex => exact futex_sound hr h
  | clone => exact clone_sound h
  | chdir | mkdir | rmdir | openPath | unlink | opendir | readdir | access | rename | truncate
  | chmod | symlink | mknod | exit => trivial

/-- **Native calls and user addresses.** A native call from ring 3 touches
only bytes that have been checked for the direction, whatever the page tables,
the user memory and the rest of the kernel answer, exactly when its registers
are sound. -/
theorem native_guarded_iff (c : NativeCall) (r : ArchRegs) (hr : Ring3 r) :
    (∀ k, Guarded (c.handler k r).log) ↔ c.Sound r :=
  ⟨fun h => sound_of_guarded hr c (h openKernel),
    fun h _ => guarded_of_keeps (handler_keeps hr c h)⟩

/-- Registers of user code, all zero but for the selector. -/
def userRegs : ArchRegs where
  r15 := 0
  r14 := 0
  r13 := 0
  r12 := 0
  r11 := 0
  r10 := 0
  r9 := 0
  r8 := 0
  rbp := 0
  rdi := 0
  rsi := 0
  rdx := 0
  rcx := 0
  rbx := 0
  rax := 0
  rip := 0
  cs := selectorUser64Code
  rflags := 0
  userRsp := 0
  ss := selectorUData

/-- A receive of sixteen bytes that does not ask for the sender. -/
theorem native_guarded_iff_recvfrom :
    Ring3 { userRegs with rbx := 64, rcx := 0x8048000, rdx := 16 } ∧
      ∀ k, Guarded (NativeCall.recvfrom.handler k
        { userRegs with rbx := 64, rcx := 0x8048000, rdx := 16 }).log := by
  have hring : Ring3 { userRegs with rbx := 64, rcx := 0x8048000, rdx := 16 } := by
    unfold Ring3; decide
  refine ⟨hring, (native_guarded_iff .recvfrom _ hring).mpr (.inr (.inr ⟨?_, .inl rfl, .inl rfl⟩))⟩
  exact .inr (by decide)

/-- The receive with a kernel address for the sender: four bytes are stored
there. -/
theorem not_guarded_recvfrom :
    Ring3 { userRegs with rbx := 64, rcx := 0x8048000, rdx := 16, rsi := 0x100000 } ∧
      ¬ Guarded (NativeCall.recvfrom.handler openKernel
        { userRegs with rbx := 64, rcx := 0x8048000, rdx := 16, rsi := 0x100000 }).log := by
  refine ⟨by unfold Ring3; decide, fun h => ?_⟩
  rcases recvfrom_sound (by unfold Ring3; decide) h with hfd | hout | hin
  · revert hfd; decide
  · revert hout; decide
  revert hin
  unfold Inside
  decide

end CoreZ.Syscall
