import CoreZ.Fs.Access
import Mathlib.Tactic.ByContra

/-!
# `CoreZ.Proofs.Fs.Ownership`: who changes mode, owner and group

The calls that reach an inode by a path check the caller: `sys_chmod` lets
the owner and root through, `sys_chown` only root. `lc_fchmod` and
`lc_fchown` reach it by a descriptor and check nothing, so any process that
has the file open can take it over (`not_protected_fchown`).

`ownership_iff` says that this is all: the mode, owner and group of an
inode of somebody else stay as they are in a run of these calls exactly
when its `fchmod` and `fchown` calls set what is there already.
-/

set_option autoImplicit false

namespace CoreZ.Proofs.Fs.Ownership

open CoreZ.Lib
open CoreZ.Fs.Access

attribute [local simp] Inode.store DiskInode.load

/-- The calls, with all their arguments. -/
inductive Call where
  | nativeChmod (path : Path) (mode : Nat) (io : InodeIo)
  | chmod (path : Path) (mode : Nat) (io : InodeIo)
  | fchmod (fd mode : Nat) (io : InodeIo)
  | fchmodat (path : Path) (mode : Nat) (io : InodeIo)
  | chown (path : Path) (uid gid : Nat) (io : InodeIo)
  | lchown (path : Path) (uid gid : Nat) (io : InodeIo)
  | fchown (fd uid gid : Nat) (io : InodeIo)
  | fchownat (path : Path) (uid gid : Nat) (io : InodeIo)

/-- A call of the process `p`. -/
def step (p : Cred) (s : Vfs) : Call → Option Vfs
  | .nativeChmod path mode io => some (sysChmod s p path mode io).1
  | .chmod path mode io => some (lcChmod s p path mode io).1
  | .fchmod fd mode io => some (lcFchmod s fd mode io).1
  | .fchmodat path mode io => some (lcFchmodat s p path mode io).1
  | .chown path uid gid io => some (lcChown s p path uid gid io).1
  | .lchown path uid gid io => some (lcLchown s p path uid gid io).1
  | .fchown fd uid gid io => some (lcFchown s fd uid gid io).1
  | .fchownat path uid gid io => some (lcFchownat s p path uid gid io).1

/-! ### The property and its condition -/

/-- Mode, owner and group. -/
def attrs (s : Vfs) (n : Nat) : UInt16 × UInt16 × UInt16 :=
  ((s.node n).iMode, (s.node n).iUid, (s.node n).iGid)

/-- The descriptor is open on the inode, and the inode can be read and
stored. -/
def Reaches (s : Vfs) (n fd : Nat) (io : InodeIo) : Prop :=
  (3 ≤ fd ∧ fd < maxFilesOpenPerProc) ∧ (s.files fd).bind File.iNo = some n ∧ n ≠ 0 ∧
    io.read = true ∧ io.stored = true

/-- The value leaves the owner or the group as it is. -/
def Leaves (value : Nat) (old : UInt16) : Prop := value = keep64 ∨ value % 65536 = old.toNat

/-- A call through a descriptor of the inode sets what is there. -/
def Harmless (n : Nat) (s : Vfs) : Call → Prop
  | .fchmod fd mode io => Reaches s n fd io → mode &&& 0x0FFF = (s.node n).iMode.toNat &&& 0x0FFF
  | .fchown fd uid gid io => Reaches s n fd io →
      Leaves uid (s.node n).iUid ∧ Leaves gid (s.node n).iGid
  | _ => True

/-- A call through a descriptor of the inode leaves the owner. -/
def KeepsOwner (n : Nat) (s : Vfs) : Call → Prop
  | .fchown fd uid _ io => Reaches s n fd io → Leaves uid (s.node n).iUid
  | _ => True

/-! ### Inodes -/

/-- The 16 bits of a field on the disk. -/
theorem ofNat_eq_iff (v : Nat) (old : UInt16) : UInt16.ofNat v = old ↔ v % 65536 = old.toNat := by
  rw [← UInt16.toNat_inj, UInt16.toNat_ofNat']

/-- The format bits of a mode. -/
theorem and_format (m : Nat) : m &&& 0xF000 = m / 4096 % 16 * 4096 := by
  have hshift : m &&& 0xF000 = (m >>> 12 &&& 15) <<< 12 := by
    apply Nat.eq_of_testBit_eq
    intro i
    rw [show 0xF000 = 15 <<< 12 by rfl]
    simp only [Nat.testBit_and, Nat.testBit_shiftLeft, Nat.testBit_shiftRight]
    by_cases hi : 12 ≤ i
    · simp [hi]
    · simp [hi]
  rw [hshift, Nat.shiftLeft_eq, Nat.shiftRight_eq_div_pow,
    show 15 = 2 ^ 4 - 1 by rfl, Nat.and_two_pow_sub_one_eq_mod]

/-- The permission bits of a mode. -/
theorem and_perms (m : Nat) : m &&& 0x0FFF = m % 4096 := Nat.and_two_pow_sub_one_eq_mod m 12

/-- The mode that the calls set. -/
theorem newMode_eq {old : Nat} (mode : Nat) (hold : old < 65536) :
    (old &&& 0xF000) ||| (mode &&& 0x0FFF) = old / 4096 * 4096 + mode % 4096 := by
  have hq : old / 4096 % 16 = old / 4096 := Nat.mod_eq_of_lt (by omega)
  have hor := Nat.two_pow_add_eq_or_of_lt (i := 12) (Nat.mod_lt mode (by decide)) (old / 4096)
  rw [and_format, and_perms, hq, Nat.mul_comm, ← hor]

/-- The mode stays when its permission bits do. -/
theorem newMode_iff (old : UInt16) (mode : Nat) :
    UInt16.ofNat ((old.toNat &&& 0xF000) ||| (mode % 4294967296 &&& 0x0FFF)) = old ↔
      mode &&& 0x0FFF = old.toNat &&& 0x0FFF := by
  have hold : old.toNat < 65536 := old.toNat_lt
  rw [ofNat_eq_iff, newMode_eq _ hold, and_perms, and_perms]
  omega

/-! ### Calls by descriptor -/

section ByFd

variable {s : Vfs} {n fd : Nat} {io : InodeIo}

/-- A descriptor of the inode changes it. -/
theorem changeByFd_of_reaches (h : Reaches s n fd io) (change : Inode → Inode) :
    (changeByFd s fd change io).1.node n = (change (s.node n).load).store := by
  obtain ⟨hfd, hn, hzero, hread, hstored⟩ := h
  rw [changeByFd, if_neg (by omega), hn]
  simp [fsReadInode, fsWriteInode, hzero, hread, hstored, Vfs.setNode]

/-- Other calls leave it. -/
theorem changeByFd_of_not (h : ¬ Reaches s n fd io) (change : Inode → Inode) :
    (changeByFd s fd change io).1.node n = s.node n := by
  rw [changeByFd]
  split
  · rfl
  next hfd =>
    split
    · rfl
    next m hm =>
      split
      · rfl
      next i hi =>
        show (fsWriteInode s m (change i) io.stored).1.node n = s.node n
        rw [fsWriteInode]
        split
        · rfl
        next hio =>
          -- the inode that is stored is another one
          have hne : n ≠ m := by
            rintro rfl
            rw [fsReadInode] at hi
            split at hi
            · cases hi
            · next hread => exact h ⟨by omega, hm, by simp_all⟩
          exact if_neg hne

/-- `fchmod` leaves the attributes when it sets what is there. -/
theorem lcFchmod_attrs (mode : Nat) :
    attrs (lcFchmod s fd mode io).1 n = attrs s n ↔ Harmless n s (.fchmod fd mode io) := by
  by_cases h : Reaches s n fd io
  · rw [attrs, lcFchmod, changeByFd_of_reaches h, attrs]
    have hmode := newMode_iff (s.node n).iMode mode
    simp only [Harmless, h, forall_const, ← hmode]
    simp
  · rw [attrs, lcFchmod, changeByFd_of_not h, attrs]
    exact ⟨fun _ hr => absurd hr h, fun _ => rfl⟩

/-- When a value leaves a field of the disk. -/
theorem leaves_iff (value : Nat) (old : UInt16) :
    UInt16.ofNat (if value ≠ keep64 then value % 65536 else old.toNat) = old ↔
      Leaves value old := by
  rw [ofNat_eq_iff, Leaves]
  have hold : old.toNat < 65536 := old.toNat_lt
  split
  · next h =>
      rw [Nat.mod_mod]
      exact ⟨.inr, fun hv => hv.resolve_left h⟩
  · next h =>
      rw [Nat.mod_eq_of_lt hold]
      exact ⟨fun _ => .inl (not_not.mp h), fun _ => rfl⟩

/-- `fchown` leaves the attributes when it sets what is there. -/
theorem lcFchown_attrs {uid gid : Nat} :
    attrs (lcFchown s fd uid gid io).1 n = attrs s n ↔ Harmless n s (.fchown fd uid gid io) := by
  by_cases h : Reaches s n fd io
  · rw [attrs, lcFchown, changeByFd_of_reaches h, attrs]
    simp only [Harmless, h, forall_const, ← leaves_iff]
    simp [chownTo]
  · rw [attrs, lcFchown, changeByFd_of_not h, attrs]
    exact ⟨fun _ hr => absurd hr h, fun _ => rfl⟩

/-- It leaves the owner when it sets the old one. -/
theorem lcFchown_owner {uid gid : Nat} :
    ((lcFchown s fd uid gid io).1.node n).iUid = (s.node n).iUid ↔
      KeepsOwner n s (.fchown fd uid gid io) := by
  by_cases h : Reaches s n fd io
  · rw [lcFchown, changeByFd_of_reaches h]
    simp only [KeepsOwner, h, forall_const, ← leaves_iff]
    simp [chownTo]
  · rw [lcFchown, changeByFd_of_not h]
    exact ⟨fun _ hr => absurd hr h, fun _ => rfl⟩

theorem lcFchmod_owner (mode : Nat) :
    ((lcFchmod s fd mode io).1.node n).iUid = (s.node n).iUid := by
  by_cases h : Reaches s n fd io
  · rw [lcFchmod, changeByFd_of_reaches h]
    simp
  · rw [lcFchmod, changeByFd_of_not h]

end ByFd

/-! ### Calls by path -/

variable {p : Cred} {n : Nat}

section ByPath

/-- What a call by path does to an inode: only the one of the caller changes, and it
keeps its owner. -/
def Owned (p : Cred) (s s' : Vfs) : Prop :=
  ∀ n, s'.node n = s.node n ∨ p.euid = (s.node n).iUid.toNat ∧ (s'.node n).iUid = (s.node n).iUid

variable {s s' : Vfs} {p : Cred} {path : Path} {io : InodeIo}

/-- The inode of another user keeps its attributes. -/
theorem Owned.attrs (h : Owned p s s') (hn : p.euid ≠ (s.node n).iUid.toNat) :
    attrs s' n = attrs s n := by
  rw [Ownership.attrs, (h n).resolve_right fun howner => hn howner.1, Ownership.attrs]

/-- Every inode keeps its owner. -/
theorem Owned.owner (h : Owned p s s') (n : Nat) : (s'.node n).iUid = (s.node n).iUid := by
  rcases h n with heq | ⟨-, hi⟩
  · rw [heq]
  · exact hi

/-- `chmod` changes inodes of the caller only. -/
theorem sysChmod_owned (hp : p.euid ≠ 0) (mode : Nat) :
    Owned p s (sysChmod s p path mode io).1 := by
  intro n
  match path with
  | .invalid | .slash | .proc | .lookup none => exact .inl rfl
  | .lookup (some m) =>
    rw [sysChmod]
    split
    · exact .inl rfl
    next i hi =>
      split
      · exact .inl rfl
      next howner =>
        have heq : p.euid = i.iUid := by
          by_contra hne
          exact howner ⟨hp, hne⟩
        rw [← load_of_fsReadInode hi] at heq ⊢
        simp only [fsWriteInode]
        split
        · exact .inl rfl
        by_cases hnm : n = m
        · subst hnm
          refine .inr ⟨heq, ?_⟩
          simp [Vfs.setNode]
        · exact .inl (if_neg hnm)

/-- Without root, `sys_chown` changes nothing. -/
theorem sysChown_owned (hp : p.euid ≠ 0) (uid gid : Nat) :
    Owned p s (sysChown s p path uid gid io).1 := by
  intro n
  match path with
  | .invalid | .slash | .proc | .lookup none => exact .inl rfl
  | .lookup (some m) =>
    rw [sysChown]
    split
    · exact .inl rfl
    · rw [if_pos hp]
      exact .inl rfl

theorem lcPath_owned {call : Vfs × Int} (h : Owned p s call.1) :
    Owned p s (lcPath s path call).1 := by
  rw [lcPath]
  split
  · exact fun _ => .inl rfl
  · exact h

end ByPath

/-! ### One call -/

section Step

variable {p : Cred} {s s' : Vfs} {c : Call} {n : Nat}

/-- The calls that do not go by a descriptor. -/
def Call.ByPath : Call → Prop
  | .fchmod .. | .fchown .. => False
  | _ => True

/-- Calls by a path change inodes of the caller only. -/
theorem step_owned (hp : p.euid ≠ 0) (hstep : step p s c = some s') (hc : c.ByPath) :
    Owned p s s' := by
  cases c <;> cases hstep
  case fchmod | fchown => exact hc.elim
  case nativeChmod => exact sysChmod_owned hp _
  case chmod | fchmodat => exact lcPath_owned (sysChmod_owned hp _)
  case chown | lchown | fchownat => exact lcPath_owned (sysChown_owned hp _ _)

/-- The condition for one call. -/
theorem step_attrs (hp : p.euid ≠ 0) (hn : p.euid ≠ (s.node n).iUid.toNat)
    (hstep : step p s c = some s') : attrs s' n = attrs s n ↔ Harmless n s c := by
  cases c with
  | fchmod fd mode io =>
    cases hstep
    exact lcFchmod_attrs mode
  | fchown fd uid gid io =>
    cases hstep
    exact lcFchown_attrs
  | nativeChmod | chmod | fchmodat | chown | lchown | fchownat =>
    exact iff_true_intro ((step_owned hp hstep trivial).attrs hn)

/-- The condition for the owner. -/
theorem step_owner (hp : p.euid ≠ 0) (hstep : step p s c = some s') :
    (s'.node n).iUid = (s.node n).iUid ↔ KeepsOwner n s c := by
  cases c with
  | fchmod fd mode io =>
    cases hstep
    exact iff_true_intro (lcFchmod_owner mode)
  | fchown fd uid gid io =>
    cases hstep
    exact lcFchown_owner
  | nativeChmod | chmod | fchmodat | chown | lchown | fchownat =>
    exact iff_true_intro ((step_owned hp hstep trivial).owner n)

end Step

/-! ### Runs -/

/-- The owner of a file sets its permission bits. -/
theorem sysChmod_of_owner {s : Vfs} (hn : n ≠ 0) (howner : p.euid = (s.node n).iUid.toNat)
    (mode : Nat) :
    (sysChmod s p (.lookup (some n)) mode ⟨true, true⟩).2 = 0 ∧
      ((sysChmod s p (.lookup (some n)) mode ⟨true, true⟩).1.node n).iMode.toNat &&& 0x0FFF
        = mode &&& 0x0FFF := by
  have hold : (s.node n).iMode.toNat < 65536 := (s.node n).iMode.toNat_lt
  have hnew := newMode_eq mode hold
  simp only [sysChmod, fsReadInode, hn, fsWriteInode, DiskInode.load, Vfs.setNode, Inode.store,
    howner, false_or, Bool.true_eq_false, if_false, ne_eq, not_true_eq_false, and_false, if_true,
    true_and, UInt16.toNat_ofNat', hnew]
  rw [and_perms, and_perms]
  omega

/-- For a process without root and an inode of somebody else, the mode,
owner and group stay in a run of the calls exactly when its `fchmod` and
`fchown` calls on the inode set what is there. For an inode of its own, the
owner stays exactly when its `fchown` calls set what is there, and `chmod`
sets the mode. -/
theorem ownership_iff (p : Cred) (hp : p.euid ≠ 0) (n : Nat) (s t : Vfs) (calls : List Call)
    (hrun : run (step p) s calls = some t) :
    (p.euid ≠ (s.node n).iUid.toNat →
      ((∀ pre, pre <+: calls → ∀ u, run (step p) s pre = some u → attrs u n = attrs s n) ↔
        Along (step p) (Harmless n) s calls)) ∧
    (p.euid = (s.node n).iUid.toNat →
      ((∀ pre, pre <+: calls → ∀ u, run (step p) s pre = some u →
          (u.node n).iUid = (s.node n).iUid) ↔ Along (step p) (KeepsOwner n) s calls) ∧
      ∀ mode, n ≠ 0 → (sysChmod s p (.lookup (some n)) mode ⟨true, true⟩).2 = 0 ∧
        ((sysChmod s p (.lookup (some n)) mode ⟨true, true⟩).1.node n).iMode.toNat &&& 0x0FFF
          = mode &&& 0x0FFF) := by
  refine ⟨fun hne => ?_, fun howner => ⟨?_, fun mode hn => sysChmod_of_owner hn howner mode⟩⟩
  · refine along_iff_forall_prefix ?_ rfl hrun
    intro u c u' _ hu hstep
    -- the owner is still the one of the start
    have huid : (u.node n).iUid = (s.node n).iUid := congrArg (fun x => x.2.1) hu
    rw [← hu]
    exact step_attrs hp (huid ▸ hne) hstep
  · refine along_iff_forall_prefix ?_ rfl hrun
    intro u c u' _ hu hstep
    rw [← hu]
    exact step_owner hp hstep

/-- A process of an ordinary user. -/
def user : Cred := ⟨1000⟩

/-- Inode 12 is a file of root that all may read; descriptor 3 is open on
it for reading. -/
def rootFile : Vfs where
  node := fun n => if n = 12 then ⟨0o100644, 0, 0, 5⟩ else ⟨0, 0, 0, 0⟩
  files := fun fd => if fd = 3 then some ⟨some 12⟩ else none
  errno := 0

/-- `chmod` and `chown` are refused, and `fchmod` sets the old mode. -/
theorem ownership_iff_refused :
    ∃ t, run (step user) rootFile [.chmod (.lookup (some 12)) 0o777 ⟨true, true⟩,
        .chown (.lookup (some 12)) 1000 1000 ⟨true, true⟩, .fchmod 3 0o644 ⟨true, true⟩] = some t ∧
      attrs t 12 = attrs rootFile 12 := by
  have hrun : run (step user) rootFile [.chmod (.lookup (some 12)) 0o777 ⟨true, true⟩,
      .chown (.lookup (some 12)) 1000 1000 ⟨true, true⟩, .fchmod 3 0o644 ⟨true, true⟩] =
        some _ := rfl
  have hkept := ((ownership_iff user (by decide) 12 rootFile _ _ hrun).1 (by decide)).mpr
    ⟨trivial, fun s1 h1 => ⟨trivial, fun s2 h2 => ⟨fun _ => by cases h1; cases h2; decide,
      fun _ _ => trivial⟩⟩⟩
  exact ⟨_, hrun, hkept _ (List.prefix_refl _) _ hrun⟩

/-- A process that has opened the file of root for reading takes it over. -/
theorem not_protected_fchown :
    user.euid ≠ 0 ∧ user.euid ≠ (rootFile.node 12).iUid.toNat ∧
      ∃ t, run (step user) rootFile [.fchown 3 1000 1000 ⟨true, true⟩] = some t ∧
        attrs t 12 = (0o100644, 1000, 1000) ∧ attrs rootFile 12 = (0o100644, 0, 0) :=
  ⟨by decide, by decide, _, rfl, by decide, by decide⟩

end CoreZ.Proofs.Fs.Ownership
