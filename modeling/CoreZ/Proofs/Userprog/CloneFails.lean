import CoreZ.Proofs.Fs.File.Tasks
import CoreZ.Proofs.Mm.Cow.Steps
import CoreZ.Syscall.Native
import CoreZ.Userprog.Clone

/-!
# `CoreZ.Proofs.Userprog.CloneFails`: a clone that fails

The failure exit of `sys_clone_ex` gives back what the child has, without
asking which of it the child shares with its parent. Under `CLONE_VM` it takes
the address space of the parent apart, and keeps the reference that the child
had to it. Under `CLONE_FILES` it drops references to files that the child
never took. The zero for the thread id is stored before: where its page is
copy-on-write, the store gives the caller a page of its own.

The call is modelled in three places, each with the part of the state that its
results are about. `sysCloneEx_kernel` says that the files and the tasks end
as in `CoreZ.Fs.sysCloneEx`, and `mem_tidBytes_iff_touched` that the bytes
stored are those that `CoreZ.Syscall.Native` logs for the call.
-/

set_option autoImplicit false

namespace CoreZ.Proofs.Userprog.Clone

open CoreZ.Fs hiding sysCloneEx
open CoreZ.Mm.Cow CoreZ.Userprog.Clone
open CoreZ.Lib.RefCount (count count_eq_zero_iff count_pos)

/-- The space `root` and the counts of the files are the same. -/
structure Unchanged (m : Machine) (root : Nat) (m' : Machine) : Prop where
  mappings : m'.vm.pte root = m.vm.pte root
  reserved : m'.vm.bits root = m.vm.bits root ∧ m'.vm.used root = m.vm.used root
  refs : m'.refs root = m.refs root
  files : ∀ g, (m'.kernel.files g).refCnt = (m.kernel.files g).refCnt

/-- The call returns -1. -/
def Fails (m : Machine) (c : Tid) (flags : CloneFlags) (e : SpawnEnv) : Prop :=
  threadAllocSlot m.kernel e.stack = none ∨ cloneFails (m.kernel.tasks c) flags e = true

/-- There was no slot for the child, or it shares neither an address space nor
counted files, the counts do not wrap, and the zero for the thread id goes to
writable pages. -/
def Spared (m : Machine) (c : Tid) (call : CloneCall) (e : SpawnEnv) : Prop :=
  threadAllocSlot m.kernel e.stack = none ∨
    (call.flags.vm = true → (m.kernel.tasks c).pml4 = 0) ∧
      (∀ x ∈ call.tidBytes, writable (m.vm.pte (m.kernel.tasks c).pml4 (x / 0x1000)) = true) ∧
      ∀ g d, (m.kernel.tasks c).fdTable d = some g →
        if call.flags.files then (m.kernel.files g).refCnt = 0
        else (m.kernel.files g).refCnt + count (m.kernel.tasks c).fdTable g < 4294967296

variable {m m' : Machine} {c : Tid} {call : CloneCall} {e : SpawnEnv} {grant : Nat → Option Frame}
  {vm vm' : Vm} {root : Nat}

/-! ### The other models of the call -/

/-- The tasks and the files behind a call are those of `CoreZ.Fs`. -/
theorem sysCloneEx_kernel (hcall : sysCloneEx m c call e grant = some m') :
    m'.kernel = CoreZ.Fs.sysCloneEx m.kernel c call.flags e := by
  cases hslot : threadAllocSlot m.kernel e.stack with
  | none =>
    simp only [sysCloneEx, hslot] at hcall
    cases hcall
    rfl
  | some r =>
    simp only [sysCloneEx, hslot] at hcall
    obtain ⟨vm, -, rfl⟩ := Option.map_eq_some_iff.mp hcall
    split_ifs <;> rfl

/-- The log of the call in `CoreZ.Syscall.Native`, where there is a slot for
the child. -/
theorem log_sysCloneEx {k : CoreZ.Syscall.Kernel} {pid : Nat} (hchild : k.child = some pid)
    (flags ctid : BitVec 64) :
    (CoreZ.Syscall.sysCloneEx k flags ctid).log =
      if CoreZ.Syscall.cloneClearTid flags ∧ CoreZ.Syscall.cloneSetTid flags ∧ ctid.toNat ≠ 0 then
        [.touch ⟨ctid.toNat, 4, .write⟩]
      else [] := by
  unfold CoreZ.Syscall.sysCloneEx CoreZ.Syscall.storeChildTid CoreZ.Syscall.storeAt
  rw [hchild]
  by_cases hflags : CoreZ.Syscall.cloneClearTid flags ∧ CoreZ.Syscall.cloneSetTid flags
  · by_cases hzero : ctid = 0
    · have hnone : ¬ (CoreZ.Syscall.cloneClearTid flags ∧ CoreZ.Syscall.cloneSetTid flags ∧
          ctid.toNat ≠ 0) := fun h => h.2.2 (congrArg BitVec.toNat hzero)
      rw [if_neg hnone, if_pos (by simpa using hflags), if_pos hzero]
      rfl
    · have hnat : ctid.toNat ≠ 0 := mt (BitVec.toNat_eq (y := 0)).mpr hzero
      rw [if_neg hzero, if_pos (by simpa using hflags), if_pos ⟨hflags.1, hflags.2, hnat⟩]
      rfl
  · rw [if_neg (by simpa using hflags), if_neg fun h => hflags ⟨h.1, h.2.1⟩]
    rfl

/-- The bytes of the thread id are those that the call touches there. -/
theorem mem_tidBytes_iff_touched {k : CoreZ.Syscall.Kernel} {pid : Nat}
    (hchild : k.child = some pid) (flags ctid : BitVec 64) (x : Nat) :
    x ∈ CloneCall.tidBytes ⟨call.flags, CoreZ.Syscall.cloneClearTid flags,
        CoreZ.Syscall.cloneSetTid flags, ctid.toNat⟩ ↔
      ∃ r, .touch r ∈ (CoreZ.Syscall.sysCloneEx k flags ctid).log ∧ r.Has x := by
  rw [log_sysCloneEx hchild, CloneCall.tidBytes]
  split
  · simp only [List.mem_cons, List.not_mem_nil, CoreZ.Lib.Act.touch.injEq, or_false,
      exists_eq_left, CoreZ.Lib.Range.Has]
    omega
  · simp

/-! ### The thread id -/

/-- Page tables and bitmap of the space are the same. -/
def SameSpace (root : Nat) (vm vm' : Vm) : Prop :=
  vm'.pte root = vm.pte root ∧ vm'.bits root = vm.bits root ∧ vm'.used root = vm.used root

theorem SameSpace.trans {vm'' : Vm} (h : SameSpace root vm vm') (h' : SameSpace root vm' vm'') :
    SameSpace root vm vm'' :=
  ⟨h'.1.trans h.1, h'.2.1.trans h.2.1, h'.2.2.trans h.2.2⟩

/-- A store into a writable page changes no table. -/
theorem storeByte_sameSpace {x : Nat} (hw : writable (vm.pte root (x / 0x1000)) = true)
    (h : storeByte root grant vm x = some vm') : SameSpace root vm vm' := by
  simp only [storeByte, hw, if_true] at h
  obtain ⟨-, h⟩ := Option.ite_none_right_eq_some.mp h
  cases h
  simp only [store]
  split_ifs <;> exact ⟨rfl, rfl, rfl⟩

theorem tidBytes_sameSpace {xs : List Nat} :
    ∀ {vm : Vm}, (∀ x ∈ xs, writable (vm.pte root (x / 0x1000)) = true) →
      xs.foldlM (storeByte root grant) vm = some vm' → SameSpace root vm vm' := by
  induction xs with
  | nil =>
    intro vm _ h
    cases h
    exact ⟨rfl, rfl, rfl⟩
  | cons x xs ih =>
    intro vm hw h
    obtain ⟨mid, hmid, hrest⟩ := Option.bind_eq_some_iff.mp h
    have hsame := storeByte_sameSpace (hw x List.mem_cons_self) hmid
    refine hsame.trans (ih (fun y hy => ?_) hrest)
    rw [hsame.1]
    exact hw y (List.mem_cons_of_mem x hy)

/-- The page of a byte that was stored is writable, and pages that were
writable are so still. -/
theorem storeByte_writable {x : Nat} (h : storeByte root grant vm x = some vm') :
    writable (vm'.pte root (x / 0x1000)) = true ∧
      ∀ v, writable (vm.pte root v) = true → writable (vm'.pte root v) = true := by
  simp only [storeByte] at h
  obtain ⟨⟨-, -, hv, hpres, hw⟩, h⟩ := Option.ite_none_right_eq_some.mp h
  cases h
  have hstore : ∀ {t : Vm} {w off : Nat}, (store t root w off 0).pte = t.pte := by
    intro t w off
    simp only [store]
    split_ifs <;> rfl
  rw [hstore]
  refine ⟨hw, fun v hold => ?_⟩
  by_cases hpage : writable (vm.pte root (x / 0x1000)) = true
  · rw [if_pos hpage]
    exact hold
  rw [if_neg hpage] at hw ⊢
  by_cases hsame : v = x / 0x1000
  · rw [hsame]
    exact hw
  -- the fault is resolved at its own page
  have hother : (handleCowFault vm root (x / 0x1000) (vm.pte root (x / 0x1000))
      (grant (x / 0x1000))).pte root v = vm.pte root v := by
    have hne : (root, v) ≠ (root, x / 0x1000) := fun heq => hsame (Prod.mk.inj heq).2
    unfold handleCowFault
    split
    · refine Mm.Cow.pageCowResolve_rule (I := fun t => t.pte root v = vm.pte root v) rfl
        (fun _ _ => ⟨fun g _ _ => ?_, fun _ => ?_⟩) _
      · rw [Mm.Cow.setPte_of_ne hv hne]
        rfl
      · exact Mm.Cow.setPte_of_ne hv hne
    · rfl
  rw [hother]
  exact hold

theorem tidBytes_writable {xs : List Nat} :
    ∀ {vm : Vm}, xs.foldlM (storeByte root grant) vm = some vm' →
      (∀ x ∈ xs, writable (vm'.pte root (x / 0x1000)) = true) ∧
        ∀ v, writable (vm.pte root v) = true → writable (vm'.pte root v) = true := by
  induction xs with
  | nil =>
    intro vm h
    cases h
    exact ⟨List.forall_mem_nil _, fun _ hw => hw⟩
  | cons x xs ih =>
    intro vm h
    obtain ⟨mid, hmid, hrest⟩ := Option.bind_eq_some_iff.mp h
    obtain ⟨hpage, hkeep⟩ := storeByte_writable hmid
    obtain ⟨hpages, hkeep'⟩ := ih hrest
    refine ⟨fun y hy => ?_, fun v hw => hkeep' v (hkeep v hw)⟩
    rcases List.mem_cons.mp hy with rfl | hy
    · exact hkeep' _ hpage
    · exact hpages y hy

/-! ### The failure exit -/

/-- A space that was made for the child leaves the others alone. -/
theorem freeUserSpace_createSpace (vm : Vm) {a root : Nat} (hne : root ≠ a) :
    SameSpace root vm (freeUserSpace (createSpace vm a) a) := by
  have hnone : (List.range userEnd).foldl (releasePage a) (createSpace vm a) =
      createSpace vm a := by
    refine List.foldlRecOn (motive := (· = createSpace vm a)) _ _ rfl fun t ht v _ => ?_
    -- no page is in the new bitmap
    rw [ht, releasePage, if_neg]
    rintro ⟨-, -, -, hused⟩
    simp [createSpace] at hused
  unfold freeUserSpace spaceReleaseEx
  rw [hnone]
  refine ⟨?_, by simp [freePml4, createSpace, hne], by simp [freePml4, createSpace, hne]⟩
  funext v
  simp [Vm.pte, freePml4, createSpace, hne]

/-- The counts after the failure exit. -/
theorem unrefAll_iff {files : FileTable} (t : Fd → Option Gfd) {g : Gfd} (shared : Bool)
    (hwidth : (files g).refCnt < 4294967296) :
    (unrefAll (if shared then files else refAll files t) t g).refCnt = (files g).refCnt ↔
      ∀ d, t d = some g → if shared then (files g).refCnt = 0
        else (files g).refCnt + count t g < 4294967296 := by
  have hle := Fs.File.count_le t g
  rw [Fs.File.unrefAll_apply]
  by_cases hused : ∃ d, t d = some g
  · obtain ⟨d, hd⟩ := hused
    have hpos : 0 < count t g := count_pos (fun _ => Set.toFinite _) hd
    have hone : ∀ {p : Prop}, (∀ d, t d = some g → p) ↔ p := ⟨fun h => h d hd, fun h _ _ => h⟩
    rw [hone]
    cases shared with
    | true =>
      show (files g).refCnt - _ = _ ↔ (files g).refCnt = 0
      omega
    | false =>
      show (refAll files t g).refCnt - _ = _ ↔ (files g).refCnt + count t g < 4294967296
      rw [Fs.File.refAll_mod t g files hwidth]
      dsimp only
      omega
  · have hzero : count t g = 0 :=
      (count_eq_zero_iff fun _ => Set.toFinite _).mpr fun d hd => hused ⟨d, hd⟩
    refine iff_of_true ?_ fun d hd => absurd ⟨d, hd⟩ hused
    cases shared with
    | true => simp [hzero]
    | false => simp [Fs.File.refAll_mod t g files hwidth, hzero, Nat.mod_eq_of_lt hwidth]

/-- The files after the failure exit. -/
theorem sysCloneEx_files {r : Tid × Kernel} (hslot : threadAllocSlot m.kernel e.stack = some r)
    (hfail : cloneFails (m.kernel.tasks c) call.flags e = true)
    (hcall : sysCloneEx m c call e grant = some m') :
    m'.kernel.files = unrefAll (if call.flags.files then m.kernel.files
      else refAll m.kernel.files (m.kernel.tasks c).fdTable) (m.kernel.tasks c).fdTable := by
  have hfiles := (Fs.File.threadAllocSlot_some hslot).1
  rw [sysCloneEx_kernel hcall, ← hfiles]
  simp only [CoreZ.Fs.sysCloneEx, hslot, hfail, if_true, Fs.File.spawnFail_files, cloneChild]

/-- The space of the caller behind a failure that does not share it: what the
store for the thread id has made of it. -/
theorem sysCloneEx_space {r : Tid × Kernel} (hslot : threadAllocSlot m.kernel e.stack = some r)
    (hfail : cloneFails (m.kernel.tasks c) call.flags e = true)
    (hfresh : e.pml4 = 0 ∨ (m.kernel.tasks c).pml4 ≠ e.pml4)
    (hvm : call.flags.vm = true → (m.kernel.tasks c).pml4 = 0)
    (hcall : sysCloneEx m c call e grant = some m') :
    ∃ vm, call.tidBytes.foldlM (storeByte (m.kernel.tasks c).pml4 grant) m.vm = some vm ∧
      SameSpace (m.kernel.tasks c).pml4 vm m'.vm ∧
      m'.refs (m.kernel.tasks c).pml4 = m.refs (m.kernel.tasks c).pml4 := by
  simp only [sysCloneEx, hslot] at hcall
  obtain ⟨vm, hbytes, rfl⟩ := Option.map_eq_some_iff.mp hcall
  refine ⟨vm, hbytes, ?_⟩
  unfold cloneFails at hfail
  cases hflag : call.flags.vm with
  | true =>
    simp only [hvm hflag, if_true]
    exact ⟨⟨rfl, rfl, rfl⟩, trivial⟩
  | false =>
    simp only [Bool.false_eq_true, if_false]
    by_cases hzero : e.pml4 = 0
    · simp only [hzero, if_true]
      exact ⟨⟨rfl, rfl, rfl⟩, trivial⟩
    have hne := hfresh.resolve_left hzero
    have hcopied : e.copied = false := by simpa [hflag, hzero] using hfail
    simp only [hzero, hcopied, if_true, if_false]
    exact ⟨freeUserSpace_createSpace vm hne, by simp [spaceRef, hzero, hne]⟩

/-- The main task after the boot, in the space with root 1. -/
def booted : Machine where
  kernel := { boot with tasks t := { boot.tasks t with pml4 := if t.val = 0 then 1 else 0 } }
  vm :=
    { nxUsable := true, live := fun a => a = 1, own := fun _ _ => 0, common := fun _ => 0
      bits := fun _ => 0, used := fun _ _ => false, owner := fun _ => 0, pool := fun _ => 0
      mem := fun _ _ => 0 }
  refs a := if a = 1 then 1 else 0

end CoreZ.Proofs.Userprog.Clone
