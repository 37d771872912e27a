import CoreZ.Proofs.Fs.File.Counts

/-!
# `CoreZ.Proofs.Fs.File.Tasks`: tasks that come and go

A new task with its own table counts the references of its copy; one that
shares a table must not become the user of the copy it was given
(`SharesTable`). The end of a task leaves the counts right when no table that
it takes out of use, or puts into use, has an entry for the slot: `Ending`
carries this through the loops that end several tasks.
-/

set_option autoImplicit false

namespace CoreZ.Proofs.Fs.File

open CoreZ.Fs CoreZ.Lib.RefCount
open CoreZ.Userprog (toInt32)
open Function
open List

/-! ### Copied tables -/

section

variable (t : Fd → Option Gfd)

/-- The loop of references over the descriptors `l`, seen at one slot; by induction on `l`. -/
theorem foldl_ref (g : Gfd) (l : List Fd) (files : FileTable)
    (hlt : (files g).refCnt < 4294967296) :
    (l.foldl (fun files d =>
      match t d with
      | none => files
      | some x => fileTableRef files x) files g) =
      { files g with
        refCnt := ((files g).refCnt + l.countP fun d => t d = some g) % 4294967296 } := by
  induction l generalizing files with
  | nil =>
    rw [countP_nil, add_zero, Nat.mod_eq_of_lt hlt]
    rfl
  | cons d l ih =>
    rw [foldl_cons, countP_cons]
    cases htd : t d with
    | none =>
      rw [ih files hlt]
      simp
    | some x =>
      by_cases hx : x = g
      · subst hx
        have hself : fileTableRef files x x =
            { files x with refCnt := ((files x).refCnt + 1) % 4294967296 } := update_self ..
        rw [ih (fileTableRef files x) (by rw [hself]; exact Nat.mod_lt _ (by decide)), hself]
        simp [add_assoc, add_comm 1]
      · have hother : fileTableRef files x g = files g := update_of_ne (Ne.symm hx) ..
        rw [ih (fileTableRef files x) (by rw [hother]; exact hlt), hother]
        simp [hx]

/-- The references of a whole table, seen at one slot, with the width of the counter. -/
theorem refAll_mod (g : Gfd) (files : FileTable) (hlt : (files g).refCnt < 4294967296) :
    refAll files t g = { files g with refCnt := ((files g).refCnt + count t g) % 4294967296 } := by
  rw [count_fin]
  exact foldl_ref t g (finRange 64) files hlt

/-- A table has 64 descriptors. -/
theorem count_le (g : Gfd) : count t g ≤ 64 := by
  rw [count_fin]
  exact countP_le_length.trans_eq length_finRange

/-- The same for a counter that is far from its end. -/
theorem refAll_apply (g : Gfd) (files : FileTable) (hle : (files g).refCnt + 64 < 4294967296) :
    refAll files t g = { files g with refCnt := (files g).refCnt + count t g } := by
  have hcount := count_le t g
  rw [refAll_mod t g files (by omega), Nat.mod_eq_of_lt (by omega)]

/-- The loop that drops references: a count of 0 stays. -/
theorem foldl_unref (g : Gfd) (l : List Fd) (files : FileTable) :
    (l.foldl (fun files d =>
      match t d with
      | none => files
      | some x => if 0 < (files x).refCnt then fileTableUnref files x else files) files g) =
      { files g with refCnt := (files g).refCnt - l.countP fun d => t d = some g } := by
  induction l generalizing files with
  | nil => rfl
  | cons d l ih =>
    rw [foldl_cons, countP_cons, ih]
    cases htd : t d with
    | none => simp
    | some x =>
      by_cases hx : x = g
      · subst hx
        have hself : (if 0 < (files x).refCnt then fileTableUnref files x else files) x =
            { files x with refCnt := (files x).refCnt - 1 } := by
          split
          · exact update_self ..
          · have hz : (files x).refCnt - 1 = (files x).refCnt := by omega
            rw [hz]
        dsimp only
        rw [hself]
        simp [Nat.sub_sub, add_comm]
      · have hother : (if 0 < (files x).refCnt then fileTableUnref files x else files) g =
            files g := by
          split
          · exact update_of_ne (Ne.symm hx) ..
          · rfl
        dsimp only
        rw [hother]
        simp [hx]

/-- What the failure exits take from a slot. -/
theorem unrefAll_apply (g : Gfd) (files : FileTable) :
    unrefAll files t g = { files g with refCnt := (files g).refCnt - count t g } := by
  rw [count_fin]
  exact foldl_unref t g (finRange 64) files

end

/-! ### New tasks -/

variable {g : Gfd} {s s' : Kernel} {c i t : Tid}

/-- A new task keeps the invariant if its table is its own or one that a living task uses. -/
theorem Fine.spawned (h : Fine c g s) (hsp : Spawned s s' i)
    (howner : (s'.tasks i).fdOwnerPid = (s'.tasks i).ipid ∨
      ∃ p, (s.tasks p).live = true ∧ (s'.tasks i).fdOwnerPid = (s.tasks p).fdOwnerPid)
    (howes : Owes s' g 0) : Fine c g s' := by
  refine ⟨hsp.rooted h.rooted howner, ?_, howes⟩
  have hci : c ≠ i := by
    rintro rfl
    have hlive := h.live
    rw [hsp.slot] at hlive
    cases hlive
  rw [hsp.others c hci]
  exact h.live

/-- A task that is dead has no entry that counts. -/
theorem entries_of_not_live (h : (s.tasks i).live = false) (d : Fd) : entries s (i, d) = none := by
  refine if_neg fun hown => ?_
  rw [hown.1] at h
  cases h

/-- A new task with its own table. -/
theorem Owes.spawn_own (h : Owes s g 0) (hsp : Spawned s s' i) (hown : owns s' i)
    (hfiles : s'.files = refAll s.files (s'.tasks i).fdTable)
    (hused : ∀ d, (s'.tasks i).fdTable d = some g → (s.files g).used = true) : Owes s' g 0 := by
  have hrow : (fun d => entries s' (i, d)) = (s'.tasks i).fdTable :=
    funext fun d => entries_of_owns hown d
  have hcount : count (entries s') g = count (entries s) g + count (s'.tasks i).fdTable g := by
    rw [← hrow]
    refine count_row (fun d => ?_) fun j d hj => hsp.entries hj d
    rw [entries_of_not_live hsp.slot]
    exact fun hg => by cases hg
  have hle := count_entries_le s g
  obtain ⟨href, hfree⟩ := h
  unfold Owes
  rw [hfiles, refAll_apply _ g s.files (by omega), hcount]
  refine ⟨by simp only; omega, ?_⟩
  by_cases hzero : count (s'.tasks i).fdTable g = 0
  · simp only [hzero, add_zero]
    exact hfree
  -- the copy has an entry, so the slot is in use
  have hsome : ∃ d, (s'.tasks i).fdTable d = some g := by
    have hnot := mt (count_eq_zero_iff (fun _ => Set.toFinite _)).mpr hzero
    simpa using hnot
  obtain ⟨d, hd⟩ := hsome
  rw [hused d hd]
  constructor
  · intro hf
    cases hf
  · intro hz
    simp only at hz
    omega

/-- A new task whose table is not in use, or has no entry for `g`. -/
theorem Owes.spawn_quiet (h : Owes s g 0) (hsp : Spawned s s' i)
    (hquiet : ¬ owns s' i ∨ Clear s' i g) (hfile : s'.files g = s.files g) : Owes s' g 0 := by
  have hent : ∀ k, entries s' k = some g ↔ entries s k = some g := by
    rintro ⟨j, d⟩
    by_cases hj : j = i
    · subst hj
      rw [entries_of_not_live hsp.slot]
      unfold entries
      obtain hnot | hclear := hquiet
      · rw [if_neg hnot]
      · split
        · exact ⟨fun hg => absurd hg (hclear d), fun hg => by cases hg⟩
        · rfl
    · rw [hsp.entries hj]
  unfold Owes
  rw [count_congr hent, hfile]
  exact h

/-- The slot and the process id of a new task. -/
structure Allocated (s s1 : Kernel) (i : Tid) (child : FdTask) : Prop where
  slot : (s.tasks i).live = false
  others : ∀ j, j ≠ i → s1.tasks j = s.tasks j
  slotUsed : child.slotUsed = true
  ipid : child.ipid = toInt32 s.pidAlloc

/-- What `thread_alloc_slot` returns. -/
theorem threadAllocSlot_some {s1 : Kernel} {stack : Bool}
    (h : threadAllocSlot s stack = some (i, s1)) :
    s1.files = s.files ∧ (s1.tasks i).fdOwnerPid = (s1.tasks i).ipid ∧
      ∀ child : FdTask, child.slotUsed = (s1.tasks i).slotUsed → child.pid = (s1.tasks i).pid →
        Allocated s s1 i child := by
  unfold threadAllocSlot at h
  split at h
  · cases h
  next k hfind =>
    split at h
    · simp only [Option.some.injEq, Prod.mk.injEq] at h
      obtain ⟨rfl, rfl⟩ := h
      have hunused : (s.tasks k).slotUsed = false := by simpa using find?_some hfind
      dsimp only
      rw [update_self]
      refine ⟨rfl, rfl, fun child hslot hpid => ⟨?_, fun j hj => update_of_ne hj .., hslot, ?_⟩⟩
      · rw [FdTask.live, hunused, Bool.false_and]
      · exact congrArg toInt32 hpid
    · cases h

section
variable {s s1 : Kernel} {i : Tid} {child : FdTask}

/-- The child that `fork` makes ready is a new task. -/
theorem Allocated.spawnReady (h : Allocated s s1 i child) (hpid : PidFree s (toInt32 s.pidAlloc))
    (files : FileTable) : Spawned s (spawnReady { s1 with files } i child) i := by
  refine ⟨fun j hj => ?_, h.slot, ?_⟩
  · unfold Fs.spawnReady
    rw [setTask_tasks_of_ne hj]
    exact h.others j hj
  · unfold Fs.spawnReady
    rw [setTask_tasks_self]
    show PidFree s child.ipid
    rw [h.ipid]
    exact hpid

/-- The child of a call that fails is dead. -/
theorem spawnFail_tasks_self (s : Kernel) (i : Tid) (child : FdTask) :
    (spawnFail s i child).tasks i = { child with pml4 := 0, status := .died } := by
  unfold spawnFail threadExit
  rw [setTask_tasks_self]
  rw [setTask_tasks_self]

/-- The child of a call that fails is a new task as well, a dead one. -/
theorem Allocated.spawnFail (h : Allocated s s1 i child) (hpid : PidFree s (toInt32 s.pidAlloc))
    (files : FileTable) : Spawned s (spawnFail { s1 with files } i child) i := by
  refine ⟨fun j hj => ?_, h.slot, ?_⟩
  · unfold Fs.spawnFail
    rw [threadExit_tasks_of_ne _ hj]
    rw [setTask_tasks_of_ne hj]
    exact h.others j hj
  · rw [spawnFail_tasks_self]
    show PidFree s child.ipid
    rw [h.ipid]
    exact hpid

theorem spawnFail_files (s : Kernel) (i : Tid) (child : FdTask) :
    (spawnFail s i child).files = unrefAll s.files child.fdTable := rfl

/-- The child of a failed call is not live. -/
theorem not_owns_spawnFail {s : Kernel} {i : Tid} {child : FdTask} :
    ¬ owns (spawnFail s i child) i := by
  intro hown
  have hlive := hown.1
  rw [spawnFail_tasks_self] at hlive
  simp [FdTask.live] at hlive

/-- The references of a copy are taken, and dropped by the failure exit. -/
theorem unrefAll_refAll {files : FileTable} {t : Fd → Option Gfd}
    (hle : (files g).refCnt + 64 < 4294967296) : unrefAll (refAll files t) t g = files g := by
  rw [unrefAll_apply, refAll_apply t g files hle]
  simp

/-- A task with a table of its own, a copy of `c`'s. -/
theorem Fine.spawn_copy (h : Fine c g s) (halloc : Allocated s s1 i child)
    (hpid : PidFree s (toInt32 s.pidAlloc)) (howner : child.fdOwnerPid = child.ipid)
    (hused : ∀ d, child.fdTable d = some g → (s.files g).used = true) :
    Fine c g (Fs.spawnFail { s1 with files := refAll s.files child.fdTable } i child) ∧
      Fine c g (Fs.spawnReady { s1 with files := refAll s.files child.fdTable } i child) := by
  have hle := count_entries_le s g
  have href := h.owes.1
  constructor
  · have hsp := halloc.spawnFail hpid (refAll s.files child.fdTable)
    refine h.spawned hsp (.inl ?_) ?_
    · rw [spawnFail_tasks_self]
      exact howner
    · refine h.owes.spawn_quiet hsp (.inl not_owns_spawnFail) ?_
      rw [spawnFail_files]
      exact unrefAll_refAll (by omega)
  · have hsp := halloc.spawnReady hpid (refAll s.files child.fdTable)
    have hself : (Fs.spawnReady { s1 with files := refAll s.files child.fdTable } i
        child).tasks i = { child with status := .ready } := setTask_tasks_self ..
    refine h.spawned hsp (.inl ?_) ?_
    · rw [hself]
      exact howner
    · refine h.owes.spawn_own hsp ⟨?_, fdOwnerTask_self (.inr ?_)⟩ ?_ ?_
      · rw [hself, FdTask.live, halloc.slotUsed]
        rfl
      · rw [hself]
        exact howner
      · rw [hself]
        rfl
      · rw [hself]
        exact hused

/-- The owner of the table that `c` uses is found by its process id. -/
def HasOwner (s : Kernel) (c : Tid) : Prop :=
  0 < (s.tasks c).fdOwnerPid ∧ ∃ k, isOwner s c k = true
  deriving Decidable

/-- A task that shares the table of a live task does not use its copy. -/
theorem Spawned.not_owns (hsp : Spawned s s' i) (hlive : (s.tasks c).live = true)
    (howner : HasOwner s c) (hshare : (s'.tasks i).fdOwnerPid = (s.tasks c).fdOwnerPid) :
    ¬ owns s' i := by
  obtain ⟨hpos, k, hk⟩ := howner
  obtain ⟨hklive, hkpid⟩ := isOwner_iff.mp hk
  have hnew : (s.tasks c).fdOwnerPid ≠ (s'.tasks i).ipid := (hsp.free c hlive).1
  have hki : k ≠ i := by
    rintro rfl
    rw [hsp.slot] at hklive
    cases hklive
  -- the search finds a task, and not the new one
  have hself : ¬ ((s'.tasks i).fdOwnerPid ≤ 0 ∨ (s'.tasks i).fdOwnerPid = (s'.tasks i).ipid) := by
    rw [hshare]
    rintro (hle | heq)
    · omega
    · exact hnew heq
  have hk' : isOwner s' i k = true := by
    rw [isOwner_iff, hsp.others k hki, hshare]
    exact ⟨hklive, hkpid⟩
  rintro ⟨-, hown⟩
  rw [fdOwnerTask_other hself] at hown
  cases hfind : (finRange 64).find? (isOwner s' i) with
  | none => exact find?_eq_none.mp hfind k (mem_finRange k) hk'
  | some k' =>
    rw [hfind] at hown
    have hpid' := (isOwner_iff.mp (find?_some hfind)).2
    rw [show k' = i from hown, hshare] at hpid'
    exact hnew hpid'.symm

/-- A task that shares the table `c` uses. -/
theorem Fine.spawn_share (h : Fine c g s) (halloc : Allocated s s1 i child)
    (hpid : PidFree s (toInt32 s.pidAlloc)) (hshare : child.fdOwnerPid = (s.tasks c).fdOwnerPid)
    (htab : child.fdTable = (s.tasks c).fdTable) :
    (Clear s c g → Fine c g (Fs.spawnFail { s1 with files := s.files } i child)) ∧
      (Clear s c g ∨ HasOwner s c →
        Fine c g (Fs.spawnReady { s1 with files := s.files } i child)) := by
  constructor
  · intro hclear
    have hsp := halloc.spawnFail hpid s.files
    refine h.spawned hsp (.inr ⟨c, h.live, ?_⟩) ?_
    · rw [spawnFail_tasks_self]
      exact hshare
    · refine h.owes.spawn_quiet hsp (.inl not_owns_spawnFail) ?_
      have hzero : count child.fdTable g = 0 := by
        rw [count_eq_zero_iff fun _ => Set.toFinite _, htab]
        exact hclear
      rw [spawnFail_files, unrefAll_apply, hzero, Nat.sub_zero]
  · intro hquiet
    have hsp := halloc.spawnReady hpid s.files
    have hself : (Fs.spawnReady { s1 with files := s.files } i child).tasks i =
        { child with status := .ready } := setTask_tasks_self ..
    have hshare' : ((Fs.spawnReady { s1 with files := s.files } i child).tasks i).fdOwnerPid =
        (s.tasks c).fdOwnerPid := by
      rw [hself]
      exact hshare
    refine h.spawned hsp (.inr ⟨c, h.live, hshare'⟩) (h.owes.spawn_quiet hsp ?_ rfl)
    obtain hclear | howner := hquiet
    · refine .inr fun d => ?_
      rw [hself]
      rw [htab]
      exact hclear d
    · exact .inl (hsp.not_owns h.live howner hshare')

end

/-- `fork` counts the entries that it copies, or takes them back. -/
theorem Fine.sysFork (h : Fine c g s) (hpid : PidFree s (toInt32 s.pidAlloc))
    (hused : ∀ d, (s.tasks c).fdTable d = some g → (s.files g).used = true) (e : SpawnEnv) :
    Fine c g (sysFork s c e) := by
  unfold Fs.sysFork
  dsimp only
  split
  · exact h
  split
  · exact h
  next i s1 hslot =>
    obtain ⟨hfiles, howner, halloc⟩ := threadAllocSlot_some hslot
    obtain ⟨hfail, hready⟩ := h.spawn_copy (halloc (forkChild (s.tasks c) (s1.tasks i) e) rfl rfl)
      hpid howner hused
    rw [hfiles]
    split
    · exact hfail
    · exact hready

/-- What a `clone` asks of the table it shares or copies. -/
def Clonable (s : Kernel) (c : Tid) (flags : CloneFlags) (e : SpawnEnv) (g : Gfd) : Prop :=
  if flags.files then
    Clear s c g ∨ (cloneFails (s.tasks c) flags e = false ∧ HasOwner s c)
  else ∀ d, (s.tasks c).fdTable d = some g → (s.files g).used = true
  deriving Decidable

/-- `clone` keeps the counts where its failure exit has something to take back. -/
theorem Fine.sysCloneEx (h : Fine c g s) (hpid : PidFree s (toInt32 s.pidAlloc))
    {flags : CloneFlags} {e : SpawnEnv} (hclone : Clonable s c flags e g) :
    Fine c g (sysCloneEx s c flags e) := by
  unfold Fs.sysCloneEx
  dsimp only
  split
  · exact h
  next i s1 hslot =>
    obtain ⟨hfiles, -, halloc⟩ := threadAllocSlot_some hslot
    have halloc := halloc (cloneChild (s.tasks c) (s1.tasks i) flags e) rfl rfl
    unfold Clonable at hclone
    rw [hfiles]
    by_cases hshare : flags.files = true
    · rw [if_pos hshare] at hclone
      obtain ⟨hfail, hready⟩ := h.spawn_share halloc hpid (if_pos hshare) rfl
      split
      next hfails =>
        obtain hclear | ⟨hok, -⟩ := hclone
        · exact hfail hclear
        · rw [hok] at hfails
          cases hfails
      next => exact hready (hclone.imp_right fun hc => hc.2)
    · rw [if_neg hshare] at hclone
      obtain ⟨hfail, hready⟩ := h.spawn_copy halloc hpid (if_neg hshare) hclone
      split
      · exact hfail
      · exact hready

/-! ### Ends of tasks -/

/-- A loop that ends the tasks of `V`, on behalf of `c`: no task that uses
the table of one of them has an entry for `g`, and the tasks that use the
table of `c` have none where `Q` says so. -/
structure Ending (V : Tid → Prop) (Q : Tid → Fd → Prop) (c : Tid) (g : Gfd) (s : Kernel) :
    Prop where
  fine : Fine c g s
  clear : ∀ j, (s.tasks j).live = true → V (fdOwnerTask s j) → Clear s j g
  ends : ∀ j, (s.tasks j).live = true → fdOwnerTask s j = c → ∀ d, Q j d →
    (s.tasks j).fdTable d ≠ some g

section
variable {V : Tid → Prop} {Q : Tid → Fd → Prop} {c : Tid} {g : Gfd} {s s' : Kernel}

section

variable (h : Ending V Q c g s)

include h

/-- Entries are only removed, and the owners stay. -/
theorem Ending.shrink (ha : Alike s s') (hsh : Shrinks s s') (howes : Owes s' g 0) :
    Ending V Q c g s' := by
  refine ⟨h.fine.alike ha howes, fun j hj hv d hd => ?_, fun j hj ho d hq hd => ?_⟩
  · rw [ha.live] at hj
    rw [ha.owner] at hv
    exact h.clear j hj hv d (hsh j d g hd)
  · rw [ha.live] at hj
    rw [ha.owner] at ho
    exact h.ends j hj ho d hq (hsh j d g hd)

/-- Closing keeps what holds while tasks end. -/
theorem Ending.closeFd (d : Fd) : Ending V Q c g (closeFd s c d) :=
  h.shrink (alike_closeFd s c d) (shrinks_closeFd s c d) (h.fine.closeFd d).owes

/-- One of the tasks ends. -/
theorem Ending.threadExit (hi : V i) (hc : i ≠ c) : Ending V Q c g (threadExit s i) := by
  have hsheds : ∀ j, (s.tasks j).live = true → fdOwnerTask s j = i → Clear s j g :=
    fun j hj ho => h.clear j hj (ho ▸ hi)
  refine ⟨⟨rooted_threadExit h.fine.rooted i, ?_, ?_⟩, fun j hj hv d => ?_, fun j hj ho d hq => ?_⟩
  · exact threadExit_live.mpr ⟨Ne.symm hc, h.fine.live⟩
  · unfold Owes
    rw [count_congr (entries_threadExit hsheds)]
    exact h.fine.owes
  · rw [threadExit_fdTable]
    have hlive := (threadExit_live.mp hj).2
    by_cases howner : fdOwnerTask s j = i
    · exact hsheds j hlive howner d
    · rw [owner_threadExit howner] at hv
      exact h.clear j hlive hv d
  · rw [threadExit_fdTable]
    have hlive := (threadExit_live.mp hj).2
    by_cases howner : fdOwnerTask s j = i
    · exact hsheds j hlive howner d
    · rw [owner_threadExit howner] at ho
      exact h.ends j hlive ho d hq

/-- A field that nothing here reads. -/
theorem Ending.setPml4 {t : Tid} {p : Nat} :
    Ending V Q c g (s.setTask t { s.tasks t with pml4 := p }) := by
  have ha : Alike s (s.setTask t { s.tasks t with pml4 := p }) := alike_setTask rfl
  have htab : ∀ i, ((s.setTask t { s.tasks t with pml4 := p }).tasks i).fdTable =
      (s.tasks i).fdTable := setTask_same rfl
  refine h.shrink ha (fun j d x hx => ?_) (h.fine.owes.same (ha.entries htab) rfl)
  rw [← htab j]
  exact hx

/-- One round of the loop of `release_prog_resource`. -/
theorem Ending.releaseFd (t : Tid) (d : Fd) : Ending V Q c g (releaseFd c t s d) := by
  unfold Fs.releaseFd
  split
  · exact h.closeFd d
  · exact h

/-- The whole loop. -/
theorem Ending.releaseProgResource (t : Tid) : Ending V Q c g (releaseProgResource s c t) :=
  foldlRecOn upperFds (Fs.releaseFd c t) h.setPml4 fun _ hs d _ => hs.releaseFd t d

/-- One child is killed, and it is not the current task. -/
theorem Ending.killOrphan (ht : V t) (hc : t ≠ c) : Ending V Q c g (killOrphan c s t) := by
  refine Ending.threadExit ?_ ht hc
  split
  · exact h
  · exact h.releaseProgResource t

end

/-- By induction over the victims. -/
theorem Ending.killOrphanChildren {parentPid : Int}
    (h : Ending (fun t => t ∈ orphans s parentPid) Q c g s) (hc : c ∉ orphans s parentPid) :
    Ending (fun t => t ∈ orphans s parentPid) Q c g (killOrphanChildren s c parentPid) :=
  foldlRecOn (orphans s parentPid) (Fs.killOrphan c) h
    fun _ hs _ ht => hs.killOrphan ht fun heq => hc (heq ▸ ht)

end

/-! ### `exit` -/

/-- The parents and the process ids stay. -/
def SameIds (s s' : Kernel) : Prop :=
  ∀ j, (s'.tasks j).parentPid = (s.tasks j).parentPid ∧ (s'.tasks j).ipid = (s.tasks j).ipid ∧
    (s'.tasks j).fdOwnerPid = (s.tasks j).fdOwnerPid

theorem SameIds.trans {s'' : Kernel} (h : SameIds s s') (h' : SameIds s' s'') : SameIds s s'' := by
  intro j
  obtain ⟨hpar, hip, how⟩ := h j
  obtain ⟨hpar', hip', how'⟩ := h' j
  exact ⟨hpar'.trans hpar, hip'.trans hip, how'.trans how⟩

theorem sameIds_setTask {t : FdTask}
    (h : t.parentPid = (s.tasks i).parentPid ∧ t.ipid = (s.tasks i).ipid ∧
      t.fdOwnerPid = (s.tasks i).fdOwnerPid) : SameIds s (s.setTask i t) :=
  fun j => ⟨setTask_same h.1 j, setTask_same h.2.1 j, setTask_same h.2.2 j⟩

/-- The calls of an exit touch neither pids nor owners. -/
theorem sameIds_closeFd {s : Kernel} {c : Tid} {d : Fd} : SameIds s (closeFd s c d) := by
  obtain h | ⟨x, -, -, h⟩ := closeFd_cases s c d
  · rw [h]
    exact fun _ => ⟨rfl, rfl, rfl⟩
  · rw [h]
    exact sameIds_setTask ⟨rfl, rfl, rfl⟩

theorem sameIds_releaseFd (c t : Tid) (s : Kernel) (d : Fd) : SameIds s (releaseFd c t s d) := by
  unfold releaseFd
  split
  · exact sameIds_closeFd
  · exact fun _ => ⟨rfl, rfl, rfl⟩

theorem sameIds_releaseProgResource {s : Kernel} {c t : Tid} :
    SameIds s (releaseProgResource s c t) := by
  have hbase : SameIds s (s.setTask t { s.tasks t with pml4 := 0 }) :=
    sameIds_setTask ⟨rfl, rfl, rfl⟩
  exact foldlRecOn upperFds (releaseFd c t) hbase
    fun s' hs d _ => hs.trans (sameIds_releaseFd c t s' d)

theorem sameIds_threadExit {s : Kernel} {i : Tid} : SameIds s (threadExit s i) :=
  sameIds_setTask ⟨rfl, rfl, rfl⟩

theorem sameIds_killOrphan {c : Tid} {s : Kernel} {t : Tid} : SameIds s (killOrphan c s t) := by
  unfold killOrphan
  split
  · exact sameIds_threadExit
  · exact sameIds_releaseProgResource.trans sameIds_threadExit

theorem sameIds_killOrphanChildren {s : Kernel} {c : Tid} {p : Int} :
    SameIds s (killOrphanChildren s c p) :=
  foldlRecOn (orphans s p) (killOrphan c) (fun _ => ⟨rfl, rfl, rfl⟩)
    fun _ hs _ _ => hs.trans sameIds_killOrphan

theorem mem_upperFds {d : Fd} : d ∈ upperFds ↔ ¬ d.val < 3 := by
  unfold upperFds
  rw [mem_filter, decide_eq_true_eq]
  exact ⟨fun h => by omega, fun h => ⟨mem_finRange d, by omega⟩⟩

/-- The loop of `release_prog_resource` over the current task itself leaves
no descriptor that it has passed. -/
theorem foldl_releaseFd_none (l : List Fd) (hl : ∀ d ∈ l, ¬ d.val < 3) (s : Kernel)
    (hown : (s.tasks c).fdOwnerPid = (s.tasks c).ipid) :
    ∀ d, d ∈ l ∨ (s.tasks c).fdTable d = none →
      ((l.foldl (releaseFd c c) s).tasks c).fdTable d = none := by
  induction l generalizing s with
  | nil =>
    intro d hd
    obtain hd | hd := hd
    · cases hd
    · exact hd
  | cons e l ih =>
    intro d hd
    have hids := sameIds_releaseFd c c s e c
    refine ih (fun d hd => hl d (mem_cons_of_mem e hd)) (releaseFd c c s e)
      (by rw [hids.2.1, hids.2.2]; exact hown) d ?_
    have howner : fdOwnerTask s c = c := fdOwnerTask_self (.inr hown)
    have hentry := closeFd_entry s c e
    rw [if_neg (hl e mem_cons_self), howner] at hentry
    -- the head is closed, or was free
    have hhead : ((releaseFd c c s e).tasks c).fdTable e = none := by
      unfold releaseFd
      split
      · exact hentry
      next hno =>
        by_cases hnone : (s.tasks c).fdTable e = none
        · exact hnone
        · exact absurd ⟨hown, hnone⟩ hno
    have hkeep : (s.tasks c).fdTable d = none → ((releaseFd c c s e).tasks c).fdTable d = none := by
      intro hnone
      cases hx : ((releaseFd c c s e).tasks c).fdTable d with
      | none => rfl
      | some x =>
        unfold releaseFd at hx
        split at hx
        · rw [shrinks_closeFd s c e c d x hx] at hnone
          cases hnone
        · rw [hx] at hnone
          cases hnone
    obtain hmem | hnone := hd
    · obtain rfl | hmem := mem_cons.mp hmem
      · exact .inr hhead
      · exact .inl hmem
    · exact .inr (hkeep hnone)

/-- A task that releases its own table leaves no upper descriptor. -/
theorem releaseProgResource_none {d : Fd} (hown : (s.tasks c).fdOwnerPid = (s.tasks c).ipid)
    (hd : ¬ d.val < 3) : ((releaseProgResource s c c).tasks c).fdTable d = none := by
  unfold releaseProgResource
  refine foldl_releaseFd_none upperFds (fun d hd => mem_upperFds.mp hd) _ ?_ d
    (.inl (mem_upperFds.mpr hd))
  rw [setTask_tasks_self]
  exact hown

/-- `g` is counted in a state of consistent owners. -/
structure Sound (g : Gfd) (s : Kernel) : Prop where
  rooted : Rooted s
  owes : Owes s g 0

/-- Between two calls nothing is owed. -/
theorem Fine.sound (h : Fine c g s) : Sound g s := ⟨h.rooted, h.owes⟩

/-- A task may die when nobody's table with an entry for the slot goes with it. -/
theorem Sound.threadExit (h : Sound g s)
    (hclear : ∀ j, (s.tasks j).live = true → fdOwnerTask s j = i → Clear s j g) :
    Sound g (threadExit s i) := by
  refine ⟨rooted_threadExit h.rooted i, ?_⟩
  unfold Owes
  rw [count_congr (entries_threadExit hclear)]
  exact h.owes

theorem setTask_files (s : Kernel) (i : Tid) (t : FdTask) : (s.setTask i t).files = s.files := rfl

/-- What stays when a task becomes a zombie. -/
theorem hanging_same {s : Kernel} {t i : Tid} :
    ((s.setTask t { s.tasks t with status := .hanging }).tasks i).fdTable = (s.tasks i).fdTable ∧
      ((s.setTask t { s.tasks t with status := .hanging }).tasks i).parentPid =
        (s.tasks i).parentPid :=
  ⟨setTask_same (by rfl) i, setTask_same (by rfl) i⟩

/-- A live task becomes a zombie. -/
theorem alike_hanging (h : (s.tasks t).live = true) :
    Alike s (s.setTask t { s.tasks t with status := .hanging }) := by
  refine alike_setTask ?_
  unfold key
  rw [h]
  unfold FdTask.live at h ⊢
  rw [Bool.and_eq_true] at h
  simp only [h.1]
  rfl

/-- No child of the process `p` is in the way: neither `c` itself, nor one
that a task with an entry for `g` takes its table from. -/
def Childless (s : Kernel) (c : Tid) (p : Int) (g : Gfd) : Prop :=
  (s.tasks c).parentPid ≠ p ∧
    ∀ j, (s.tasks j).live = true → (s.tasks (fdOwnerTask s j)).parentPid = p → Clear s j g
  deriving Decidable

/-- The victims of `kill_orphan_children`. -/
theorem mem_orphans {p : Int} :
    t ∈ orphans s p ↔ (s.tasks t).live = true ∧ (s.tasks t).parentPid = p := by
  unfold orphans
  rw [mem_filter, Bool.and_eq_true, decide_eq_true_eq]
  exact ⟨fun h => h.2, fun h => ⟨mem_finRange t, h⟩⟩

/-- The entries that stay in a table when `c` exits: all of them, but for
the upper descriptors of its own. -/
def Stays (s : Kernel) (c j : Tid) (d : Fd) : Prop :=
  (s.tasks c).parentPid < 0 ∧
    (d.val < 3 ∨ j ≠ c ∨ (s.tasks c).fdOwnerPid ≠ (s.tasks c).ipid)
  deriving Decidable

/-- What an exit asks: nothing of its children, and where the task ends at
once, no entry for `g` that stays in a table that used `c`'s. -/
@[mk_iff]
structure Leaves (s : Kernel) (c : Tid) (g : Gfd) : Prop where
  childless : Childless s c (s.tasks c).ipid g
  ends : ∀ j, (s.tasks j).live = true → fdOwnerTask s j = c → ∀ d, Stays s c j d →
    (s.tasks j).fdTable d ≠ some g

/-- Exit: the children go first, then the own descriptors, then the task. -/
theorem Fine.procExit (h : Fine c g s) (hl : Leaves s c g) : Sound g (procExit s c) := by
  have hending : Ending (fun t => t ∈ orphans s (s.tasks c).ipid) (Stays s c) c g s :=
    ⟨h, fun j hj hv => hl.childless.2 j hj (mem_orphans.mp hv).2, hl.ends⟩
  have hkill := hending.killOrphanChildren fun hc => hl.childless.1 (mem_orphans.mp hc).2
  have hrel := hkill.releaseProgResource c
  have hids : SameIds s (releaseProgResource (killOrphanChildren s c (s.tasks c).ipid) c c) :=
    sameIds_killOrphanChildren.trans sameIds_releaseProgResource
  unfold Fs.procExit
  dsimp only
  split
  next hneg =>
    refine hrel.fine.sound.threadExit fun j hj ho d => ?_
    rw [(hids c).1] at hneg
    by_cases hstays : Stays s c j d
    · exact hrel.ends j hj ho d hstays
    -- a descriptor of the task itself, which has been closed
    have hupper : ¬ d.val < 3 ∧ j = c ∧ (s.tasks c).fdOwnerPid = (s.tasks c).ipid := by
      refine ⟨fun hd => hstays ⟨hneg, .inl hd⟩, ?_, ?_⟩
      · exact Decidable.not_not.mp fun hj => hstays ⟨hneg, .inr (.inl hj)⟩
      · exact Decidable.not_not.mp fun hp => hstays ⟨hneg, .inr (.inr hp)⟩
    obtain ⟨hd, rfl, hown⟩ := hupper
    obtain ⟨-, hip, how⟩ := sameIds_killOrphanChildren j
    rw [releaseProgResource_none (by rw [hip, how]; exact hown) hd]
    exact fun hx => by cases hx
  next =>
    have ha := alike_hanging hrel.fine.live
    have hent := ha.entries fun i => hanging_same.1
    exact (hrel.fine.alike ha (hrel.fine.owes.same hent (congrFun (setTask_files ..) g))).sound

/-! ### `kill` -/

/-- What a kill asks: nothing of the children of the task it ends. -/
def Spares (s : Kernel) (c : Tid) (pid : Nat) (g : Gfd) : Prop :=
  ∀ t, (s.tasks t).live = true → (s.tasks t).pid = pid → Childless s c (s.tasks t).ipid g
  deriving Decidable

/-- Killing another task keeps the counts if nothing of its family refers to the slot. -/
theorem Fine.threadKillPid (h : Fine c g s) {pid : Nat} (hs : Spares s c pid g) :
    Fine c g (threadKillPid s c pid) := by
  unfold Fs.threadKillPid
  split
  · exact h
  next t hfind =>
    split
    · exact h
    next hdead =>
      have ht := find?_some hfind
      rw [Bool.and_eq_true, beq_iff_eq] at ht
      have hlive : (s.tasks t).live = true := by
        unfold FdTask.live
        rw [ht.1]
        have hmask : (s.tasks t).status.deadMask = false :=
          Bool.of_not_eq_true fun hm => hdead (.inl hm)
        cases hst : (s.tasks t).status <;> rw [hst] at hmask <;> first | rfl | cases hmask
      have ha := alike_hanging hlive
      have hfine := h.alike ha (h.owes.same (ha.entries fun i => hanging_same.1) rfl)
      obtain ⟨hnot, hchild⟩ := hs t hlive ht.2
      have hending : Ending (fun i => i ∈ orphans
          (s.setTask t { s.tasks t with status := .hanging }) (s.tasks t).ipid) (fun _ _ => False)
          c g (s.setTask t { s.tasks t with status := .hanging }) := by
        refine ⟨hfine, fun j hj hv d => ?_, fun _ _ _ _ hf => hf.elim⟩
        rw [hanging_same.1]
        rw [ha.live] at hj
        have hparent := (mem_orphans.mp hv).2
        rw [hanging_same.2, ha.owner] at hparent
        exact hchild j hj hparent d
      refine (hending.killOrphanChildren fun hc => hnot ?_).fine
      have hparent := (mem_orphans.mp hc).2
      rwa [hanging_same.2] at hparent

/-! ### `execve` -/

/-- What an `execve` asks of the tasks that share the address space. -/
def Detachable (s : Kernel) (c : Tid) (g : Gfd) : Prop :=
  ∀ j, (s.tasks j).live = true → fdOwnerTask s j ∈ sharers s c → Clear s j g
  deriving Decidable

section
variable {V : Tid → Prop} {Q : Tid → Fd → Prop} {c : Tid} {g : Gfd} {s : Kernel}

/-- The tasks of `V` with a table of their own have no entry for `g`. -/
def OwnClear (V : Tid → Prop) (g : Gfd) (s : Kernel) : Prop :=
  ∀ t, V t → (s.tasks t).fdOwnerPid = (s.tasks t).ipid → Clear s t g

/-- Fewer entries are still none. -/
theorem OwnClear.shrink (h : OwnClear V g s) (hids : SameIds s s') (hsh : Shrinks s s') :
    OwnClear V g s' := by
  intro t ht hown d hd
  rw [(hids t).2.1, (hids t).2.2] at hown
  exact h t ht hown d (hsh t d g hd)

theorem shrinks_setTask {t : FdTask}
    (h : ∀ d x, t.fdTable d = some x → (s.tasks i).fdTable d = some x) :
    Shrinks s (s.setTask i t) := by
  intro j d x hx
  by_cases hj : j = i
  · subst hj
    rw [setTask_tasks_self] at hx
    exact h d x hx
  · rwa [setTask_tasks_of_ne hj] at hx

/-- An entry of a table with one entry taken out. -/
theorem update_none_some {t : Fd → Option Gfd} {d e : Fd} {x : Gfd}
    (h : update t d none e = some x) : t e = some x := by
  by_cases he : e = d
  · subst he
    rw [update_self] at h
    cases h
  · rwa [update_of_ne he] at h

/-- One descriptor of a thread that `execve` ends. -/
theorem Ending.detachFd (h : Ending V Q c g s) (hown : OwnClear V g s) (ht : V t) (d : Fd) :
    Ending V Q c g (Fs.detachFd t s d) ∧ OwnClear V g (Fs.detachFd t s d) := by
  have ha : Alike s (Fs.detachFd t s d) := alike_setTask rfl
  have hsh : Shrinks s (Fs.detachFd t s d) := shrinks_setTask fun e x hx => update_none_some hx
  have hfile : (Fs.detachFd t s d).files g = s.files g := by
    unfold Fs.detachFd
    dsimp only
    split
    · rfl
    next x hx =>
      split
      next hdrop =>
        -- the slot is another one
        have hne : g ≠ x := by
          rintro rfl
          exact hown t ht hdrop.1 d hx
        exact update_of_ne hne ..
      next => rfl
  have hent : entries (Fs.detachFd t s d) = entries (writeFd s t d none) :=
    Alike.entries (fun _ => rfl) fun _ => rfl
  refine ⟨h.shrink ha hsh ?_, hown.shrink (sameIds_setTask ⟨rfl, rfl, rfl⟩) hsh⟩
  rw [entries_writeFd] at hent
  by_cases howns : owns s t
  · rw [if_pos howns] at hent
    refine h.fine.owes.write hent hfile ?_
    have hclear := h.clear t howns.1 (by rw [howns.2]; exact ht) d
    rw [entries_of_owns howns, if_neg hclear, if_neg fun hx => by cases hx]
  · rw [if_neg howns] at hent
    exact h.fine.owes.same hent hfile

/-- The loop over the descriptors of the thread. -/
theorem Ending.detachTask (h : Ending V Q c g s) (hown : OwnClear V g s) (ht : V t) (hc : t ≠ c) :
    Ending V Q c g (detachTask s t) ∧ OwnClear V g (detachTask s t) := by
  have hown0 : OwnClear V g (s.setTask t { s.tasks t with pml4 := 0 }) :=
    hown.shrink (sameIds_setTask ⟨rfl, rfl, rfl⟩) (shrinks_setTask fun _ _ hx => hx)
  have hloop := foldlRecOn
    (motive := fun s' => Ending V Q c g s' ∧ OwnClear V g s') upperFds (Fs.detachFd t)
    ⟨h.setPml4, hown0⟩ fun s' hs d _ => hs.1.detachFd hs.2 ht d
  refine ⟨hloop.1.threadExit ht hc, hloop.2.shrink (sameIds_setTask ⟨rfl, rfl, rfl⟩) ?_⟩
  exact shrinks_setTask fun _ _ hx => hx

end

/-- The threads that `execve` ends are alive, and not the caller. -/
theorem mem_sharers (h : t ∈ sharers s c) : t ≠ c ∧ (s.tasks t).live = true := by
  unfold sharers at h
  rw [mem_filter, Bool.and_eq_true, Bool.and_eq_true, decide_eq_true_eq] at h
  exact h.2.1

/-- By induction over the threads. -/
theorem Fine.spaceDetachOthers (h : Fine c g s) (hd : Detachable s c g) :
    Fine c g (spaceDetachOthers s c) := by
  unfold Fs.spaceDetachOthers
  split
  · exact h
  have hending : Ending (fun t => t ∈ sharers s c) (fun _ _ => False) c g s :=
    ⟨h, fun j hj hv => hd j hj hv, fun _ _ _ _ hf => hf.elim⟩
  have hown : OwnClear (fun t => t ∈ sharers s c) g s := by
    intro t ht heq
    have howner : fdOwnerTask s t = t := fdOwnerTask_self (.inr heq)
    exact hd t (mem_sharers ht).2 (by rw [howner]; exact ht)
  have hloop := foldlRecOn
    (motive := fun s' => Ending (fun t => t ∈ sharers s c) (fun _ _ => False) c g s' ∧
      OwnClear (fun t => t ∈ sharers s c) g s') (sharers s c) Fs.detachTask
    ⟨hending, hown⟩ fun s' hs t ht => hs.1.detachTask hs.2 ht (mem_sharers ht).1
  exact hloop.1.fine

/-- The loop over the close-on-exec descriptors. -/
theorem Fine.closeOnExec (h : Fine c g s) : Fine c g (closeOnExec s c) := by
  refine foldlRecOn upperFds (closeOnExecFd c) h fun s' hs d _ => ?_
  unfold closeOnExecFd
  split
  · exact (hs.setCloexec c d false).closeFd d
  · exact hs

/-- The descriptor of the interpreter is opened and closed. -/
theorem Fine.withInterp (h : Fine c g s) (r : Option OpenResult) :
    Fine c g (withInterp s c r).2 := by
  unfold Fs.withInterp
  split
  · exact h
  next r =>
    have hopen := h.openFile r
    split
    next heq =>
      rw [heq] at hopen
      exact hopen
    next heq =>
      rw [heq] at hopen
      exact hopen.closeFd _

/-- `execve`, whether it succeeds or not. -/
theorem Fine.sysExecve (h : Fine c g s) (hd : Detachable s c g) (e : ExecEnv) :
    Fine c g (sysExecve s c e) := by
  have hopen := (h.spaceDetachOthers hd).openFile e.image
  unfold Fs.sysExecve
  split
  next heq =>
    rw [heq] at hopen
    exact hopen
  next d s1 heq =>
    rw [heq] at hopen
    have hclose := (hopen.withInterp e.interp).closeFd d
    dsimp only
    split
    · exact hclose.closeOnExec
    · exact hclose

end CoreZ.Proofs.Fs.File
