import CoreZ.Proofs.Fs.File.Tasks

/-!
# `CoreZ.Proofs.Fs.File.Runs`: the counts over whole runs

`Counted` is not an invariant. `close_file` does nothing below descriptor 3,
so that `dup2` onto a standard descriptor overwrites an entry whose reference
stays; `sys_fd_redirect` counts nothing; a failed `clone` drops references
that a shared table never took; the end of a task drops the references of
the descriptors from 3 on at most, a kill none, and the orphans that an exit
ends close the descriptors of the task that exits instead of their own.

`run_counted` is what holds: a slot stays counted in every run whose events
are `Careful` with it. The start is any state with consistent owners. In the
state after the boot it holds for the slots from 3 on.
-/

set_option autoImplicit false

namespace CoreZ.Proofs.Fs.File

open CoreZ.Fs CoreZ.Lib CoreZ.Lib.RefCount
open CoreZ.Userprog (toInt32)

/-- No task that uses the table of `t` has an entry for `g`. -/
def Sheds (s : Kernel) (t : Tid) (g : Gfd) : Prop :=
  ∀ j, (s.tasks j).live = true → fdOwnerTask s j = t → Clear s j g
  deriving Decidable

/-- The condition of an event, in the state before it. -/
def Careful (g : Gfd) (s : Kernel) : Event → Prop
  | .dup2 c oldfd newfd => ¬ Overwrites s c oldfd newfd g
  | .dup3 c oldfd newfd _ => ¬ Overwrites s c oldfd newfd g
  | .fdRedirect c oldLocal newLocal _ => Redirects s c oldLocal newLocal g
  | .fork c _ => PidFree s (toInt32 s.pidAlloc) ∧
      ∀ d, (s.tasks c).fdTable d = some g → (s.files g).used = true
  | .clone c flags e => PidFree s (toInt32 s.pidAlloc) ∧ Clonable s c flags e g
  | .execve c _ => Detachable s c g
  | .exit c => Leaves s c g
  | .kill c pid => Spares s c pid g
  | .wait _ t => Sheds s t g
  | _ => True

section
variable (g : Gfd) (s : Kernel) (c : Tid)

instance : Decidable (Leaves s c g) := decidable_of_iff' _ (leaves_iff s c g)

instance : ∀ e : Event, Decidable (Careful g s e)
  | .dup2 .. | .dup3 .. => inferInstanceAs (Decidable (¬ _))
  | .fdRedirect .. => inferInstanceAs (Decidable (Redirects ..))
  | .fork .. | .clone .. => inferInstanceAs (Decidable (_ ∧ _))
  | .execve c _ => inferInstanceAs (Decidable (Detachable s c g))
  | .exit c => inferInstanceAs (Decidable (Leaves s c g))
  | .kill c pid => inferInstanceAs (Decidable (Spares s c pid g))
  | .wait _ t => inferInstanceAs (Decidable (Sheds s t g))
  | .openFile .. | .closeFile .. | .dup .. | .fcntl .. | .pipe2 .. | .reap .. => isTrue trivial

end

theorem live_of_canRun {t : FdTask} (h : t.canRun = true) : t.live = true := by
  unfold FdTask.canRun at h
  unfold FdTask.live
  rw [Bool.and_eq_true] at h ⊢
  refine ⟨h.1, ?_⟩
  cases hst : t.status with
  | died =>
    rw [hst] at h
    cases h.2
  | _ => rfl

/-- The slot of a task that has ended is given back. -/
theorem Sound.reapDied {g : Gfd} {s : Kernel} (h : Sound g s) (t : Tid) :
    Sound g (reapDied s t) := by
  unfold CoreZ.Fs.reapDied
  split
  next hdied =>
    have ha : Alike s (s.setTask t { s.tasks t with slotUsed := false, pml4 := 0 }) := by
      refine alike_setTask ?_
      simp [key, FdTask.live, FdTask.ipid, hdied]
    exact ⟨ha.rooted h.rooted, h.owes.same (ha.entries (setTask_same rfl)) rfl⟩
  next => exact h

/-- One event. -/
theorem step_sound {g : Gfd} {s s' : Kernel} {e : Event} (h : Sound g s) (hcare : Careful g s e)
    (hstep : step s e = some s') : Sound g s' := by
  unfold step at hstep
  split at hstep
  next hrun =>
    cases hstep
    have hfine : Fine e.task g s := ⟨h.rooted, live_of_canRun hrun, h.owes⟩
    cases e with
    | openFile c r => exact (hfine.openFile r).sound
    | closeFile c fd => exact (hfine.closeFile fd).sound
    | dup c oldfd => exact (hfine.sysDupFrom oldfd 3).sound
    | dup2 c oldfd newfd => exact (hfine.sysDup2 hcare).sound
    | dup3 c oldfd newfd cloexec => exact (hfine.lcDup3 hcare cloexec).sound
    | fcntl c fd cmd arg => exact (hfine.sysFcntl fd cmd arg).sound
    | pipe2 c page cloexec => exact (hfine.lcPipe2 page cloexec).sound
    | fdRedirect c oldLocal newLocal wild => exact (hfine.sysFdRedirect hcare wild).sound
    | fork c env => exact (hfine.sysFork hcare.1 hcare.2 env).sound
    | clone c flags env => exact (hfine.sysCloneEx hcare.1 hcare.2).sound
    | execve c env => exact (hfine.sysExecve hcare env).sound
    | exit c => exact hfine.procExit hcare
    | kill c pid => exact (hfine.threadKillPid hcare).sound
    | wait c t =>
      show Sound g (reapChild s c t)
      unfold reapChild
      split
      · exact h.threadExit hcare
      · exact h
    | reap c t => exact h.reapDied t
  next => cases hstep

/-- In a run whose events are all careful with the slot `g`, the slot stays
counted. -/
theorem run_counted (g : Gfd) (s t : Kernel) (events : List Event) (hroot : Rooted s)
    (hcount : Counted s g) (hcare : Along step (Careful g) s events)
    (hrun : run step s events = some t) : Counted t g := by
  have hsound : Sound g s := ⟨hroot, counted_iff_owes.mp hcount⟩
  have hend := run_invariant_of_along
    (fun s e s' hs hc hstep => step_sound hs hc hstep) events s t hsound hcare hrun
  exact counted_iff_owes.mpr hend.owes

/-! ### The boot state -/

theorem rooted_boot : Rooted boot := by
  have hpid : ∀ k : Tid, ((k.val : Nat) : Int) = toInt32 k.val := by decide
  intro c k _ _ _ _
  exact hpid k

/-- From slot 3 on, the state after the boot is counted. -/
theorem counted_boot {g : Gfd} (hg : ¬ g.val < 3) : Counted boot g := by
  have hzero : count (entries boot) g = 0 := by
    rw [count_eq_zero_iff (finite_entries boot)]
    rintro ⟨i, d⟩ hk
    unfold entries at hk
    split at hk
    · have hk : initFdTable d = some g := hk
      unfold initFdTable at hk
      split at hk
      next hd =>
        have hval := congrArg Fin.val (Option.some.inj hk)
        exact hg (by rw [← hval]; exact hd)
      next => cases hk
    · cases hk
  have hfile : boot.files g = ⟨0, false⟩ := if_neg hg
  unfold Counted
  rw [hzero, hfile]
  exact ⟨rfl, fun _ => rfl, fun _ => rfl⟩

/-- The main task. -/
def main : Tid := ⟨0, by decide⟩

/-- The first task that is made after the boot. -/
def child : Tid := ⟨5, by decide⟩

/-- A file is opened, duplicated and closed again, beside a pipe and a
clone. -/
def carefulRun : List Event :=
  [.openFile main .opened, .dup main 3, .pipe2 main true false, .dup2 main 3 9,
    .clone main ⟨false, false, false⟩ ⟨true, 1, true, true⟩, .closeFile child 3,
    .closeFile main 4]

theorem carefulRun_along : Along step (Careful 3) boot carefulRun := by
  decide +kernel

/-- Four entries of two tables refer to the slot in the end. -/
theorem run_counted_boot :
    Rooted boot ∧ Counted boot 3 ∧ Along step (Careful 3) boot carefulRun ∧
      ∃ t, run step boot carefulRun = some t ∧ (t.files 3).refCnt = 4 ∧ Counted t 3 := by
  have hcount : Counted boot 3 := counted_boot (by decide)
  refine ⟨rooted_boot, hcount, carefulRun_along, exists_of_any
    (by decide +kernel) fun t ht href => ⟨href, ?_⟩⟩
  exact run_counted 3 boot t carefulRun rooted_boot hcount carefulRun_along ht

/-- Standard output goes to a file and back, as a shell does it. -/
def redirectRun : List Event :=
  [.openFile main .opened, .dup2 main 3 1, .closeFile main 3, .dup2 main 0 1]

/-- The second `dup2` overwrites the last entry for the file; its slot keeps
a reference and is never free again. -/
theorem not_counted_redirect :
    Counted boot 3 ∧ ∃ t, run step boot redirectRun = some t ∧ ¬ Counted t 3 := by
  refine ⟨counted_boot (by decide), exists_of_any (P := fun t => (t.files 3).refCnt = 1 ∧
    ∀ i d, (t.tasks i).fdTable d ≠ some 3) (by decide +kernel) fun t ht hleak hcount => ?_⟩
  have hzero : count (entries t) 3 = 0 := by
    rw [count_eq_zero_iff (finite_entries t)]
    rintro ⟨i, d⟩ hk
    unfold entries at hk
    split at hk
    · exact hleak.2 i d hk
    · cases hk
  rw [hcount.1, hzero] at hleak
  cases hleak.1

end CoreZ.Proofs.Fs.File
