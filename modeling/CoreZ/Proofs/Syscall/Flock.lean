import CoreZ.Syscall.Flock

/-!
# `CoreZ.Proofs.Syscall.Flock`: what file locks exclude, and who drops them

An exclusive lock of one process never stands beside a lock of another. But a
process can lose a lock that it did not give up: the last `close_file` of an
open file drops the locks of all processes on the inode, though others have it
open too. `flock_locks` says that nothing else takes a lock away.
-/

set_option autoImplicit false

namespace CoreZ.Proofs.Syscall.Flock

open CoreZ.Syscall.Flock
open CoreZ.Fs (Gfd Tid Kernel fdLocal2global)
open CoreZ.Lib (run Along run_invariant)

/-- No inode has an exclusive lock of a process and a lock of another. -/
def Exclusive (tab : FlockTab) : Prop :=
  ∀ i j, (tab i).mode = 2 → (tab j).on (tab i).ino → (tab j).pid = (tab i).pid

/-- The process holds a lock on the inode. -/
def Holds (tab : FlockTab) (pid : Int) (ino : Nat) : Prop :=
  ∃ i, (tab i).on ino ∧ (tab i).pid = pid

/-- The process has a descriptor for the inode. -/
def Refers (s : State) (pid : Int) (ino : Nat) : Prop :=
  ∃ c d g, (s.kernel.tasks c).live ∧ (s.kernel.tasks c).fdOwnerPid = pid ∧
    fdLocal2global s.kernel c d = some g ∧ s.inode g = some ino ∧ s.pipe g = false

/-- The process unlocks the inode, or has closed its last descriptor for it. -/
def GivesUp (s : State) (e : Event) (pid : Int) (ino : Nat) : Prop :=
  ∃ c, e = .go c ∧ ((∃ b, s.pc c = .flock ino b pid ∧ b % 16 = 8) ∨
    s.pc c = .release ino pid ∧ ¬ Refers s pid ino)

/-- Who holds a lock before the step holds it after, or gives it up. -/
def Keeps (s : State) (e : Event) : Prop :=
  ∀ s' pid ino, step s e = some s' → Holds s.tab pid ino →
    Holds s'.tab pid ino ∨ GivesUp s e pid ino

/-- When an open file goes, every lock on its inode is of the process that
closed it, which has no other descriptor for the inode. -/
def Alone (s : State) (e : Event) : Prop :=
  ∀ c ino pid q, e = .go c → s.pc c = .release ino pid → Holds s.tab q ino →
    q = pid ∧ ¬ Refers s pid ino

variable {s s' : State} {e : Event} {tab : FlockTab} {ino n op b : Nat} {pid q : Int}

/-- Only the section of a call changes the table. -/
theorem step_tab (h : step s e = some s') :
    s'.tab = s.tab ∨ ∃ c, e = .go c ∧ s'.tab = (advance s.tab (s.pc c)).1 := by
  cases e with
  | go c => cases h; exact .inr ⟨c, rfl, rfl⟩
  | other => cases h; exact .inl rfl
  | flock | close =>
    left
    simp only [step] at h
    repeat' split at h
    all_goals cases h
    all_goals rfl

/-- A lock is taken in a free slot, or in the slot it had. -/
theorem take_cases {tab : FlockTab} {ino op : Nat} {pid : Int} :
    take tab ino op pid = tab ∨ ∃ i, take tab ino op pid = Function.update tab i ⟨ino, op, pid⟩ ∧
      ((tab i).on ino ∧ (tab i).pid = pid ∨ (tab i).mode = 0) := by
  unfold take
  split
  next i hi =>
    refine .inr ⟨i, rfl, (Option.or_eq_some_iff.mp hi).imp (fun h => ?_) fun h => ?_⟩
    · simpa using List.find?_some h
    · simpa using List.find?_some h.2
  next => exact .inl rfl

/-- Dropping locks keeps the exclusion. -/
theorem Exclusive.unlock (h : Exclusive tab) (drop : Int → Bool) :
    Exclusive (unlock tab ino drop) := by
  intro i j
  simp only [Syscall.Flock.unlock]
  split <;> split
  · simp
  · simp
  · simp [Lock.on]
  · exact h i j

/-- So does a lock that is in conflict with none. -/
theorem Exclusive.take (h : Exclusive tab) (hfree : ¬ flockConflict tab ino op pid) :
    Exclusive (take tab ino op pid) := by
  have hother : ∀ j, (tab j).on ino → (tab j).mode = 2 ∨ op = 2 → (tab j).pid = pid := by
    intro j hon hmode
    by_contra hne
    exact hfree (List.any_eq_true.mpr ⟨j, List.mem_finRange j, by simp_all⟩)
  obtain heq | ⟨i, heq, -⟩ := take_cases <;> rw [heq]
  · exact h
  intro a b
  by_cases ha : a = i <;> by_cases hb : b = i <;>
    simp only [ha, hb, Function.update_self, ne_eq, not_false_eq_true, Function.update_of_ne]
  · simp
  · exact fun hmode hon => hother b hon (.inr hmode)
  · intro hmode hon
    simp [Lock.on] at hon
    exact (hother a (by simp [Lock.on, hmode, hon]) (.inl hmode)).symm
  · exact h a b

/-- Every section of a call keeps it. -/
theorem Exclusive.advance (h : Exclusive tab) : ∀ pc, Exclusive (advance tab pc).1
  | .idle => h
  | .release .. => h.unlock _
  | .flock .. => by
    simp only [Syscall.Flock.advance, lcFlock]
    split
    · exact h.unlock _
    split
    · exact h
    split
    · exact h
    next hfree => exact h.take hfree

/-- Who still holds a lock. -/
theorem Holds.unlock (h : Holds tab q n) (drop : Int → Bool) :
    Holds (unlock tab ino drop) q n ∨ n = ino ∧ drop q := by
  obtain ⟨i, hon, rfl⟩ := h
  by_cases hi : ((tab i).on ino && drop (tab i).pid) = true
  · simp [Lock.on] at hon hi
    exact .inr ⟨hon.2.symm.trans hi.1.2, hi.2⟩
  · exact .inl ⟨i, by simp [Syscall.Flock.unlock, hi, hon]⟩

/-- Taking a lock takes none away. -/
theorem Holds.take (h : Holds tab q n) (hop : op ≠ 0) : Holds (take tab ino op pid) q n := by
  obtain heq | ⟨i, heq, hi⟩ := take_cases <;> rw [heq]
  · exact h
  obtain ⟨j, hon, rfl⟩ := h
  by_cases hj : j = i
  · subst hj
    exact ⟨j, by simp_all [Lock.on]⟩
  · exact ⟨j, by simp [hj, hon]⟩

/-- The call takes away the caller's own lock only. -/
theorem Holds.lcFlock (h : Holds tab q n) :
    Holds (lcFlock tab ino b pid).1 q n ∨ b % 16 = 8 ∧ n = ino ∧ q = pid := by
  unfold Syscall.Flock.lcFlock
  split
  next hb => exact (h.unlock _).imp_right fun hn => ⟨hb, hn.1, by simpa using hn.2⟩
  left
  split
  · exact h
  split
  · exact h
  · exact h.take (by omega)

/-- `close_file` drops the locks of all on the inode. -/
theorem not_holds_release : ¬ Holds (flockReleaseIno tab ino) q ino := by
  rintro ⟨i, hon, -⟩
  simp only [flockReleaseIno, unlock] at hon
  split at hon <;> simp_all [Lock.on]

/-- A step takes no lock away exactly when who closes is alone on the inode. -/
theorem keeps_iff_alone {s : State} {e : Event} : Keeps s e ↔ Alone s e := by
  constructor
  · rintro h c ino pid q rfl hpc hq
    obtain hheld | ⟨c', hc, hgive⟩ := h _ q ino rfl hq
    · rw [hpc] at hheld
      exact absurd hheld not_holds_release
    · cases hc
      rw [hpc] at hgive
      obtain ⟨_, hflock, -⟩ | ⟨hrel, hlast⟩ := hgive
      · cases hflock
      · cases hrel
        exact ⟨rfl, hlast⟩
  · intro h s' q n hs hq
    obtain htab | ⟨c, rfl, htab⟩ := step_tab hs <;> rw [htab]
    · exact .inl hq
    cases hpc : s.pc c with
    | idle => exact .inl hq
    | flock ino b pid =>
      refine hq.lcFlock.imp_right fun hgive => ?_
      obtain ⟨hb, rfl, rfl⟩ := hgive
      exact ⟨c, rfl, .inl ⟨b, hpc, hb⟩⟩
    | release ino pid =>
      refine (hq.unlock _).imp_right fun hn => ?_
      obtain ⟨rfl, -⟩ := hn
      obtain ⟨rfl, hlast⟩ := h c _ pid q rfl hpc hq
      exact ⟨c, rfl, .inr ⟨hpc, hlast⟩⟩

/-- Every event keeps the exclusion. -/
theorem step_exclusive (h : Exclusive s.tab) (hs : step s e = some s') : Exclusive s'.tab := by
  obtain htab | ⟨c, -, htab⟩ := step_tab hs <;> rw [htab]
  · exact h
  · exact h.advance _

/-- In every run the locks exclude each other. No process loses a lock that it
does not give up exactly when no close drops a lock of another process, or of
one that still has the file open. -/
theorem flock_locks (kernel : Kernel) (inode : Gfd → Option Nat) (pipe : Gfd → Bool)
    (es : List Event) :
    (∀ s, run step (start kernel inode pipe) es = some s → Exclusive s.tab) ∧
      (Along step Keeps (start kernel inode pipe) es ↔
        Along step Alone (start kernel inode pipe) es) :=
  ⟨fun _ => run_invariant (fun _ _ _ h hs => step_exclusive h hs)
      fun _ _ h => (nomatch h),
    .mono fun _ _ => keeps_iff_alone.mp, .mono fun _ _ => keeps_iff_alone.mpr⟩

/-- Every task is a process with its own open file behind descriptor 3. -/
def openers : State :=
  start ⟨fun _ => ⟨1, true⟩, fun i => ⟨true, i.val + 1, 0, .ready, i.val + 1,
    fun d => if d.val = 3 then some ⟨i.val, Nat.lt_trans i.isLt (by decide)⟩ else none,
    fun _ => false, 1⟩, 65⟩
    (fun _ => some 7) fun _ => false

def locker : Tid := ⟨2, by decide⟩

def closer : Tid := ⟨1, by decide⟩

/-- One process locks the file; another, with an open file of its own, closes it. -/
theorem not_keeps_closer :
    ¬ Along step Keeps openers [.flock locker 3 2, .go locker, .close closer 3, .go closer] := by
  intro h
  have hlast := (((h.2 _ rfl).2 _ rfl).2 _ rfl).1
  have halone := keeps_iff_alone.mp hlast closer 7 2 3 rfl rfl ⟨0, by decide, by decide⟩
  exact absurd halone.1 (by decide)

end CoreZ.Proofs.Syscall.Flock
