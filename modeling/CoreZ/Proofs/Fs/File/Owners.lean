import CoreZ.Fs.File
import CoreZ.Lib.RefCount

/-!
# `CoreZ.Proofs.Fs.File.Owners`: who uses which descriptor table

`entries` are the entries of the tables that are in use: those of the live
tasks that are their own `fdOwnerTask`. Whether a task is its own owner
depends on three values of each task (`key`), so that writing an entry
changes nothing (`Alike`), the end of a task leaves a table only to the
tasks that used its own (`owner_threadExit`), and a new task takes no table
from another as long as its process id is new (`owner_spawn`).
-/

set_option autoImplicit false

namespace CoreZ.Proofs.Fs.File

open CoreZ.Fs
open Function

/-! ### Tables in use -/

/-- A live task with a table of its own. -/
def owns (s : Kernel) (i : Tid) : Prop := (s.tasks i).live = true ∧ fdOwnerTask s i = i
  deriving Decidable

/-- The entries of the tables in use. -/
def entries (s : Kernel) : Tid × Fd → Option Gfd :=
  fun k => if owns s k.1 then (s.tasks k.1).fdTable k.2 else none

/-- The table of `i`, in use or not, has no entry for `g`. -/
def Clear (s : Kernel) (i : Tid) (g : Gfd) : Prop := ∀ d, (s.tasks i).fdTable d ≠ some g
  deriving Decidable

/-- A task whose process id is the `fd_owner_pid` of a task is its own
owner. -/
def Rooted (s : Kernel) : Prop :=
  ∀ c k, (s.tasks c).live = true → (s.tasks k).live = true → 0 < (s.tasks c).fdOwnerPid →
    (s.tasks k).ipid = (s.tasks c).fdOwnerPid → (s.tasks k).fdOwnerPid = (s.tasks k).ipid

/-! ### The owner -/

variable {s s' : Kernel} {c i j : Tid}

/-- A task without another owner uses its own table. -/
theorem fdOwnerTask_self
    (h : (s.tasks c).fdOwnerPid ≤ 0 ∨ (s.tasks c).fdOwnerPid = (s.tasks c).ipid) :
    fdOwnerTask s c = c := if_pos h

/-- The test by which the owner of `c` is looked up. -/
def isOwner (s : Kernel) (c i : Tid) : Bool :=
  (s.tasks i).live && decide ((s.tasks i).ipid = (s.tasks c).fdOwnerPid)

/-- The owner is alive and has the pid. -/
theorem isOwner_iff :
    isOwner s c i = true ↔ (s.tasks i).live = true ∧ (s.tasks i).ipid = (s.tasks c).fdOwnerPid := by
  rw [isOwner, Bool.and_eq_true, decide_eq_true_eq]

/-- The owner is the first task of the table with the pid, or the task itself. -/
theorem fdOwnerTask_other
    (h : ¬ ((s.tasks c).fdOwnerPid ≤ 0 ∨ (s.tasks c).fdOwnerPid = (s.tasks c).ipid)) :
    fdOwnerTask s c = ((List.finRange 64).find? (isOwner s c)).getD c := if_neg h

/-- The owner is the task itself, or a live task with the right process
id. -/
theorem fdOwnerTask_cases (s : Kernel) (c : Tid) :
    fdOwnerTask s c = c ∨ (0 < (s.tasks c).fdOwnerPid ∧ isOwner s c (fdOwnerTask s c) = true) := by
  by_cases hself : (s.tasks c).fdOwnerPid ≤ 0 ∨ (s.tasks c).fdOwnerPid = (s.tasks c).ipid
  · exact .inl (fdOwnerTask_self hself)
  rw [fdOwnerTask_other hself]
  cases hfind : (List.finRange 64).find? (isOwner s c) with
  | none => exact .inl rfl
  | some k => exact .inr ⟨by omega, List.find?_some hfind⟩

/-- The owner depends on the ids of the task, and on the search when they differ. -/
theorem owner_congr (hpid : (s'.tasks c).fdOwnerPid = (s.tasks c).fdOwnerPid)
    (hipid : (s'.tasks c).ipid = (s.tasks c).ipid)
    (hfind : fdOwnerTask s c = ((List.finRange 64).find? (isOwner s c)).getD c →
      (List.finRange 64).find? (isOwner s' c) = (List.finRange 64).find? (isOwner s c)) :
    fdOwnerTask s' c = fdOwnerTask s c := by
  by_cases hself : (s.tasks c).fdOwnerPid ≤ 0 ∨ (s.tasks c).fdOwnerPid = (s.tasks c).ipid
  · rw [fdOwnerTask_self hself, fdOwnerTask_self (by rw [hpid, hipid]; exact hself)]
  · have hother := fdOwnerTask_other hself
    rw [hother, fdOwnerTask_other (by rw [hpid, hipid]; exact hself), hfind hother]

/-- In a rooted state a live task uses a table in use. -/
theorem Rooted.owns_owner (h : Rooted s) (hc : (s.tasks c).live = true) :
    owns s (fdOwnerTask s c) := by
  obtain hself | ⟨hpos, hk⟩ := fdOwnerTask_cases s c
  · rw [hself]
    exact ⟨hc, hself⟩
  · obtain ⟨hlive, hpid⟩ := isOwner_iff.mp hk
    exact ⟨hlive, fdOwnerTask_self (.inr (h c _ hc hlive hpos hpid))⟩

/-! ### Changes that keep the owners -/

/-- What decides about owners. -/
def key (t : FdTask) : Bool × Int × Int := (t.live, t.ipid, t.fdOwnerPid)

/-- The same owners. -/
def Alike (s s' : Kernel) : Prop := ∀ i, key (s'.tasks i) = key (s.tasks i)

namespace Alike

variable {s s' s'' : Kernel}

theorem refl (s : Kernel) : Alike s s := fun _ => rfl

section

variable (h : Alike s s')

include h

theorem trans (h' : Alike s' s'') : Alike s s'' := fun i => (h' i).trans (h i)

/-- The same tasks are alive. -/
theorem live (i : Tid) : (s'.tasks i).live = (s.tasks i).live :=
  congrArg Prod.fst (h i)

theorem ipid (i : Tid) : (s'.tasks i).ipid = (s.tasks i).ipid :=
  congrArg (fun k => k.2.1) (h i)

theorem fdOwnerPid (i : Tid) :
    (s'.tasks i).fdOwnerPid = (s.tasks i).fdOwnerPid := congrArg (fun k => k.2.2) (h i)

/-- The same tasks are owners. -/
theorem isOwner (c i : Tid) : isOwner s' c i = isOwner s c i := by
  unfold File.isOwner
  rw [h.live, h.ipid, h.fdOwnerPid]

/-- So every task uses the same table. -/
theorem owner (c : Tid) : fdOwnerTask s' c = fdOwnerTask s c := by
  have hfun : File.isOwner s' c = File.isOwner s c := funext fun i => h.isOwner c i
  exact owner_congr (h.fdOwnerPid c) (h.ipid c) fun _ => by rw [hfun]

/-- The same tables are in use. -/
theorem owns (i : Tid) : owns s' i ↔ owns s i := by
  unfold File.owns
  rw [h.live, h.owner]

/-- And every owner still owns itself. -/
theorem rooted (hs : Rooted s) : Rooted s' := by
  intro c k hc hk hpos hpid
  rw [h.live] at hc hk
  rw [h.fdOwnerPid] at hpos hpid ⊢
  rw [h.ipid] at hpid ⊢
  exact hs c k hc hk hpos hpid

end

end Alike

@[simp] theorem setTask_tasks_self (s : Kernel) (i : Tid) (t : FdTask) :
    (s.setTask i t).tasks i = t := if_pos rfl

/-- Other tasks stay as they are. -/
theorem setTask_tasks_of_ne {s : Kernel} {t : FdTask} (h : j ≠ i) :
    (s.setTask i t).tasks j = s.tasks j := if_neg h

/-- What a change of one task keeps of it, it keeps of all. -/
theorem setTask_same {β : Type} {f : FdTask → β} {t : FdTask} (h : f t = f (s.tasks i)) (j : Tid) :
    f ((s.setTask i t).tasks j) = f (s.tasks j) := by
  by_cases hj : j = i
  · subst hj
    rw [setTask_tasks_self]
    exact h
  · rw [setTask_tasks_of_ne hj]

/-- A change of one task that keeps its key. -/
theorem alike_setTask {t : FdTask} (h : key t = key (s.tasks i)) : Alike s (s.setTask i t) :=
  setTask_same h

/-- One entry is written. -/
theorem entries_setTask {t : FdTask} {d : Fd} {v : Option Gfd} (hkey : key t = key (s.tasks i))
    (htab : t.fdTable = update (s.tasks i).fdTable d v) :
    entries (s.setTask i t) =
      if owns s i then update (entries s) (i, d) v else entries s := by
  funext ⟨j, e⟩
  have hentry : entries (s.setTask i t) (j, e)
      = if owns s j then ((s.setTask i t).tasks j).fdTable e else none :=
    if_congr ((alike_setTask hkey).owns j) rfl rfl
  rw [hentry]
  by_cases hj : j = i
  · subst hj
    rw [setTask_tasks_self, htab]
    split
    · next hown =>
        by_cases he : e = d
        · rw [he, update_self, update_self]
        · rw [update_of_ne he, update_of_ne (by simpa using he), entries, if_pos hown]
    · next hown => rw [entries, if_neg hown]
  · rw [setTask_tasks_of_ne hj]
    show entries s (j, e) = _
    split
    · rw [update_of_ne fun h => hj (congrArg Prod.fst h)]
    · rfl

/-- The same owners and the same tables. -/
theorem Alike.entries (h : Alike s s') (htab : ∀ i, (s'.tasks i).fdTable = (s.tasks i).fdTable) :
    entries s' = entries s := by
  funext k
  unfold File.entries
  rw [htab]
  exact if_congr (h.owns _) rfl rfl

/-! ### The end of a task -/

/-- A search that passes over fewer elements. -/
theorem find?_of_imp {α : Type} {p q : α → Bool} {l : List α} {k : α} (h : l.find? p = some k)
    (hk : q k = true) (himp : ∀ x, q x = true → p x = true) : l.find? q = some k := by
  induction l with
  | nil => cases h
  | cons a l ih =>
    by_cases ha : p a = true
    · rw [List.find?_cons_of_pos ha] at h
      cases h
      exact List.find?_cons_of_pos hk
    · rw [List.find?_cons_of_neg ha] at h
      rw [List.find?_cons_of_neg fun hq => ha (himp a hq)]
      exact ih h

theorem threadExit_tasks_of_ne (s : Kernel) (h : j ≠ i) :
    (threadExit s i).tasks j = s.tasks j := setTask_tasks_of_ne h

/-- A task that ends keeps its table, which no longer counts. -/
theorem threadExit_fdTable (s : Kernel) (i j : Tid) :
    ((threadExit s i).tasks j).fdTable = (s.tasks j).fdTable := by
  exact setTask_same (by rfl) j

/-- Only the task that ends is not alive any more. -/
theorem threadExit_live {s : Kernel} {i j : Tid} :
    ((threadExit s i).tasks j).live = true ↔ j ≠ i ∧ (s.tasks j).live = true := by
  by_cases hj : j = i
  · subst hj
    unfold threadExit
    simp [FdTask.live]
  · rw [threadExit_tasks_of_ne s hj]
    simp [hj]

/-- Pids and owners stay. -/
theorem threadExit_pids {s : Kernel} {i j : Tid} :
    ((threadExit s i).tasks j).ipid = (s.tasks j).ipid ∧
      ((threadExit s i).tasks j).fdOwnerPid = (s.tasks j).fdOwnerPid := by
  exact ⟨setTask_same (by rfl) j, setTask_same (by rfl) j⟩

/-- An owner that ends was an owner of its own. -/
theorem rooted_threadExit (h : Rooted s) (i : Tid) : Rooted (threadExit s i) := by
  intro c k hc hk hpos hpid
  rw [threadExit_pids.2] at hpos hpid
  rw [threadExit_pids.1] at hpid ⊢
  rw [threadExit_pids.2]
  exact h c k (threadExit_live.mp hc).2 (threadExit_live.mp hk).2 hpos hpid

/-- A task that used another table goes on using it. -/
theorem owner_threadExit (h : fdOwnerTask s j ≠ i) :
    fdOwnerTask (threadExit s i) j = fdOwnerTask s j := by
  obtain ⟨hipid, hpid⟩ := threadExit_pids
  refine owner_congr hpid hipid fun hother => ?_
  rw [hother] at h
  -- the test is the old one, but for the task that has ended
  have himp : ∀ k, isOwner (threadExit s i) j k = true → isOwner s j k = true := by
    intro k hk
    rw [isOwner_iff] at hk ⊢
    rw [threadExit_pids.1, hpid] at hk
    exact ⟨(threadExit_live.mp hk.1).2, hk.2⟩
  cases hfind : (List.finRange 64).find? (isOwner s j) with
  | none =>
    rw [List.find?_eq_none] at hfind ⊢
    exact fun k hk hk' => hfind k hk (himp k hk')
  | some k =>
    rw [hfind] at h
    have hki : k ≠ i := h
    have hk := isOwner_iff.mp (List.find?_some hfind)
    have hk' : isOwner (threadExit s i) j k = true := by
      rw [isOwner_iff, threadExit_pids.1, hpid]
      exact ⟨threadExit_live.mpr ⟨hki, hk.1⟩, hk.2⟩
    exact find?_of_imp hfind hk' himp

/-- No entry for `g` is lost or won when the tables that the task's end
concerns have none. -/
theorem entries_threadExit {g : Gfd}
    (h : ∀ j, (s.tasks j).live = true → fdOwnerTask s j = i → Clear s j g) (k : Tid × Fd) :
    entries (threadExit s i) k = some g ↔ entries s k = some g := by
  obtain ⟨j, d⟩ := k
  unfold entries
  rw [threadExit_fdTable]
  by_cases hlive : (s.tasks j).live = true
  · by_cases howner : fdOwnerTask s j = i
    · -- the table has no entry, so it does not matter whether it is in use
      have hclear := h j hlive howner d
      split <;> split <;> simp [hclear]
    have hsame : owns (threadExit s i) j ↔ owns s j := by
      unfold owns
      rw [owner_threadExit howner, threadExit_live]
      constructor
      · rintro ⟨⟨-, hl⟩, ho⟩
        exact ⟨hl, ho⟩
      · rintro ⟨hl, ho⟩
        refine ⟨⟨?_, hl⟩, ho⟩
        rintro rfl
        exact howner ho
    rw [if_congr hsame rfl rfl]
  · rw [if_neg fun hown => hlive (threadExit_live.mp hown.1).2, if_neg fun hown => hlive hown.1]

/-! ### New tasks -/

/-- The process id is not in use. -/
def PidFree (s : Kernel) (pid : Int) : Prop :=
  ∀ j, (s.tasks j).live = true → (s.tasks j).fdOwnerPid ≠ pid ∧ (s.tasks j).ipid ≠ pid
  deriving Decidable

/-- A new task in a slot that no live task had. -/
structure Spawned (s s' : Kernel) (i : Tid) : Prop where
  others : ∀ j, j ≠ i → s'.tasks j = s.tasks j
  slot : (s.tasks i).live = false
  free : PidFree s (s'.tasks i).ipid

/-- A new task changes nobody's owner. -/
theorem Spawned.owner (h : Spawned s s' i) (hlive : (s.tasks j).live = true) :
    fdOwnerTask s' j = fdOwnerTask s j := by
  have hj : j ≠ i := by
    rintro rfl
    rw [h.slot] at hlive
    cases hlive
  have htest : isOwner s' j = isOwner s j := by
    funext k
    unfold isOwner
    rw [h.others j hj]
    by_cases hk : k = i
    · subst hk
      have hpid := (h.free j hlive).1
      rw [h.slot, decide_eq_false fun heq => hpid heq.symm, Bool.and_false, Bool.false_and]
    · rw [h.others k hk]
  have hsame := h.others j hj
  exact owner_congr (by rw [hsame]) (by rw [hsame]) fun _ => by rw [htest]

/-- The other tables in use are the same. -/
theorem Spawned.entries (h : Spawned s s' i) (hj : j ≠ i) (d : Fd) :
    entries s' (j, d) = entries s (j, d) := by
  have hsame : owns s' j ↔ owns s j := by
    unfold owns
    rw [h.others j hj]
    constructor
    · rintro ⟨hl, ho⟩
      exact ⟨hl, by rw [← h.owner hl]; exact ho⟩
    · rintro ⟨hl, ho⟩
      exact ⟨hl, by rw [h.owner hl]; exact ho⟩
  unfold File.entries
  rw [h.others j hj]
  exact if_congr hsame rfl rfl

/-- A new task that has its own table, or uses that of a live task. -/
theorem Spawned.rooted (h : Spawned s s' i) (hs : Rooted s)
    (howner : (s'.tasks i).fdOwnerPid = (s'.tasks i).ipid ∨
      ∃ c, (s.tasks c).live = true ∧ (s'.tasks i).fdOwnerPid = (s.tasks c).fdOwnerPid) :
    Rooted s' := by
  intro c k hc hk hpos hpid
  by_cases hki : k = i
  · subst hki
    by_cases hck : c = k
    · subst hck
      exact hpid.symm
    · -- another task's owner has the new process id
      rw [h.others c hck] at hc hpid
      exact absurd hpid.symm (h.free c hc).1
  · rw [h.others k hki] at hk hpid ⊢
    by_cases hci : c = i
    · subst hci
      obtain hown | ⟨c', hc', heq⟩ := howner
      · rw [hown] at hpid
        exact absurd hpid (h.free k hk).2
      · rw [heq] at hpos hpid
        exact hs c' k hc' hk hpos hpid
    · rw [h.others c hci] at hc hpos hpid
      exact hs c k hc hk hpos hpid

end CoreZ.Proofs.Fs.File
