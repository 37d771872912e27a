import CoreZ.Proofs.Fs.File.Owners

/-!
# `CoreZ.Proofs.Fs.File.Counts`: references and descriptors

`Counted` is the property of one slot. In the middle of a call a slot can
have references that no entry stands for yet; `Owes s g p` says that these
are `p`. Writing an entry pays for a reference (`Owes.write`), closing a
descriptor keeps what is owed (`closeFd_owes`).

A call of the current task `c` that only opens, duplicates and closes
descriptors keeps `Fine`. Most of the section is one lemma for each of these
calls.
-/

set_option autoImplicit false

namespace CoreZ.Proofs.Fs.File

open CoreZ.Fs CoreZ.Lib.RefCount
open Function

/-! ### The property -/

/-- The count of the slot is the number of entries of tables in use, and
the slot is free exactly when there is none. -/
def Counted (s : Kernel) (g : Gfd) : Prop :=
  (s.files g).refCnt = count (entries s) g ∧
    ((s.files g).used = false ↔ count (entries s) g = 0)

/-- The slot has `p` references more than entries. -/
def Owes (s : Kernel) (g : Gfd) (p : Nat) : Prop :=
  (s.files g).refCnt = count (entries s) g + p ∧
    ((s.files g).used = false ↔ (s.files g).refCnt = 0)

variable {d : Fd} {files : FileTable} {g x y : Gfd} {s s' : Kernel} {minLocal newfd oldfd p : Nat}
  {c : Tid} {k : Tid × Fd}

/-- Between two calls the counts are exact: nothing is owed. -/
theorem counted_iff_owes : Counted s g ↔ Owes s g 0 := by
  unfold Counted Owes
  rw [add_zero]
  constructor
  · rintro ⟨href, hfree⟩
    exact ⟨href, by rw [href]; exact hfree⟩
  · rintro ⟨href, hfree⟩
    exact ⟨href, by rw [← href]; exact hfree⟩

/-- There are finitely many entries. -/
theorem finite_entries (s : Kernel) : FiniteRefs (entries s) := fun _ => Set.toFinite _

/-- 64 tables of 64 descriptors. -/
theorem count_entries_le (s : Kernel) (g : Gfd) : count (entries s) g ≤ 4096 := by
  have hle := count_le_card (entries s) g
  rwa [Fintype.card_prod, Fintype.card_fin] at hle

/-- What is owed depends on the entries and the slot only. -/
theorem Owes.same {s s' : Kernel} {g : Gfd} {p : Nat} (h : Owes s g p)
    (hent : entries s' = entries s) (hfile : s'.files g = s.files g) : Owes s' g p := by
  unfold Owes
  rw [hent, hfile]
  exact h

/-- The entry `k` becomes `v`. -/
theorem Owes.write {p' : Nat} (h : Owes s g p) {v : Option Gfd}
    (hent : entries s' = update (entries s) k v) (hfile : s'.files g = s.files g)
    (hp : p' + (if v = some g then 1 else 0) = p + if entries s k = some g then 1 else 0) :
    Owes s' g p' := by
  have hcount := count_update (finite_entries s) k v g
  unfold Owes
  rw [hent, hfile]
  obtain ⟨href, hfree⟩ := h
  refine ⟨?_, hfree⟩
  omega

/-- A slot with an entry is in use. -/
theorem Owes.used (h : Owes s g p) (hk : entries s k = some g) :
    0 < (s.files g).refCnt ∧ (s.files g).used = true := by
  have hpos := count_pos (finite_entries s) hk
  have href : 0 < (s.files g).refCnt := by
    rw [h.1]
    omega
  refine ⟨href, Bool.of_not_eq_false fun hu => ?_⟩
  have hzero := h.2.mp hu
  omega

/-- A free slot has no entry and no reference. -/
theorem Owes.free (h : Owes s g p) (hfree : (s.files g).used = false) :
    (s.files g).refCnt = 0 ∧ count (entries s) g = 0 := by
  have hzero := h.2.mp hfree
  have href := h.1
  exact ⟨hzero, by omega⟩

/-! ### Calls that keep the owners -/

/-- The current task `c` is live, and `g` is counted. -/
structure Fine (c : Tid) (g : Gfd) (s : Kernel) : Prop where
  rooted : Rooted s
  live : (s.tasks c).live = true
  owes : Owes s g 0

/-- A change that moves no task keeps everything but the counts, which are given. -/
theorem Fine.alike (h : Fine c g s) (ha : Alike s s') (howes : Owes s' g 0) : Fine c g s' :=
  ⟨ha.rooted h.rooted, by rw [ha.live]; exact h.live, howes⟩

/-- Entries are only removed. -/
def Shrinks (s s' : Kernel) : Prop :=
  ∀ j d x, (s'.tasks j).fdTable d = some x → (s.tasks j).fdTable d = some x

/-- The file table is not part of what `Alike` compares. -/
theorem alike_files (s : Kernel) (files : FileTable) : Alike s { s with files } := fun _ => rfl

/-- The entries are in the tasks, not in the file table. -/
theorem entries_files {s : Kernel} {files : FileTable} : entries { s with files } = entries s :=
  (alike_files s files).entries fun _ => rfl

/-- An entry is not part of the key of a task. -/
theorem key_putFd {t : FdTask} {d : Fd} {v : Option Gfd} : key (t.putFd d v) = key t := rfl

/-- An entry of the owner's table is written. -/
theorem entries_putFd {o : Tid} (ho : owns s o) {d : Fd} {v : Option Gfd} :
    entries (s.setTask o ((s.tasks o).putFd d v)) = update (entries s) (o, d) v := by
  rw [entries_setTask key_putFd rfl, if_pos ho]

/-- The entries of a table that counts. -/
theorem entries_of_owns {o : Tid} (ho : owns s o) (d : Fd) :
    entries s (o, d) = (s.tasks o).fdTable d := if_pos ho

/-! ### Closing -/

/-- The file table after a reference to `x` is dropped by `close_file`. -/
def dropRef (files : FileTable) (x : Gfd) : FileTable :=
  if (files x).refCnt = 0 then files
  else if 0 < (fileTableUnref files x x).refCnt then fileTableUnref files x
  else fileTableFreeSlot (fileTableUnref files x) x

/-- Other slots keep their counts. -/
theorem dropRef_of_ne {files : FileTable} (h : g ≠ x) : dropRef files x g = files g := by
  unfold dropRef fileTableFreeSlot fileTableUnref
  split
  · rfl
  split
  · exact update_of_ne h ..
  · rw [update_of_ne h, update_of_ne h]

/-- The slot loses one reference, and is free without any. -/
theorem dropRef_self (hpos : 0 < (files x).refCnt) (hused : (files x).used = true) :
    (dropRef files x x).refCnt = (files x).refCnt - 1 ∧
      ((dropRef files x x).used = false ↔ (files x).refCnt - 1 = 0) := by
  unfold dropRef fileTableFreeSlot fileTableUnref
  rw [if_neg (Nat.ne_of_gt hpos), update_self]
  split
  next h =>
    have h : 0 < (files x).refCnt - 1 := h
    rw [update_self]
    refine ⟨rfl, ?_⟩
    simp only [hused]
    constructor
    · intro hf
      cases hf
    · omega
  next h =>
    have h : ¬ 0 < (files x).refCnt - 1 := h
    rw [update_self]
    have hz : (files x).refCnt - 1 = 0 := by omega
    exact ⟨hz.symm, fun _ => hz, fun _ => rfl⟩

/-- The first three descriptors are never closed. -/
theorem closeFd_lower (h : d.val < 3) : closeFd s c d = s := if_pos h

/-- Closing a free descriptor does nothing. -/
theorem closeFd_none (h : fdLocal2global s c d = none) : closeFd s c d = s := by
  unfold closeFd
  rw [h]
  split <;> rfl

/-- Closing takes the entry out and drops its reference. -/
theorem closeFd_some (hd : ¬ d.val < 3) (h : fdLocal2global s c d = some x) :
    closeFd s c d = { fdRelease s c d with files := dropRef s.files x } := by
  unfold closeFd
  rw [if_neg hd, h]
  show (if (s.files x).refCnt = 0 then fdRelease s c d
    else if 0 < (fileTableUnref s.files x x).refCnt then
      { fdRelease s c d with files := fileTableUnref s.files x }
    else { fdRelease s c d with files := fileTableFreeSlot (fileTableUnref s.files x) x }) = _
  unfold dropRef
  split
  · rfl
  · split <;> rfl

section

variable (s : Kernel) (c : Tid) (d : Fd)

/-- All that `close_file` does. -/
theorem closeFd_cases :
    closeFd s c d = s ∨ ∃ x, ¬ d.val < 3 ∧ fdLocal2global s c d = some x ∧
      closeFd s c d = { fdRelease s c d with files := dropRef s.files x } := by
  by_cases hd : d.val < 3
  · exact .inl (closeFd_lower hd)
  cases hx : fdLocal2global s c d with
  | none => exact .inl (closeFd_none hx)
  | some x => exact .inr ⟨x, hd, rfl, closeFd_some hd hx⟩

theorem alike_fdRelease : Alike s (fdRelease s c d) := alike_setTask key_putFd

theorem alike_closeFd : Alike s (closeFd s c d) := by
  obtain h | ⟨x, -, -, h⟩ := closeFd_cases s c d
  · rw [h]
    exact Alike.refl s
  · rw [h]
    exact alike_fdRelease s c d

/-- The tables after a descriptor is given back. -/
theorem fdRelease_fdTable (j : Tid) (e : Fd) :
    ((fdRelease s c d).tasks j).fdTable e =
      if j = fdOwnerTask s c ∧ e = d then none else (s.tasks j).fdTable e := by
  unfold fdRelease
  by_cases hj : j = fdOwnerTask s c
  · subst hj
    rw [setTask_tasks_self]
    by_cases he : e = d
    · subst he
      rw [if_pos ⟨rfl, rfl⟩]
      exact update_self ..
    · rw [if_neg fun h => he h.2]
      exact update_of_ne he ..
  · rw [setTask_tasks_of_ne hj, if_neg fun h => hj h.1]

/-- Closing adds no entry. -/
theorem shrinks_closeFd : Shrinks s (closeFd s c d) := by
  intro j e x hx
  obtain h | ⟨y, -, -, h⟩ := closeFd_cases s c d
  · rwa [h] at hx
  · rw [h] at hx
    rw [fdRelease_fdTable] at hx
    split at hx
    · cases hx
    · exact hx

end

/-- Closing drops an entry and its reference. -/
theorem closeFd_owes {s : Kernel} {c : Tid} {g : Gfd} {p : Nat} (hroot : Rooted s)
    (hlive : (s.tasks c).live = true) (h : Owes s g p) (d : Fd) : Owes (closeFd s c d) g p := by
  obtain hsame | ⟨x, -, hx, heq⟩ := closeFd_cases s c d
  · rw [hsame]
    exact h
  rw [heq]
  have ho := hroot.owns_owner hlive
  have hentry : entries s (fdOwnerTask s c, d) = some x := by
    rw [entries_of_owns ho]
    exact hx
  have hent : entries { fdRelease s c d with files := dropRef s.files x } =
      update (entries s) (fdOwnerTask s c, d) none := by
    exact entries_putFd ho
  by_cases hg : g = x
  · subst hg
    obtain ⟨hpos, hused⟩ := h.used hentry
    have hcount := count_update (finite_entries s) (fdOwnerTask s c, d) none g
    rw [if_pos hentry, if_neg (by intro h; cases h)] at hcount
    have href := h.1
    obtain ⟨href', hused'⟩ := dropRef_self hpos hused
    unfold Owes
    rw [hent]
    refine ⟨?_, ?_⟩
    · show (dropRef s.files g g).refCnt = _
      omega
    · rw [href']
      exact hused'
  · refine h.write hent (dropRef_of_ne hg) ?_
    rw [hentry, if_neg (by intro h; cases h), if_neg fun h => hg (Option.some.inj h).symm]

/-- Closing keeps the invariant: one entry and one reference less. -/
theorem Fine.closeFd (h : Fine c g s) (d : Fd) : Fine c g (closeFd s c d) :=
  h.alike (alike_closeFd s c d) (closeFd_owes h.rooted h.live h.owes d)

theorem Fine.closeFile (h : Fine c g s) (fd : Nat) : Fine c g (closeFile s c fd) := by
  unfold Fs.closeFile
  split
  · exact h
  · exact h.closeFd _

/-! ### Opening -/

/-- The descriptor that is found is free, and not one of the first three. -/
theorem freeFd_some {t : FdTask} (h : freeFd t minLocal = some d) :
    ¬ d.val < 3 ∧ t.fdTable d = none := by
  have hd := List.find?_some h
  rw [Bool.and_eq_true, decide_eq_true_eq, Option.isNone_iff_eq_none] at hd
  exact ⟨by omega, hd.2⟩

/-- What an installation does. -/
theorem fdInstallFrom_some (h : fdInstallFrom s c x minLocal = some (d, s')) :
    ¬ d.val < 3 ∧ (s.tasks (fdOwnerTask s c)).fdTable d = none ∧
      s' = s.setTask (fdOwnerTask s c) ((s.tasks (fdOwnerTask s c)).putFd d (some x)) := by
  unfold fdInstallFrom at h
  cases hfree : freeFd (s.tasks (fdOwnerTask s c)) minLocal with
  | none =>
    simp only [hfree, Option.map_none] at h
    cases h
  | some e =>
    simp only [hfree, Option.map_some, Option.some.injEq, Prod.mk.injEq] at h
    obtain ⟨rfl, rfl⟩ := h
    exact ⟨(freeFd_some hfree).1, (freeFd_some hfree).2, rfl⟩

/-- A new entry: it takes a reference that was owed. -/
theorem fdInstallFrom_owes (hroot : Rooted s) (hlive : (s.tasks c).live = true)
    (hinst : fdInstallFrom s c x minLocal = some (d, s')) :
    Alike s s' ∧ ∀ g p, Owes s g (p + if x = g then 1 else 0) → Owes s' g p := by
  obtain ⟨-, hnone, rfl⟩ := fdInstallFrom_some hinst
  refine ⟨alike_setTask key_putFd, fun g p h => ?_⟩
  have ho := hroot.owns_owner hlive
  refine h.write (entries_putFd ho) rfl ?_
  simp [entries_of_owns ho, hnone]

/-- A slot was free and has been taken. -/
theorem fileTableAllocSlot_some {files' : FileTable}
    (h : fileTableAllocSlot files = some (x, files')) :
    (files x).used = false ∧ files' = update files x ⟨0, true⟩ := by
  unfold fileTableAllocSlot at h
  cases hfind : (List.finRange 256).find? fun g => !(files g).used with
  | none =>
    rw [hfind] at h
    cases h
  | some y =>
    rw [hfind] at h
    cases h
    have hy := List.find?_some hfind
    exact ⟨by simpa using hy, rfl⟩

/-- A slot that was free gets `r` references. -/
theorem Owes.slot {r : Nat} {u : Bool} (h : Owes s g p) (hx : (s.files x).used = false)
    (hent : entries s' = entries s) (hfiles : s'.files = update s.files x ⟨r, u⟩)
    (hu : u = false ↔ r = 0) : Owes s' g (p + if x = g then r else 0) := by
  by_cases hg : g = x
  · subst hg
    obtain ⟨href, hzero⟩ := h.free hx
    have hp := h.1
    unfold Owes
    rw [hent, hfiles, update_self, if_pos rfl]
    refine ⟨?_, hu⟩
    show r = _
    omega
  · rw [if_neg fun h => hg h.symm]
    refine h.same hent ?_
    rw [hfiles, update_of_ne hg]

section

variable (h : Owes s g p) (hx : (s.files x).used = false) (hent : entries s' = entries s)

include h hx hent

/-- A slot was free and is free again. -/
theorem Owes.freed (hfiles : s'.files = update s.files x ⟨0, false⟩) : Owes s' g p := by
  have hslot := h.slot hx hent hfiles (by simp)
  rwa [ite_self] at hslot

/-- A slot was free and is open, with one reference. -/
theorem Owes.opened (hfiles : s'.files = update s.files x ⟨1, true⟩) :
    Owes s' g (p + if x = g then 1 else 0) := h.slot hx hent hfiles (by simp)

end

/-- Opening: the slot is taken with one reference, or given back. -/
theorem Fine.openFile (h : Fine c g s) (r : OpenResult) : Fine c g (openFile s c r).2 := by
  unfold Fs.openFile
  split
  · exact h
  cases halloc : fileTableAllocSlot s.files with
  | none => exact h
  | some p =>
    obtain ⟨x, files⟩ := p
    obtain ⟨hx, rfl⟩ := fileTableAllocSlot_some halloc
    dsimp only
    split
    · -- the open is refused: the slot is given back
      refine h.alike (alike_files s _) (h.owes.freed hx entries_files ?_)
      exact update_idem ..
    have hopen : Owes { s with files := fileTableOpen (update s.files x ⟨0, true⟩) x } g
        (0 + if x = g then 1 else 0) := by
      refine h.owes.opened hx entries_files ?_
      unfold fileTableOpen
      rw [update_self, update_idem]
    split
    next =>
      refine h.alike (alike_files s _) (h.owes.freed hx entries_files ?_)
      unfold fileTableOpen fileTableFreeSlot
      rw [update_idem, update_idem]
    next d s' hinst =>
      have ha := alike_files s (fileTableOpen (update s.files x ⟨0, true⟩) x)
      obtain ⟨ha', hpay⟩ := fdInstallFrom_owes (ha.rooted h.rooted)
        (by rw [ha.live]; exact h.live) hinst
      exact h.alike (ha.trans ha') (hpay g 0 hopen)

/-! ### Duplicating -/

/-- A descriptor that is found is an entry that counts. -/
theorem Fine.entry_of_fdLookup {fd : Nat} (h : Fine c g s) (hlook : fdLookup s c fd = some x) :
    ∃ k, entries s k = some x := by
  obtain ⟨d, -, hd⟩ := Option.bind_eq_some_iff.mp hlook
  exact ⟨_, (entries_of_owns (h.rooted.owns_owner h.live) d).trans hd⟩

/-- The slot of a descriptor gets a reference. -/
theorem Owes.ref (h : Owes s g 0) (hk : entries s k = some x) :
    Owes { s with files := fileTableRef s.files x } g (0 + if x = g then 1 else 0) := by
  by_cases hg : g = x
  · subst hg
    obtain ⟨hpos, hused⟩ := h.used hk
    have hle := count_entries_le s g
    have href := h.1
    unfold Owes fileTableRef
    rw [entries_files, if_pos rfl]
    simp only [update_self, hused]
    refine ⟨by omega, ?_, ?_⟩
    · intro h
      cases h
    · omega
  · rw [if_neg fun h => hg h.symm]
    exact h.same entries_files (update_of_ne hg ..)

/-- A reference is taken and dropped. -/
theorem Owes.ref_unref (h : Owes s g 0) (x : Gfd) :
    Owes { s with files := fileTableUnref (fileTableRef s.files x) x } g 0 := by
  refine h.same entries_files ?_
  unfold fileTableUnref fileTableRef
  by_cases hg : g = x
  · subst hg
    have hle := count_entries_le s g
    have href := h.1
    have hback : ((s.files g).refCnt + 1) % 4294967296 - 1 = (s.files g).refCnt := by omega
    simp [hback]
  · simp only [update_of_ne hg]

/-- A duplicate counts before it is installed; the failure takes the reference back. -/
theorem Fine.sysDupFrom (h : Fine c g s) (oldfd minLocal : Nat) :
    Fine c g (sysDupFrom s c oldfd minLocal).2 := by
  unfold Fs.sysDupFrom
  cases hlook : fdLookup s c oldfd with
  | none => exact h
  | some x =>
    obtain ⟨k, hentry⟩ := h.entry_of_fdLookup hlook
    have ha := alike_files s (fileTableRef s.files x)
    dsimp only
    split
    next => exact h.alike (alike_files s _) (h.owes.ref_unref x)
    next e s' hinst =>
      obtain ⟨ha', hpay⟩ := fdInstallFrom_owes (ha.rooted h.rooted)
        (by rw [ha.live]; exact h.live) hinst
      exact h.alike (ha.trans ha') (hpay g 0 (h.owes.ref hentry))

/-- The entry that `dup2` overwrites without closing it. -/
def Overwrites (s : Kernel) (c : Tid) (oldfd newfd : Nat) (g : Gfd) : Prop :=
  oldfd ≠ newfd ∧ fdLookup s c oldfd ≠ none ∧ newfd < 3 ∧ fdLookup s c newfd = some g
  deriving Decidable

/-- A descriptor in range is its number. -/
theorem fdOf_some {fd : Nat} (h : fdOf fd = some d) : d.val = fd := by
  unfold fdOf at h
  split at h
  · cases h
    rfl
  · cases h

/-- After the close of `dup2`, the entry is free, or one that is never
closed. -/
theorem closeFd_entry (s : Kernel) (c : Tid) (d : Fd) :
    ((closeFd s c d).tasks (fdOwnerTask s c)).fdTable d =
      if d.val < 3 then fdLocal2global s c d else none := by
  split
  next h =>
    rw [closeFd_lower h]
    rfl
  next h =>
    cases hx : fdLocal2global s c d with
    | none =>
      rw [closeFd_none hx]
      exact hx
    | some x =>
      rw [closeFd_some h hx]
      rw [fdRelease_fdTable, if_pos ⟨rfl, rfl⟩]

/-- Write an entry of a table. -/
def writeFd (s : Kernel) (o : Tid) (d : Fd) (v : Option Gfd) : Kernel :=
  s.setTask o { s.tasks o with fdTable := Function.update (s.tasks o).fdTable d v }

/-- A store to a table moves no task. -/
theorem alike_writeFd {s : Kernel} {o : Tid} {d : Fd} {v : Option Gfd} :
    Alike s (writeFd s o d v) :=
  alike_setTask rfl

/-- The entries after a store to one table. -/
theorem entries_writeFd (s : Kernel) (o : Tid) (d : Fd) (v : Option Gfd) :
    entries (writeFd s o d v) =
      if owns s o then update (entries s) (o, d) v else entries s :=
  entries_setTask rfl rfl

/-- The second half of `dup2`: the entry is closed and becomes `x`. -/
theorem dup2_owes (hroot : Rooted s) (hlive : (s.tasks c).live = true)
    (howes : Owes s g (0 + if x = g then 1 else 0))
    (hover : d.val < 3 → fdLocal2global s c d ≠ some g) :
    Owes (writeFd (closeFd s c d) (fdOwnerTask s c) d (some x)) g 0 := by
  have ho := ((alike_closeFd s c d).owns _).mpr (hroot.owns_owner hlive)
  refine (closeFd_owes hroot hlive howes d).write
    (by rw [entries_writeFd, if_pos ho]) rfl ?_
  -- what is overwritten is not an entry for `g`
  have hold : entries (closeFd s c d) (fdOwnerTask s c, d) ≠ some g := by
    rw [entries_of_owns ho, closeFd_entry]
    split
    next hlow => exact hover hlow
    next => exact fun hg => by cases hg
  rw [if_neg hold]
  simp

/-- The steps of a `dup2` that finds its descriptor. -/
theorem sysDup2_some (hne : oldfd ≠ newfd) (hnew : fdOf newfd = some d)
    (hlook : fdLookup s c oldfd = some x) :
    (sysDup2 s c oldfd newfd).2 =
      writeFd (closeFd { s with files := fileTableRef s.files x } c d) (fdOwnerTask s c) d
        (some x) := by
  unfold sysDup2
  rw [hnew, hlook]
  dsimp only
  rw [if_neg hne]
  split
  next hnone =>
    rw [closeFd_none (s := { s with files := fileTableRef s.files x }) hnone]
    rfl
  next => rfl

/-- `dup2` keeps the counts unless it stores over an entry that `close_file` leaves. -/
theorem Fine.sysDup2 (h : Fine c g s) (hkeep : ¬ Overwrites s c oldfd newfd g) :
    Fine c g (sysDup2 s c oldfd newfd).2 := by
  by_cases hne : oldfd = newfd
  · unfold Fs.sysDup2
    split
    · exact h
    · rw [if_pos hne]
      exact h
  cases hnew : fdOf newfd with
  | none =>
    unfold Fs.sysDup2
    rw [hnew]
    exact h
  | some d =>
    cases hlook : fdLookup s c oldfd with
    | none =>
      unfold Fs.sysDup2
      rw [hnew, hlook]
      dsimp only
      rw [if_neg hne]
      exact h
    | some x =>
      obtain ⟨k, hentry⟩ := h.entry_of_fdLookup hlook
      have ha := alike_files s (fileTableRef s.files x)
      rw [sysDup2_some hne hnew hlook]
      refine h.alike ((ha.trans (alike_closeFd _ c d)).trans alike_writeFd) ?_
      refine dup2_owes (ha.rooted h.rooted) h.live (h.owes.ref hentry) fun hlow hg => ?_
      have hfd := fdOf_some hnew
      refine hkeep ⟨hne, by rw [hlook]; exact Option.some_ne_none x, by omega, ?_⟩
      unfold fdLookup
      rw [hnew]
      exact hg

/-- The bits of `fd_cloexec` are not counted. -/
theorem Fine.setCloexec (h : Fine c g s) (o : Tid) (d : Fd) (b : Bool) :
    Fine c g (setCloexec s o d b) := by
  have ha : Alike s (Fs.setCloexec s o d b) := alike_setTask rfl
  exact h.alike ha (h.owes.same (ha.entries (setTask_same rfl)) rfl)

theorem Fine.lcDup3 (h : Fine c g s) (hkeep : ¬ Overwrites s c oldfd newfd g) (cloexec : Bool) :
    Fine c g (lcDup3 s c oldfd newfd cloexec) := by
  have hdup := h.sysDup2 hkeep
  unfold Fs.lcDup3
  split
  · exact h
  split
  next heq =>
    rw [heq] at hdup
    exact hdup
  next heq =>
    rw [heq] at hdup
    exact hdup.setCloexec _ _ _

/-- `fcntl` duplicates, or sets a bit. -/
theorem Fine.sysFcntl (h : Fine c g s) (fd : Nat) (cmd : FcntlCmd) (arg : Nat) :
    Fine c g (sysFcntl s c fd cmd arg) := by
  have hdup := h.sysDupFrom fd arg
  unfold Fs.sysFcntl
  split
  · exact h
  split
  · exact h
  cases cmd with
  | dupFd => exact hdup
  | dupFdCloexec =>
    dsimp only
    split
    next heq =>
      rw [heq] at hdup
      exact hdup
    next heq =>
      rw [heq] at hdup
      exact hdup.setCloexec _ _ _
  | setFd => exact h.setCloexec _ _ _

/-- The entry that `sys_fd_redirect` writes and the one it overwrites are
both for `g` or both not, or the table is not in use. -/
def Even (s : Kernel) (c : Tid) (oldLocal newLocal : Nat) (g : Gfd) : Prop :=
  owns s c → ∀ old new, fdOf oldLocal = some old → fdOf newLocal = some new →
    ((s.tasks c).fdTable old = some g ↔ redirectTarget (s.tasks c) new = some g)
  deriving Decidable

/-- Both descriptors are in the table, and the entries are even. -/
def Redirects (s : Kernel) (c : Tid) (oldLocal newLocal : Nat) (g : Gfd) : Prop :=
  (oldLocal < 64 ∧ newLocal < 64) ∧ Even s c oldLocal newLocal g
  deriving Decidable

/-- `fd_redirect` counts nothing, so that its two entries must count nothing either. -/
theorem Fine.sysFdRedirect (h : Fine c g s) {oldLocal newLocal : Nat}
    (hcare : Redirects s c oldLocal newLocal g) (wild : Kernel) :
    Fine c g (sysFdRedirect s c oldLocal newLocal wild) := by
  obtain ⟨⟨hold, hnew⟩, heven⟩ := hcare
  unfold Fs.sysFdRedirect
  split
  next old new hold hnew =>
    show Fine c g (writeFd s c old (redirectTarget (s.tasks c) new))
    refine h.alike alike_writeFd ?_
    by_cases hown : owns s c
    · refine h.owes.write (by rw [entries_writeFd, if_pos hown]) rfl ?_
      have hiff := heven hown old new hold hnew
      rw [entries_of_owns hown]
      simp only [hiff]
    · exact h.owes.same (by rw [entries_writeFd, if_neg hown]) rfl
  next hout => exact absurd (dif_pos hnew) (hout _ _ (dif_pos hold))

/-! ### Pipes -/

/-- The slots of the two ends. -/
theorem pipe_slots {f1 f2 : FileTable} (h1 : fileTableAllocSlot files = some (x, f1))
    (h2 : fileTableAllocSlot f1 = some (y, f2)) :
    (files x).used = false ∧ (files y).used = false ∧ y ≠ x ∧
      f2 = update (update files x ⟨0, true⟩) y ⟨0, true⟩ := by
  obtain ⟨hx, rfl⟩ := fileTableAllocSlot_some h1
  obtain ⟨hy, rfl⟩ := fileTableAllocSlot_some h2
  have hne : y ≠ x := by
    rintro rfl
    rw [update_self] at hy
    cases hy
  rw [update_of_ne hne] at hy
  exact ⟨hx, hy, hne, rfl⟩

section

variable (h : Owes s g 0) (hx : (s.files x).used = false) (hy : (s.files y).used = false)
  (hne : y ≠ x)

include h hx hy hne

/-- Both slots are given back. -/
theorem Owes.pipe_freed (hent : entries s' = entries s)
    (hfiles : s'.files = update (update s.files x ⟨0, false⟩) y ⟨0, false⟩) : Owes s' g 0 := by
  have h1 : Owes { s with files := update s.files x ⟨0, false⟩ } g 0 := h.freed hx entries_files rfl
  refine h1.freed ?_ (hent.trans entries_files.symm) hfiles
  show (update s.files x ⟨0, false⟩ y).used = false
  rwa [update_of_ne hne]

/-- Both slots are open. -/
theorem Owes.pipe_opened :
    Owes { s with files := update (update s.files x ⟨1, true⟩) y ⟨1, true⟩ } g
      ((0 + if x = g then 1 else 0) + if y = g then 1 else 0) := by
  have h1 : Owes { s with files := update s.files x ⟨1, true⟩ } g
      (0 + if x = g then 1 else 0) := h.opened hx entries_files rfl
  refine h1.opened ?_ (entries_files.trans entries_files.symm) rfl
  show (update s.files x ⟨1, true⟩ y).used = false
  rwa [update_of_ne hne]

end

/-- The slots of a pipe, opened. -/
theorem fileTableOpen_two (hne : y ≠ x) :
    fileTableOpen (fileTableOpen
      (update (update files x ⟨0, true⟩) y ⟨0, true⟩) x) y =
      update (update files x ⟨1, true⟩) y ⟨1, true⟩ := by
  unfold fileTableOpen
  rw [update_of_ne hne, update_of_ne hne.symm, update_comm hne, update_idem]
  simp

/-- The slots of a pipe, given back. -/
theorem fileTableFreeSlot_two {f f' : File} (hne : y ≠ x) :
    fileTableFreeSlot (fileTableFreeSlot
      (update (update files x f) y f') x) y =
      update (update files x ⟨0, false⟩) y ⟨0, false⟩ := by
  unfold fileTableFreeSlot
  rw [update_comm hne, update_idem, update_idem, update_comm hne.symm]

/-- A descriptor is installed and released. -/
theorem entries_install_release (hroot : Rooted s) (hlive : (s.tasks c).live = true)
    (h : fdInstall s c x = some (d, s')) : entries (fdRelease s' c d) = entries s := by
  obtain ⟨-, hnone, rfl⟩ := fdInstallFrom_some h
  have ho := hroot.owns_owner hlive
  have ha : Alike s (s.setTask (fdOwnerTask s c)
      ((s.tasks (fdOwnerTask s c)).putFd d (some x))) := alike_setTask key_putFd
  have howner := ha.owner c
  unfold fdRelease
  rw [howner, entries_putFd ((ha.owns _).mpr ho), entries_putFd ho, update_idem]
  refine update_eq_self_iff.mpr ?_
  rw [entries_of_owns ho]
  exact hnone.symm

/-- A pipe has two slots with one reference each, or none. -/
theorem Fine.sysPipe (h : Fine c g s) (page : Bool) : Fine c g (sysPipe s c page).2 := by
  unfold Fs.sysPipe
  cases h1 : fileTableAllocSlot s.files with
  | none => exact h
  | some p =>
    obtain ⟨x, f1⟩ := p
    dsimp only
    cases h2 : fileTableAllocSlot f1 with
    | none =>
      obtain ⟨hx, rfl⟩ := fileTableAllocSlot_some h1
      refine h.alike (alike_files s _) (h.owes.freed hx entries_files ?_)
      exact update_idem ..
    | some q =>
      obtain ⟨y, f2⟩ := q
      obtain ⟨hx, hy, hne, rfl⟩ := pipe_slots h1 h2
      dsimp only
      split
      · rw [fileTableOpen_two hne]
        have hopen := h.owes.pipe_opened hx hy hne
        have ha := alike_files s (update (update s.files x ⟨1, true⟩) y ⟨1, true⟩)
        have hroot := ha.rooted h.rooted
        have hlive : (s.tasks c).live = true := h.live
        split
        next =>
          refine h.alike (alike_files s _) (h.owes.pipe_freed hx hy hne entries_files ?_)
          exact fileTableFreeSlot_two hne
        next r s1 hr =>
          obtain ⟨ha1, hpay1⟩ := fdInstallFrom_owes hroot hlive hr
          have howes1 := hpay1 g (0 + if y = g then 1 else 0) (by rwa [add_right_comm])
          have hroot1 := ha1.rooted hroot
          have hlive1 : (s1.tasks c).live = true := by rw [ha1.live]; exact hlive
          split
          next =>
            -- the first descriptor is released and both slots are given back
            have hback := entries_install_release hroot hlive hr
            obtain ⟨-, -, rfl⟩ := fdInstallFrom_some hr
            refine h.alike ?_ (h.owes.pipe_freed hx hy hne ?_ (fileTableFreeSlot_two hne))
            · exact (ha.trans ha1).trans (alike_fdRelease _ c r)
            · rw [entries_files, hback, entries_files]
          next w s2 hw =>
            obtain ⟨ha2, hpay2⟩ := fdInstallFrom_owes hroot1 hlive1 hw
            exact h.alike ((ha.trans ha1).trans ha2) (hpay2 g 0 howes1)
      · refine h.alike (alike_files s _) (h.owes.pipe_freed hx hy hne entries_files ?_)
        exact fileTableFreeSlot_two hne

theorem Fine.lcPipe2 (h : Fine c g s) (page cloexec : Bool) :
    Fine c g (lcPipe2 s c page cloexec) := by
  have hpipe := h.sysPipe page
  unfold Fs.lcPipe2
  split
  next heq =>
    rw [heq] at hpipe
    exact hpipe
  next heq =>
    rw [heq] at hpipe
    split
    · exact (hpipe.setCloexec _ _ _).setCloexec _ _ _
    · exact hpipe

end CoreZ.Proofs.Fs.File
