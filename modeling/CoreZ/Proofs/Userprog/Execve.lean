import CoreZ.Proofs.Userprog.Loader.Steps
import CoreZ.Userprog.Execve

/-!
# `CoreZ.Proofs.Userprog.Execve`: what a failed `execve` leaves behind

`Unchanged` says that a call has left the caller as it was. `sys_execve`
does not work on a copy: it ends the other threads and replaces the bitmap
before it looks at its arguments, loads the image into the pages of the
caller, and takes the ids of a set-user-id file before the last test of
`load64`; the failure exit takes none of this back.

A call that is refused before the image is mapped (`Refused`) has made the
early changes only: the loader records what it does to the caller, and as long
as nothing is recorded, nothing has changed (`Traced`). Such a call leaves the
caller unchanged exactly when the early changes change nothing
(`sysExecve_unchanged_iff`): no other thread shares the address space, and the
bitmap is as good as new (`Pristine`).
-/

set_option autoImplicit false

namespace CoreZ.Proofs.Userprog.Execve

open CoreZ.Lib (Keeps bind_of_ok bind_of_error)
open CoreZ.Userprog.Exec
open CoreZ.Proofs.Userprog.Loader (IsPe Closed load_closed emptyCaller oneFile imageAt)

/-! ### The property -/

/-- The effective ids, the user pages and their bytes, the bitmap and the
other threads are the same. -/
structure Unchanged (s t : Caller) : Prop where
  ids : t.euid = s.euid ∧ t.egid = s.egid
  space : t.hasSpace = s.hasSpace
  pages : ∀ v, t.space.present v = s.space.present v ∧ t.space.user v = s.space.user v ∧
    t.space.writable v = s.space.writable v
  bytes : ∀ a, userReadable s.space (a / pageSize) = true → t.space.mem a = s.space.mem a
  bitmap : t.bitmap.allocated = s.bitmap.allocated ∧ t.bitmap.bits = s.bitmap.bits ∧
    ∀ v, t.bitmap.used v = s.bitmap.used v
  others : t.others = s.others

/-! ### The early changes -/

/-- The pages that the vectors are copied from. -/
def spaceOf (env : Env) (s : Caller) : Space :=
  if s.hasSpace then s.space else env.pageDir.getD s.space

/-- The caller has no address space and gets none. -/
def NoSpace (env : Env) (s : Caller) : Prop := s.hasSpace = false ∧ env.pageDir = none

/-- The caller once the early changes are made and the string buffer has been
asked for: it has an address space and an empty bitmap, and is alone. -/
def early (env : Env) (s : Caller) : Caller :=
  { s with
    hasSpace := true
    space := spaceOf env s
    bitmap := ⟨env.bitmapPages, bitmapBits, fun _ => false⟩
    others := if s.hasSpace then [] else s.others
    allocs := s.allocs + 1 }

variable {s : Caller} {env : Env} {a : ExecArgs} {β : Type}

/-- `sys_execve` up to the string buffer. -/
theorem early_eq (hspace : ¬ NoSpace env s) (rest : Bool → LoadM β) :
    (detachOthers >>= fun _ => ensureSpace env >>= fun _ => renewBitmap env >>= fun _ =>
      nextGrant env >>= rest) s = rest (env.grant s.allocs) (early env s) := by
  obtain ⟨hasSpace, space, bitmap, uid, gid, euid, suid, egid, sgid, others, pos, allocs, reads,
    draws, trace⟩ := s
  cases hasSpace with
  | true => rfl
  | false =>
    cases hdir : env.pageDir with
    | none => exact absurd ⟨rfl, hdir⟩ hspace
    | some sp =>
      have hensure : ensureSpace env = (do
          let s ← get
          if s.hasSpace then pure ()
          else set { s with hasSpace := true, space := sp } : LoadM Unit) := by
        unfold ensureSpace
        rw [hdir]
      rw [hensure]
      unfold early spaceOf
      rw [hdir]
      rfl

/-- Without an address space nothing is changed. -/
theorem early_noSpace (h : NoSpace env s) (rest : Bool → LoadM β) :
    (detachOthers >>= fun _ => ensureSpace env >>= fun _ => renewBitmap env >>= fun _ =>
      nextGrant env >>= rest) s = .error .failed s := by
  obtain ⟨hasSpace, space, bitmap, uid, gid, euid, suid, egid, sgid, others, pos, allocs, reads,
    draws, trace⟩ := s
  obtain ⟨rfl, hdir⟩ := h
  have hensure : ensureSpace env = (do
      let s ← get
      if s.hasSpace then pure () else throw .failed : LoadM Unit) := by
    unfold ensureSpace
    rw [hdir]
  rw [hensure]
  rfl

/-! ### The condition -/

/-- The load of the image fails before anything is recorded: no page has been
mapped, freed, stored to or protected, and no ids have been taken. -/
def Unloaded (env : Env) (path : List UInt8) (s : Caller) : Prop :=
  (∀ f, env.openImage path = some f → ¬ IsPe f) ∧
    ∃ t, load env path s = .error .failed t ∧ t.trace = s.trace

/-- The call is refused before the image is mapped: there is no memory for
the strings, the environment cannot be copied, or the load fails at once. -/
def Refused (env : Env) (a : ExecArgs) (s : Caller) : Prop :=
  env.grant s.allocs = false ∨ (a.envp ≠ .null ∧ copyStrs (spaceOf env s) a.envp = none) ∨
    Unloaded env a.path (early env s)

/-- No other thread shares the address space, and the bitmap is what
`create_user_vaddr_bitmap` would make it. -/
structure Pristine (env : Env) (s : Caller) : Prop where
  alone : s.hasSpace = true → s.others = []
  allocated : s.bitmap.allocated = env.bitmapPages
  bits : s.bitmap.bits = bitmapBits
  blank : ∀ v, s.bitmap.used v = false

/-! ### What is recorded -/

/-- The two callers differ in positions and counters only, or in fields that
`Unchanged` does not look at. -/
structure Alike (s t : Caller) : Prop where
  ids : t.euid = s.euid ∧ t.egid = s.egid
  hasSpace : t.hasSpace = s.hasSpace
  space : t.space = s.space
  bitmap : t.bitmap = s.bitmap
  others : t.others = s.others

/-- Since `s`, something has been recorded, or nothing has changed. -/
def Traced (s t : Caller) : Prop := s.trace <:+ t.trace ∧ (t.trace = s.trace → Alike s t)

theorem traced_self : Traced s s :=
  ⟨List.suffix_rfl, fun _ => ⟨⟨rfl, rfl⟩, rfl, rfl, rfl, rfl⟩⟩

/-- A step that is recorded may change anything. -/
theorem Traced.step {t u : Caller} {x : Touch} (h : Traced s t) (hu : u.trace = x :: t.trace) :
    Traced s u := by
  have hlen := h.1.length_le
  refine ⟨hu ▸ h.1.trans (List.suffix_cons x t.trace), fun heq => ?_⟩
  rw [hu] at heq
  have := congrArg List.length heq
  rw [List.length_cons] at this
  omega

/-- What the loader does to the space, it does through the trace. -/
theorem closed_traced (s : Caller) : Closed (Traced s) where
  read _ _ _ _ _ h := ⟨h.1, fun heq =>
    ⟨(h.2 heq).ids, (h.2 heq).hasSpace, (h.2 heq).space, (h.2 heq).bitmap, (h.2 heq).others⟩⟩
  map _ _ h := h.step rfl
  free _ _ h := h.step rfl
  store _ _ _ _ h := h.step rfl
  protect _ _ h := h.step rfl

/-- The ids are set, and that is recorded. -/
theorem setIds_traced {f : File} : Keeps (Traced s) (setIds f) := by
  refine .modify fun t ht => ?_
  split
  · have huser : Traced s (takeUser f t) := by
      unfold takeUser
      split
      · exact ht.step rfl
      · exact ht
    unfold takeGroup
    split
    · exact huser.step rfl
    · exact huser
  · exact ht

/-- A load that fails before anything is recorded has changed nothing. -/
theorem Unloaded.alike {path : List UInt8} (h : Unloaded env path s) :
    ∃ t, load env path s = .error .failed t ∧ Alike s t := by
  obtain ⟨hpe, t, hload, htrace⟩ := h
  refine ⟨t, hload, ?_⟩
  cases hopen : env.openImage path with
  | none =>
    unfold load at hload
    rw [hopen] at hload
    cases hload
    exact traced_self.2 rfl
  | some f =>
    have hkeeps := load_closed hopen (hpe f hopen) (closed_traced s) setIds_traced s traced_self
    rw [hload] at hkeeps
    exact hkeeps.2 htrace

/-! ### The refusals -/

/-- The failure exit leaves the early changes. -/
theorem abandon_unchanged_iff {t : Caller} (h : Alike (early env s) t) :
    Unchanged s (abandon s t) ↔ Pristine env s := by
  have hothers : (abandon s t).others = if s.hasSpace then [] else s.others := by
    rw [show (if s.hasSpace then [] else s.others) = t.others from h.others.symm]
    unfold abandon
    split <;> rfl
  have hbitmap : (abandon s t).bitmap = ⟨env.bitmapPages, bitmapBits, fun _ => false⟩ := by
    rw [show (⟨env.bitmapPages, bitmapBits, fun _ => false⟩ : Bitmap) = t.bitmap from h.bitmap.symm]
    unfold abandon
    split <;> rfl
  have hspace : (abandon s t).space = s.space := by
    unfold abandon
    split
    next hs => exact h.space.trans (if_pos hs)
    next hs => rfl
  constructor
  · intro hu
    -- only the bitmap and the threads can tell the difference
    obtain ⟨hall, hbits, hused⟩ := hu.bitmap
    rw [hbitmap] at hall hbits hused
    refine ⟨fun hs => ?_, hall.symm, hbits.symm, fun v => (hused v).symm⟩
    rw [← hu.others, hothers, if_pos hs]
  · intro hp
    refine ⟨?_, ?_, ?_, ?_, ?_, ?_⟩
    · unfold abandon
      split <;> exact h.ids
    · unfold abandon
      split
      next hs => rw [h.hasSpace, hs]; rfl
      next hs => exact (Bool.of_not_eq_true hs).symm
    · rw [hspace]
      exact fun _ => ⟨rfl, rfl, rfl⟩
    · rw [hspace]
      exact fun _ _ => rfl
    · rw [hbitmap]
      exact ⟨hp.allocated.symm, hp.bits.symm, fun v => (hp.blank v).symm⟩
    · rw [hothers]
      split
      next hs => exact (hp.alone hs).symm
      next => rfl

/-- A given environment is copied like the arguments. -/
theorem copyEnvp_given {sp : Space} {v : StrVec} (hv : v ≠ .null) :
    copyEnvp sp v =
      match copyStrs sp v with
      | none => throw .failed
      | some strs => pure (some strs) := by
  cases v with
  | null => exact absurd rfl hv
  | user addr _ => rfl
  | kernel strs => rfl

/-- Copying the environment leaves the state; it fails for a vector that
cannot be copied. -/
theorem copyEnvp_cases (sp : Space) (v : StrVec) (t : Caller) :
    (∃ envp, copyEnvp sp v t = .ok envp t ∧ (v ≠ .null → copyStrs sp v ≠ none)) ∨
      copyEnvp sp v t = .error .failed t := by
  by_cases hv : v = .null
  · subst hv
    exact .inl ⟨none, rfl, fun h => absurd rfl h⟩
  rw [copyEnvp_given hv]
  cases copyStrs sp v with
  | none => exact .inr rfl
  | some strs => exact .inl ⟨some strs, rfl, fun _ => Option.some_ne_none strs⟩

/-- A refused call fails with the early changes made. -/
theorem prepare_refused (h : Refused env a s) (hspace : ¬ NoSpace env s) :
    ∃ t, prepare env a s = .error .failed t ∧ Alike (early env s) t := by
  have hself : Alike (early env s) (early env s) := traced_self.2 rfl
  unfold prepare
  rw [early_eq hspace]
  cases hgrant : env.grant s.allocs with
  | false => exact ⟨early env s, rfl, hself⟩
  | true =>
    obtain ⟨envp, hok, hcopied⟩ | herr := copyEnvp_cases (spaceOf env s) a.envp (early env s)
    · rcases h with hbuf | ⟨hnull, hcopy⟩ | hload
      · exact absurd (hbuf.symm.trans hgrant) (by decide)
      · exact absurd hcopy (hcopied hnull)
      · obtain ⟨t, hload, ht⟩ := hload.alike
        exact ⟨t, (bind_of_ok hok).trans (bind_of_error hload), ht⟩
    · exact ⟨early env s, bind_of_error (x := copyEnvp (spaceOf env s) a.envp) herr, hself⟩

/-- A refused call leaves the caller unchanged exactly when the early
changes change nothing. -/
theorem refused_unchanged_iff (h : Refused env a s) (hspace : ¬ NoSpace env s) :
    (∀ t, sysExecve env a s = .error .failed t → Unchanged s t) ↔ Pristine env s := by
  obtain ⟨u, hrun, hu⟩ := prepare_refused h hspace
  have hexec : sysExecve env a s = .error .failed (abandon s u) := by
    unfold sysExecve execBody
    rw [bind_of_error hrun]
  rw [← abandon_unchanged_iff hu]
  constructor
  · intro hall
    exact hall _ hexec
  · intro hun t ht
    rw [hexec] at ht
    cases ht
    exact hun

/-- A caller without an address space that gets none is as before. -/
theorem sysExecve_noSpace (h : NoSpace env s) (a : ExecArgs) :
    sysExecve env a s = .error .failed s := by
  have hprep : prepare env a s = .error .failed s := early_noSpace h _
  unfold sysExecve execBody
  rw [bind_of_error hprep]
  show EStateM.Result.error Stop.failed (abandon s s) = _
  rw [abandon, if_neg (by rw [h.1]; decide), ← h.1]

/-! ### The call -/

/-- A kernel without files. -/
def noFiles : Env := { oneFile (imageAt 0x8048000) with openImage := fun _ => none }

/-- `execve` of `/` with empty vectors. -/
def execRoot : ExecArgs := ⟨[0x2f], .null, .null⟩

/-- Without files every call is refused. -/
theorem refused_noFiles (s : Caller) : Refused noFiles execRoot s :=
  .inr (.inr ⟨fun _ h => absurd h (by simp [noFiles]), _, rfl, rfl⟩)

/-- The effective user id after a failed call. -/
def failedEuid : EStateM.Result Stop Caller Entry → Option Nat
  | .error .failed t => some t.euid
  | _ => none

-- a file with the set-user-id bit whose segment is in the last page of the
-- window: the call fails, and the caller keeps the id of the owner
example : failedEuid (sysExecve (oneFile { imageAt 0x3ffff000 with mode := 0x89ed }) execRoot
    { emptyCaller with euid := 1000 }) = some 0 := by
  decide +kernel

end CoreZ.Proofs.Userprog.Execve
