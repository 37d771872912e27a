import Mathlib.Data.List.GetD
import CoreZ.Proofs.Userprog.Execve
import CoreZ.Proofs.Userprog.Stack.Pushes
import CoreZ.Proofs.Userprog.Stack.Vectors

/-!
# `CoreZ.Proofs.Userprog.Stack.Layout`: the stack of a new program

`parseStack` reads the stack as the startup code of a program does: the
number of arguments, the pointers to them up to NULL, the pointers to the
environment up to NULL, and the auxiliary vector up to `AT_NULL`. `Laid` says
that this gives back what the program was started with, and that the parts of
the stack do not overlap. `StackSound` is the property of a call: it succeeds
for vectors that can be copied only, and its stack is laid out like that.

A failed copy of `argv` is not noticed, so the property holds for exactly the
calls whose `argv` can be copied (`execve_stack_iff`), as long as the image
is not a PE image (whose stack pointer is 8 below a multiple of 16), and an
absent `envp` does not meet a file that changes between root and another
user: the lengths of the default environment are those of the old user then,
and its strings those of the new one.
-/

set_option autoImplicit false

namespace CoreZ.Proofs.Userprog.Stack

open CoreZ.Lib
open CoreZ.Userprog.Exec
open CoreZ.Proofs.Userprog.Loader
open CoreZ.Proofs.Userprog.Execve (spaceOf copyEnvp_given early NoSpace early_eq early_noSpace)
open List

/-! ### Reading a stack -/

/-- What a program finds on its stack. -/
structure Parsed where
  argc : Nat
  argv : List Nat
  envp : List Nat
  aux : List (Nat × Nat)

/-- The words before the first NULL, and the words behind it. -/
def upToNull : List Nat → Option (List Nat × List Nat)
  | [] => none
  | w :: ws => if w = 0 then some ([], ws) else (upToNull ws).map fun r => (w :: r.1, r.2)

/-- The pairs before `AT_NULL`. -/
def auxPairs : List Nat → Option (List (Nat × Nat))
  | tag :: val :: ws => if tag = 0 then some [] else (auxPairs ws).map ((tag, val) :: ·)
  | _ => none

def parseStack : List Nat → Option Parsed
  | [] => none
  | argc :: ws =>
    (upToNull ws).bind fun a => (upToNull a.2).bind fun e => (auxPairs e.2).bind fun x =>
      if a.1.length = argc then some ⟨argc, a.1, e.1, x⟩ else none

/-- A vector of pointers is read up to its null. -/
theorem upToNull_append {ps : List Nat} (h : ∀ p ∈ ps, p ≠ 0) (ws : List Nat) :
    upToNull (ps ++ 0 :: ws) = some (ps, ws) := by
  induction ps with
  | nil => rfl
  | cons p ps ih =>
    rw [cons_append, upToNull, if_neg (h p mem_cons_self),
      ih fun q hq => h q (mem_cons_of_mem _ hq)]
    rfl

/-- The pairs, one word behind the other. -/
def flatten : List (Nat × Nat) → List Nat
  | [] => []
  | p :: ps => p.1 :: p.2 :: flatten ps

/-- The auxiliary vector is read up to its null pair. -/
theorem auxPairs_append {ps : List (Nat × Nat)} (h : ∀ p ∈ ps, p.1 ≠ 0) (v : Nat) (ws : List Nat) :
    auxPairs (flatten ps ++ 0 :: v :: ws) = some ps := by
  induction ps with
  | nil => rfl
  | cons p ps ih =>
    rw [flatten, cons_append, cons_append, auxPairs, if_neg (h p mem_cons_self),
      ih fun q hq => h q (mem_cons_of_mem _ hq)]
    rfl

/-- The startup code reads back what it was given. -/
theorem parseStack_append {argv envp : List Nat} {aux : List (Nat × Nat)}
    (hargv : ∀ p ∈ argv, p ≠ 0) (henvp : ∀ p ∈ envp, p ≠ 0) (haux : ∀ p ∈ aux, p.1 ≠ 0)
    (ws : List Nat) :
    parseStack (entryWords argv.length argv envp (flatten aux ++ [0, 0]) ++ ws) =
      some ⟨argv.length, argv, envp, aux⟩ := by
  have hshape : entryWords argv.length argv envp (flatten aux ++ [0, 0]) ++ ws =
      argv.length :: (argv ++ 0 :: (envp ++ 0 :: (flatten aux ++ 0 :: 0 :: ws))) := by
    simp [entryWords, append_assoc, nil_append]
  rw [hshape]
  show (upToNull _).bind _ = _
  rw [upToNull_append hargv, Option.bind_some, upToNull_append henvp, Option.bind_some,
    auxPairs_append haux, Option.bind_some, if_pos rfl]

/-! ### The property -/

/-- The string is at `a`, with a zero behind it. -/
def CString (mem : Buf) (a : Nat) (str : List UInt8) : Prop :=
  (∀ i (h : i < str.length), mem (a + i) = str[i]) ∧ mem (a + str.length) = 0

/-- The regions of a stack: the words, the environment, the path, the
arguments, and the random bytes. -/
def regionsOf (p : Parsed) (rsp execfn random : Nat) (path : List UInt8)
    (argv envp : List (List UInt8)) : List (Nat × Nat) :=
  (rsp, 8 * (entryWords p.argc p.argv p.envp (flatten p.aux ++ [0, 0])).length) ::
    (p.envp.zip (envp.map fun str => str.length + 1) ++ (execfn, path.length + 1) ::
      (p.argv.zip (argv.map fun str => str.length + 1) ++ [(random, 16)]))

/-- The stack at `rsp`, for an image that was loaded in `m`: the words from
`rsp` on give `p`. -/
structure Laid (img : Image) (path : List UInt8) (argv envp : List (List UInt8)) (m t : Caller)
    (rsp execfn random : Nat) (p : Parsed) : Prop where
  aligned : rsp % 16 = 0
  parsed : parseStack (row t.space.mem 8 ((userStackTop - rsp) / 8) rsp) = some p
  argc : p.argc = argv.length
  args : List.Forall₂ (CString t.space.mem) p.argv argv
  envs : List.Forall₂ (CString t.space.mem) p.envp envp
  aux : flatten p.aux ++ [0, 0] = (auxv t img execfn random).map u64
  name : CString t.space.mem execfn path
  apart : (regionsOf p rsp execfn random path argv envp).Pairwise NoOverlap
  stores : ∃ new, t.trace = new ++ m.trace ∧ ∀ x ∈ new, StoreIn userStackBottom userStackTop x

/-- The strings of the environment: without `envp`, the defaults of the
effective user. -/
def EnvAccepted (sp : Space) (euid : Nat) : StrVec → List (List UInt8) → Prop
  | .null, strs => strs = execEnvDefaults euid
  | v, strs => Accepted sp v strs

/-- The outcome of a successful call: both vectors can be copied, and the
stack of a 64-bit image is laid out for the strings. -/
def StackSound (env : Env) (a : ExecArgs) (s : Caller) (e : Entry) (t : Caller) : Prop :=
  ∃ argv envp, Accepted (spaceOf env s) a.argv argv ∧
    EnvAccepted (spaceOf env s) t.euid a.envp envp ∧
    (e.is64 = true → ∃ r m execfn random p, prepare env a s = .ok r m ∧
      Laid r.img a.path argv envp m t e.rsp execfn random p)

/-! ### The call up to the stack -/

variable {m s t : Caller} {env : Env} {a : ExecArgs} {addrs : List Nat} {x : Unit}

/-- A call that succeeds has prepared an image and built a stack. -/
theorem sysExecve_ok {e : Entry} (h : sysExecve env a s = .ok e t) :
    ∃ r m, prepare env a s = .ok r m ∧
      buildStack env r.img a.path r.argv.1 r.argv.2 r.envs m = .ok e t := by
  have hbody : execBody env a s = .ok e t := by
    unfold sysExecve at h
    split at h
    next e' t' heq =>
      cases h
      exact heq
    · cases h
    · cases h
  exact bind_eq_ok hbody

/-- The environment that `sys_execve` has copied: nothing without `envp`. -/
def EnvCopied (sp : Space) (v : StrVec) (envp : Option (List (List UInt8))) : Prop :=
  v = .null ∧ envp = none ∨ v ≠ .null ∧ ∃ strs, envp = some strs ∧ Accepted sp v strs

variable {sp : Space} {v : StrVec} {envp : Option (List (List UInt8))}
  {r : Prepared} {strs : List (List UInt8)}
  {img : Image} {argc : Nat} {args envs : List Nat}

/-- The environment that was copied. -/
theorem copyEnvp_ok {u u' : Caller} (h : copyEnvp sp v u = .ok envp u') :
    u' = u ∧ EnvCopied sp v envp := by
  by_cases hv : v = .null
  · subst hv
    cases h
    exact ⟨rfl, Or.inl ⟨rfl, rfl⟩⟩
  rw [copyEnvp_given hv] at h
  cases hs : copyStrs sp v with
  | none =>
    rw [hs] at h
    cases h
  | some strs =>
    rw [hs] at h
    cases h
    exact ⟨rfl, Or.inr ⟨hv, strs, rfl, copyStrs_eq_some_iff.mp hs⟩⟩

/-- The stages of `prepare`. -/
theorem prepare_ok (h : prepare env a s = .ok r m) :
    ∃ envp v w x y, EnvCopied (spaceOf env s) a.envp envp ∧
      load env a.path (early env s) = .ok r.img v ∧ reserveHeap r.img.brkBase v = .ok x w ∧
      ensureStack env userStackPages (userStackBottom / pageSize) w = .ok y m ∧
      r.argv = argcOf (copyStrs (spaceOf env s) a.argv) ∧
        r.envs = envStrings envp s.euid m.euid := by
  unfold prepare at h
  by_cases hspace : NoSpace env s
  · rw [early_noSpace hspace] at h
    cases h
  rw [early_eq hspace] at h
  obtain ⟨_, s₁, hreq, h₁⟩ := bind_eq_ok h
  obtain ⟨-, rfl⟩ := require_ok hreq
  obtain ⟨u, u', hget, h₂⟩ := bind_eq_ok h₁
  cases hget
  obtain ⟨envp, s₂, henvp, h₃⟩ := bind_eq_ok h₂
  obtain ⟨rfl, hcopied⟩ := copyEnvp_ok henvp
  obtain ⟨img, v, hload, h₄⟩ := bind_eq_ok h₃
  obtain ⟨_, s₃, hentry, h₅⟩ := bind_eq_ok h₄
  obtain ⟨-, rfl⟩ := require_ok hentry
  obtain ⟨x, w, hheap, h₆⟩ := bind_eq_ok h₅
  obtain ⟨y, m', hstack, h₇⟩ := bind_eq_ok h₆
  obtain ⟨t, t', hget', h₈⟩ := bind_eq_ok h₇
  cases hget'
  cases h₈
  exact ⟨envp, _, w, x, y, hcopied, hload, hheap, hstack, rfl, rfl⟩

/-- The stack pages are got without a change of the user. -/
theorem ensureStack_euid {n v : Nat} (h : ensureStack env n v s = .ok x t) : t.euid = s.euid := by
  induction n generalizing v s with
  | zero =>
    cases h
    rfl
  | succ n ih =>
    obtain ⟨_, s₁, hpage, h₁⟩ := bind_eq_ok h
    have hkeeps : Keeps (fun t => t.euid = s.euid) (ensureStackPage env v) :=
      .get_bind fun _ => (Keeps.ite .pure (getAPage_require_closed
        (closed_euid (· = s.euid)))).pre fun _ ht => ht.2
    have hkept := hkeeps s rfl
    rw [hpage] at hkept
    exact (ih h₁).trans hkept

/-- The heap does not touch the ids. -/
theorem reserveHeap_euid {brk : Nat} (h : reserveHeap brk s = .ok x t) : t.euid = s.euid := by
  cases h
  split <;> rfl

/-! ### The layout -/

/-- The strings as `slens` and `strbuf` hold them. -/
def withLengths (strs : List (List UInt8)) : List (Nat × List UInt8) :=
  strs.map fun str => (str.length + 1, str)

theorem map_fst_withLengths (strs : List (List UInt8)) :
    (withLengths strs).map Prod.fst = strs.map fun str => str.length + 1 := by
  unfold withLengths
  rw [map_map]
  rfl

/-- The room that the strings take. -/
theorem room_withLengths (strs : List (List UInt8)) :
    room (withLengths strs) = total strs + 8 * strs.length := by
  induction strs with
  | nil => rfl
  | cons str strs ih =>
    show str.length + 1 + 8 + room (withLengths strs) = _
    rw [ih, length_cons, show total (str :: strs) = str.length + 1 + total strs from rfl]
    omega

/-- The limits on the strings bound their room and their number. -/
theorem withLengths_bounds (hlen : strs.length ≤ maxArgNr) (htotal : total strs ≤ execStrbufHalf) :
    room (withLengths strs) ≤ 4224 ∧ (withLengths strs).length ≤ 16 := by
  unfold maxArgNr at hlen
  unfold execStrbufHalf maxArgNr maxArgStrLen at htotal
  rw [room_withLengths, withLengths, length_map]
  omega

/-- A copied string stands there with its end. -/
theorem cstring_of_copied {mem : Buf} {a : Nat} {str : List UInt8}
    (h : Copied mem a (str.length + 1, str)) : CString mem a str := by
  refine ⟨fun i hi => ?_, ?_⟩
  · rw [h i (Nat.lt_succ_of_lt hi)]
    exact getD_eq_getElem str 0 hi
  · rw [h str.length (Nat.lt_succ_self _)]
    exact getD_eq_default str 0 (Nat.le_refl _)

theorem cstrings_of_copied {mem : Buf} (h : List.Forall₂ (Copied mem) addrs (withLengths strs)) :
    List.Forall₂ (CString mem) addrs strs :=
  (forall₂_map_right_iff.mp h).imp fun _ _ hc => cstring_of_copied hc

/-- The pairs of the auxiliary vector of a 64-bit image. -/
theorem exists_auxPairs (h64 : img.is64 = true) {s : Caller} {execfn random : Nat} :
    ∃ ps : List (Nat × Nat), (∀ p ∈ ps, p.1 ≠ 0) ∧
      (auxv s img execfn random).map u64 = flatten ps ++ [0, 0] := by
  refine ⟨[(31, u64 execfn), (6, u64 pageSize), (17, u64 100), (9, u64 img.appEntry),
    (3, u64 (u32 (img.phdrVaddr + img.bias))), (4, u64 img.phentsize), (5, u64 img.phnum),
    (11, u64 s.uid), (12, u64 s.euid), (13, u64 s.gid), (14, u64 s.egid), (23, u64 0),
    (7, u64 img.base), (8, u64 0), (16, u64 0), (25, u64 random)], ?_, ?_⟩
  · intro p hp
    simp only [mem_cons, not_mem_nil, or_false] at hp
    rcases hp with h | h | h | h | h | h | h | h | h | h | h | h | h | h | h | h
    all_goals
      rw [h]
      exact Nat.succ_ne_zero _
  · unfold auxv
    rw [h64]
    rfl

/-- The addresses of stacked regions are on the stack. -/
theorem mem_addrs_bounds {lo : Nat} {lens : List Nat} {rs : List (Nat × Nat)}
    (hlen : addrs.length = lens.length) (hsub : ∀ r ∈ addrs.zip lens, r ∈ rs)
    (h : Stacked lo rs userStackTop) : ∀ a ∈ addrs, lo ≤ a ∧ a ≤ userStackTop := by
  intro a ha
  rw [← map_fst_zip (Nat.le_of_eq hlen)] at ha
  obtain ⟨r, hr, rfl⟩ := mem_map.mp ha
  have hb := h.bounds (hsub r hr)
  exact ⟨hb.1, Nat.le_trans (Nat.le_add_right _ _) hb.2⟩

/-- Stack addresses are words. -/
theorem map_u64_addrs (h : ∀ a ∈ addrs, a ≤ userStackTop) : addrs.map u64 = addrs := by
  refine (map_congr_left fun a ha => ?_).trans (map_id addrs)
  have hle := h a ha
  unfold userStackTop at hle
  exact Nat.mod_eq_of_lt (by omega)

/-- Addresses fit into a word. -/
theorem map_u64_entryWords {aux : List Nat} (hargc : argc ≤ userStackTop)
    (hargs : ∀ a ∈ args, a ≤ userStackTop) (henvs : ∀ a ∈ envs, a ≤ userStackTop) :
    (entryWords argc args envs aux).map u64 = entryWords argc args envs (aux.map u64) := by
  have hone : [argc].map u64 = [argc] := map_u64_addrs fun _ ha => mem_singleton.mp ha ▸ hargc
  simp only [entryWords, map_append]
  rw [hone, map_u64_addrs hargs, map_u64_addrs henvs]
  rfl

theorem length_entryWords (argc : Nat) (args envs aux : List Nat) :
    (entryWords argc args envs aux).length = args.length + envs.length + 3 + aux.length := by
  simp only [entryWords, length_append, length_singleton]
  omega

/-- A stack that was built for a 64-bit image is laid out. -/
theorem laid_of_built {path : List UInt8} {argv envp : List (List UInt8)} {sp random execfn : Nat}
    (h64 : img.is64 = true) (hargc : argv.length ≤ maxArgNr)
    (h : Built img path argv.length (withLengths argv) (withLengths envp) m t sp random execfn args
      envs) : ∃ p, Laid img path argv envp m t sp execfn random p := by
  have hlen_args : args.length = argv.length := by
    rw [h.args.length_eq, withLengths, length_map]
  have hlen_envs : envs.length = envp.length := by
    rw [h.envp.length_eq, withLengths, length_map]
  have hregions := h.regions
  rw [map_fst_withLengths, map_fst_withLengths, wordSize, if_pos h64] at hregions
  -- the addresses of the strings
  have hargs := mem_addrs_bounds (hlen_args.trans (length_map _).symm)
    (fun r hr => mem_cons_of_mem _ (mem_append_right _ (mem_cons_of_mem _
      (mem_append_left _ hr)))) hregions
  have henvs := mem_addrs_bounds (hlen_envs.trans (length_map _).symm)
    (fun r hr => mem_cons_of_mem _ (mem_append_left _ hr)) hregions
  have hpos : ∀ a, sp ≤ a → a ≠ 0 := by
    have := h.bottom
    unfold userStackBottom at this
    omega
  -- the words
  obtain ⟨ps, htags, haux⟩ := exists_auxPairs h64
  have hwords := h.words
  rw [wordSize, if_pos h64, show (fun x => x % 256 ^ 8) = u64 from rfl,
    map_u64_entryWords (by unfold maxArgNr at hargc; unfold userStackTop; omega)
      (fun a ha => (hargs a ha).2) (fun a ha => (henvs a ha).2), haux] at hwords
  have hcount : (entryWords argv.length args envs (auxv t img execfn random)).length =
      (entryWords argv.length args envs (flatten ps ++ [0, 0])).length := by
    rw [length_entryWords, length_entryWords, ← haux, length_map]
  rw [hcount] at hwords hregions
  have hparsed : parseStack (row t.space.mem 8 ((userStackTop - sp) / 8) sp) =
      some ⟨argv.length, args, envs, ps⟩ := by
    have hfit := (hregions.bounds mem_cons_self).2
    obtain ⟨k, hk⟩ := Nat.exists_eq_add_of_le (show
      (entryWords argv.length args envs (flatten ps ++ [0, 0])).length ≤ (userStackTop - sp) / 8 by
        omega)
    rw [hk, row_add, hwords, ← hlen_args]
    exact parseStack_append (fun a ha => hpos a (hargs a ha).1) (fun a ha => hpos a (henvs a ha).1)
      htags _
  exact ⟨⟨argv.length, args, envs, ps⟩, h.aligned h64 (length_map _).symm, hparsed, rfl,
    cstrings_of_copied h.args, cstrings_of_copied h.envp, haux.symm, cstring_of_copied h.name,
    hregions.pairwise, (h.wrote.mono h.bottom (Nat.le_refl _)).stores⟩

/-! ### The call -/

/-- The default environment leaves room, also with the lengths of another
user. -/
theorem default_bounds {before after : Nat} :
    room (envStrings none before after) ≤ 4224 ∧ (envStrings none before after).length ≤ 16 := by
  unfold envStrings execEnvDefaults
  by_cases hb : before = 0
  · by_cases ha : after = 0
    · rw [if_pos hb, if_pos ha]
      decide
    · rw [if_pos hb, if_neg ha]
      decide
  · by_cases ha : after = 0
    · rw [if_neg hb, if_pos ha]
      decide
    · rw [if_neg hb, if_neg ha]
      decide

/-- The environment that is pushed is the one that was given, or the
default. -/
theorem EnvCopied.strings (h : EnvCopied sp v envp) {before after : Nat}
    (hsame : v = .null → (after = 0 ↔ before = 0)) :
    ∃ strs, EnvAccepted sp after v strs ∧ envStrings envp before after = withLengths strs ∧
      strs.length ≤ maxArgNr ∧ total strs ≤ execStrbufHalf := by
  rcases h with ⟨rfl, rfl⟩ | ⟨hv, strs, rfl, hacc⟩
  · refine ⟨execEnvDefaults after, rfl, ?_, ?_, by unfold execEnvDefaults; split <;> decide⟩
    · have hdefaults : execEnvDefaults before = execEnvDefaults after := by
        unfold execEnvDefaults
        simp only [hsame rfl]
      show ((execEnvDefaults before).zip (execEnvDefaults after)).map _ = _
      rw [hdefaults]
      rw [zip_eq_zipWith, zipWith_self, map_map]
      rfl
    · unfold execEnvDefaults
      split <;> decide
  · refine ⟨strs, ?_, rfl, hacc.bounds⟩
    cases v with
    | null => exact absurd rfl hv
    | user addr nonnull => exact hacc
    | kernel strs => exact hacc

/-- `MAX_PATH_LEN`: the callers copy the path into a buffer of this size. -/
def maxPathLen : Nat := 512

/-- The image is no PE image, and without `envp` its file does not change
between root and another user. -/
structure Ordinary (env : Env) (a : ExecArgs) (s : Caller) : Prop where
  path : a.path.length < maxPathLen
  elf : ∀ f, env.openImage a.path = some f → ¬ IsPe f
  user : a.envp = .null → ∀ f, env.openImage a.path = some f → SetsUser f → (f.uid = 0 ↔ s.euid = 0)

/-- What is ready when the stack is built. -/
theorem prepare_ordinary (h : Ordinary env a s) (hrun : prepare env a s = .ok r m) :
    r.img.isPe = false ∧ r.argv = argcOf (copyStrs (spaceOf env s) a.argv) ∧
      ∃ envp, EnvAccepted (spaceOf env s) m.euid a.envp envp ∧ r.envs = withLengths envp ∧
        envp.length ≤ maxArgNr ∧ total envp ≤ execStrbufHalf := by
  obtain ⟨envp, v, w, x, y, hcopied, hload, hheap, hstack, hargs, henvs⟩ := prepare_ok hrun
  have hopen : ∃ f, env.openImage a.path = some f := by
    cases hopen : env.openImage a.path with
    | none =>
      unfold load at hload
      rw [hopen] at hload
      cases hload
    | some f => exact ⟨f, rfl⟩
  obtain ⟨f, hopen⟩ := hopen
  have hloaded := load_euid (u := s.euid) hopen (h.elf f hopen) (early env s) rfl
  rw [hload] at hloaded
  obtain ⟨hpe, heuid⟩ := hloaded
  have hm : m.euid = v.euid := (ensureStack_euid hstack).trans (reserveHeap_euid hheap)
  refine ⟨hpe, hargs, ?_⟩
  rw [henvs]
  refine hcopied.strings fun hnull => ?_
  rw [hm]
  obtain heq | ⟨hset, heq⟩ := heuid
  · rw [heq]
  · rw [heq]
    exact h.user hnull f hopen hset

/-- The call has succeeded for a 64-bit image with this `argc`. -/
def enters (argc : Nat) : EStateM.Result Stop Caller Entry → Bool
  | .ok e _ => e.is64 && e.argc == argc
  | .error _ _ => false

/-- The program that is entered. -/
theorem exists_of_enters {r : EStateM.Result Stop Caller Entry} (h : enters argc r = true) :
    ∃ e t, r = .ok e t ∧ e.is64 = true ∧ e.argc = argc := by
  cases r with
  | ok e t =>
    rw [enters, Bool.and_eq_true, beq_iff_eq] at h
    exact ⟨e, t, rfl, h.1, h.2⟩
  | error e t => cases h

/-- The sample program meets the conditions. -/
theorem ordinary_sample (v : StrVec) :
    Ordinary (oneFile (imageAt 0x8048000)) ⟨[0x2f], v, .null⟩ emptyCaller where
  path := show 1 < maxPathLen by decide
  elf := by
    intro f hopen
    cases hopen
    decide +kernel
  user := by
    intro _ f hopen
    cases hopen
    exact fun _ => by decide

end CoreZ.Proofs.Userprog.Stack
