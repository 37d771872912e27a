import CoreZ.Userprog.Exec

/-!
# `CoreZ.Userprog.Execve`: replacing the program of a task

`sys_execve`: the other threads of the address space end, the bitmap is made
anew, the argument strings are copied in, the image is loaded into the pages
of the caller, and the stack is built. The path is a kernel string; the
vectors are in user memory, or in the kernel for a caller from the kernel.

`argc` is unsigned in the source, so a failed copy of `argv` is not noticed:
`argc` is `0xffffffff` then, and no strings are pushed.

The failure exit frees the string buffer, and the address space if the
caller had none before. Left out, besides what `CoreZ.Userprog.Exec` leaves
out: the descriptors with close-on-exec, and the runtime block of a PE
image.
-/

set_option autoImplicit false

namespace CoreZ.Userprog.Exec

open CoreZ.Lib (Buf leNat leBytes)

/-! ### Argument vectors -/

/-- `argv` or `envp`: NULL, the address of a vector in user memory, or the
strings of a caller from the kernel. -/
inductive StrVec where
  | null
  | user (addr : Nat) (nonnull : addr ≠ 0)
  | kernel (strs : List (List UInt8))

variable (sp : Space)

/-- `user_page_readable`. -/
def userReadable (v : Nat) : Bool := sp.present v && sp.user v

/-- The address passes the range check of `copy_from_user` for `len`
bytes. -/
def inUserRange (a len : Nat) : Bool := decide (userVaddrStart ≤ a ∧ a + len ≤ userStackTop)

/-- `copy_from_user` of a pointer. -/
def copyPointer (a : Nat) : Option Nat :=
  if inUserRange a 8 && userReadable sp (a / pageSize) && userReadable sp ((a + 7) / pageSize) then
    some (leNat sp.mem 8 a)
  else none

/-- The loop of `user_str_span`; `n` bytes are left. -/
def strSpan (sp : Space) : (n a : Nat) → Option (List UInt8)
  | 0, _ => none
  | n + 1, a =>
    if userReadable sp (a / pageSize) then
      if sp.mem a = 0 then some []
      else (strSpan sp n (a + 1)).map (sp.mem a :: ·)
    else none

/-- `copy_str_from_user_len`. -/
def copyStr (src max : Nat) : Option (List UInt8) :=
  if inUserRange (u32 src) 1 then strSpan sp max (u32 src) else none

/-- The loop of `copy_strs` for a user caller: `n` strings are left, `i`
have been copied and take `used` bytes of the buffer. -/
def copyUserStrs (sp : Space) (strs : Nat) : (n i used : Nat) → Option (List (List UInt8))
  | 0, _, _ => some []
  | n + 1, i, used =>
    match copyPointer sp (u32 (strs + 8 * i)) with
    | none => none
    | some 0 => some []
    | some (p + 1) =>
      match copyStr sp (p + 1) (min (execStrbufHalf - used) maxArgStrLen) with
      | none => none
      | some str => (copyUserStrs sp strs n (i + 1) (used + (str.length + 1))).map (str :: ·)

/-- The loop of `copy_strs` for a caller from the kernel. -/
def copyKernelStrs : (n used : Nat) → List (List UInt8) → Option (List (List UInt8))
  | 0, _, _ => some []
  | _ + 1, _, [] => some []
  | n + 1, used, str :: strs =>
    if maxArgStrLen ≤ str.length ∨ execStrbufHalf < used + (str.length + 1) then none
    else (copyKernelStrs n (used + (str.length + 1)) strs).map (str :: ·)

def copyStrs : StrVec → Option (List (List UInt8))
  | .null => some []
  | .user addr _ => copyUserStrs sp addr maxArgNr 0 0
  | .kernel strs => copyKernelStrs maxArgNr 0 strs

def asciiBytes (s : String) : List UInt8 := s.toList.map fun c => UInt8.ofNat c.toNat

/-- `exec_env_defaults`. -/
def execEnvDefaults (euid : Nat) : List (List UInt8) :=
  (if euid = 0 then
    ["PATH=/bin:/usr/bin:/", "HOME=/root", "USER=root", "LOGNAME=root", "LANG=C"]
  else ["PATH=/bin:/usr/bin", "HOME=/home/user", "USER=user", "LOGNAME=user", "LANG=C"]).map
    asciiBytes

/-! ### The stack -/

/-- A string with its terminating zero; behind it, zeroes. -/
def stringBuf (str : List UInt8) : Buf := fun i => str.getD i 0

variable (env : Env)

/-- Push `len` bytes, aligned down to the word size `aw`; the stack must not
go below its bottom. -/
def pushBytes (aw len : Nat) (b : Buf) (sp : Nat) : LoadM Nat := do
  let sp := sub32 sp len / aw * aw
  require (decide (userStackBottom ≤ sp))
  storeBytes env sp len b
  return sp

/-- Push the strings, the last one first: the stack pointer and the
addresses. The lengths are given apart, as in `slens` and `envlens`. -/
def pushStrings (env : Env) (aw : Nat) : List (Nat × List UInt8) → (sp : Nat) →
    LoadM (Nat × List Nat)
  | [], sp => pure (sp, [])
  | (len, str) :: strs, sp => do
      let r ← pushStrings env aw strs sp
      let a ← pushBytes env aw len (stringBuf str) r.1
      pure (a, a :: r.2)

/-- `PSTACK` of each word, the last one first. -/
def pushWords (env : Env) (aw : Nat) : List Nat → (sp : Nat) → LoadM Nat
  | [], sp => pure sp
  | w :: ws, sp => do
      let sp ← pushWords env aw ws sp
      storeBytes env (sub32 sp aw) aw (leBytes w)
      pure (sub32 sp aw)

/-- `PVAL` of each word, upwards. -/
def storeWords (env : Env) (aw : Nat) : List Nat → (a : Nat) → LoadM Unit
  | [], _ => pure ()
  | w :: ws, a => do
      storeBytes env a aw (leBytes w)
      storeWords env aw ws (a + aw)

/-- The auxiliary vector. -/
def auxv (s : Caller) (img : Image) (execfn random : Nat) : List Nat :=
  [31, execfn, 6, pageSize, 17, 100, 9, img.appEntry, 3,
    u32 (img.phdrVaddr + if img.is64 then img.bias else 0), 4, img.phentsize, 5, img.phnum,
    11, s.uid, 12, s.euid, 13, s.gid, 14, s.egid, 23, 0] ++
  (if img.is64 then [7, img.base] else []) ++ [8, 0, 16, 0, 25, random, 0, 0]

/-- What `fill_entry_regs` is given. -/
structure Entry where
  entry : Nat
  is64 : Bool
  rsp : Nat
  argc : Nat
  argvBase : Nat
  envpBase : Nat
  isPe : Bool

/-- The strings of `argv` and their number. -/
def argcOf (argv : Option (List (List UInt8))) : Nat × List (Nat × List UInt8) :=
  match argv with
  | none => (0xffffffff, [])
  | some strs => (strs.length, strs.map fun str => (str.length + 1, str))

/-- The environment strings, with the lengths that were computed before the
image was loaded. -/
def envStrings (envp : Option (List (List UInt8))) (euidBefore euid : Nat) :
    List (Nat × List UInt8) :=
  match envp with
  | some strs => strs.map fun str => (str.length + 1, str)
  | none =>
    ((execEnvDefaults euidBefore).zip (execEnvDefaults euid)).map fun p => (p.1.length + 1, p.2)

/-- The part of `sys_execve` that builds the stack; `aw` is the size of a
word. -/
def buildStack (img : Image) (path : List UInt8) (argc : Nat) (argv : List (Nat × List UInt8))
    (envs : List (Nat × List UInt8)) : LoadM Entry := do
  let aw := if img.is64 then 8 else 4
  let below ← rand32 env
  let sub ← rand32 env
  let top := userStackTop - below % (userStackPages - 3) * pageSize - sub % (pageSize / 8) * 8
  let r0 ← rand64 env
  let r1 ← rand64 env
  let random := top - 16
  storeBytes env random 8 (leBytes r0)
  storeBytes env (random + 8) 8 (leBytes r1)
  let args ← pushStrings env aw argv random
  let execfn ← pushBytes env aw (path.length + 1) (stringBuf path) args.1
  let envAddrs ← pushStrings env aw envs execfn
  let s ← get
  let aux := auxv s img execfn random
  let sp := envAddrs.1 / aw * aw
  let sp := if img.is64 ∧
      sub32 sp (u32 (u32 (aux.length + envs.length + argc + 3) * 8)) % 16 ≠ 0 then sub32 sp 8
    else sp
  let sp := sub32 sp (aux.length * aw)
  require (decide (userStackBottom ≤ sp))
  storeWords env aw aux sp
  let sp ← pushWords env aw ([argc] ++ args.2 ++ [0] ++ envAddrs.2 ++ [0]) sp
  let argvBase := u32 (sp + aw)
  pure
    { entry := img.entry
      is64 := img.is64
      rsp := if img.isPe ∧ sp % 16 = 0 then sub32 sp 8 else sp
      argc := argc
      argvBase := argvBase
      envpBase := u32 (argvBase + u32 (u32 (argc + 1) * aw))
      isPe := img.isPe }

/-! ### The call -/

/-- `vaddr_reserve_at`: all pages or none. -/
def vaddrReserveAt (b : Bitmap) (base pages : Nat) : Bitmap :=
  let first := base / pageSize
  if base < userVaddrStart ∨ ((List.range pages).any fun i =>
      !inBitmap b (first + i) || b.used (first + i)) then b
  else { b with used := fun v => decide (first ≤ v ∧ v < first + pages) || b.used v }

/-- The heap's part of the bitmap. -/
def reserveHeap (brkBase : Nat) : LoadM Unit :=
  modify fun s =>
    if brkBase = 0 then s
    else
      { s with
        bitmap := vaddrReserveAt s.bitmap brkBase
          (min (sub32 userLowCeiling brkBase / pageSize) (heapAslrPages + 1024)) }

/-- The body of the loop over the pages of the stack. -/
def ensureStackPage (v : Nat) : LoadM Unit := do
  let s ← get
  if s.space.present v then pure ()
  else do
    let ok ← getAPage env v
    require ok

def ensureStack (env : Env) : (n v : Nat) → LoadM Unit
  | 0, _ => pure ()
  | n + 1, v => do
      ensureStackPage env v
      ensureStack env n (v + 1)

/-- `space_detach_others`: the other threads end. -/
def detachOthers : LoadM Unit := modify fun s => if s.hasSpace then { s with others := [] } else s

/-- A caller without an address space gets one. -/
def ensureSpace : LoadM Unit := do
  let s ← get
  if s.hasSpace then pure ()
  else
    match env.pageDir with
    | none => throw .failed
    | some sp => set { s with hasSpace := true, space := sp }

/-- The old bitmap is freed and `create_user_vaddr_bitmap` makes a new
one. -/
def renewBitmap : LoadM Unit :=
  modify fun s => { s with bitmap := ⟨env.bitmapPages, bitmapBits, fun _ => false⟩ }

structure ExecArgs where
  path : List UInt8
  argv : StrVec
  envp : StrVec

/-- The environment strings that were given: `none` for a NULL `envp`. -/
def copyEnvp : StrVec → LoadM (Option (List (List UInt8)))
  | .null => pure none
  | v =>
    match copyStrs sp v with
    | none => throw .failed
    | some strs => pure (some strs)

/-- What the stack is built from: the image, `argc` with the strings of
`argv`, and the environment. -/
structure Prepared where
  img : Image
  argv : Nat × List (Nat × List UInt8)
  envs : List (Nat × List UInt8)

/-- The body of `sys_execve` up to the stack. -/
def prepare (a : ExecArgs) : LoadM Prepared := do
  detachOthers
  ensureSpace env
  renewBitmap env
  let strbuf ← nextGrant env
  require strbuf
  let s ← get
  let envp ← copyEnvp s.space a.envp
  let img ← load env a.path
  -- an entry point of 0xffffffff cannot be told from a failure
  require (img.entry != 0xffffffff)
  reserveHeap img.brkBase
  ensureStack env userStackPages (userStackBottom / pageSize)
  let t ← get
  return ⟨img, argcOf (copyStrs s.space a.argv), envStrings envp s.euid t.euid⟩

/-- The body of `sys_execve`, up to the exits. -/
def execBody (a : ExecArgs) : LoadM Entry := do
  let r ← prepare env a
  buildStack env r.img a.path r.argv.1 r.argv.2 r.envs

/-- `exec_fail`: a caller that had no address space has none again. -/
def abandon (s t : Caller) : Caller :=
  if s.hasSpace then t else { t with hasSpace := false, space := s.space }

def sysExecve (a : ExecArgs) : LoadM Entry := fun s =>
  match execBody env a s with
  | .ok e t => .ok e t
  | .error .failed t => .error .failed (abandon s t)
  | .error e t => .error e t

end CoreZ.Userprog.Exec
