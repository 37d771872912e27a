import CoreZ.Userprog.WaitExit

/-!
# `CoreZ.Fs.File`: the global file table and the descriptor tables

The model of `kernel/fs/file.c`, and of the calls that make and drop
references to a slot of `file_table`: opening and closing a file, the
`dup` family, pipes, `sys_fd_redirect`, `fork` and `clone`, `execve`, exit,
kill and wait.

A descriptor table is a field of its task. A task whose `fd_owner_pid` is
another task's uses the table of that task (`fdOwnerTask`), but `fork`,
`clone`, `execve` and `sys_fd_redirect` read and write the table of the
current task itself.

The model keeps, of a `struct FILE`, the reference count and its bit of
`file_slot_used`; of a task, what decides who uses which table. One event is
one call. The results of allocations and of path lookups are part of the
event, and so is the state after `sys_fd_redirect` has written outside the
table: the call does not check its descriptors. Left out: what a slot refers
to, and kernel threads and `process_execute` as sources of tasks.
-/

set_option autoImplicit false

namespace CoreZ.Fs

open CoreZ.Userprog (TaskStatus toInt32)
open Function (update)

/-- An index of `file_table`. -/
abbrev Gfd := Fin 256

/-- A local descriptor. -/
abbrev Fd := Fin 64

/-- An index of `task_table`. -/
abbrev Tid := Fin 64

/-- A slot of `file_table`, with its bit of `file_slot_used`. -/
structure File where
  refCnt : Nat
  used : Bool
  deriving DecidableEq

abbrev FileTable := Gfd → File

/-- The fields of `struct TASK` that the calls use; `pml4` is 0 without an
address space. -/
structure FdTask where
  slotUsed : Bool
  pid : Nat
  parentPid : Int
  status : TaskStatus
  fdOwnerPid : Int
  fdTable : Fd → Option Gfd
  fdCloexec : Fd → Bool
  pml4 : Nat

structure Kernel where
  files : FileTable
  tasks : Tid → FdTask
  pidAlloc : Nat

/-- `(int32_t)t->pid`. -/
def FdTask.ipid (t : FdTask) : Int := toInt32 t.pid

/-- The task is not reaped and not `TASK_DIED`: the test of
`fd_owner_task`. -/
def FdTask.live (t : FdTask) : Bool := t.slotUsed && t.status != .died

/-- The task can make a call. -/
def FdTask.canRun (t : FdTask) : Bool := t.slotUsed && !t.status.deadMask

variable (s : Kernel)

def Kernel.setTask (i : Tid) (t : FdTask) : Kernel :=
  { s with tasks := fun j => if j = i then t else s.tasks j }

/-! ### The file table -/

def fileTableFreeSlot (files : FileTable) (g : Gfd) : FileTable :=
  update files g ⟨0, false⟩

/-- The lowest free slot, taken. -/
def fileTableAllocSlot (files : FileTable) : Option (Gfd × FileTable) :=
  ((List.finRange 256).find? fun g => !(files g).used).map fun g =>
    (g, update files g ⟨0, true⟩)

def fileTableRef (files : FileTable) (g : Gfd) : FileTable :=
  update files g { files g with refCnt := ((files g).refCnt + 1) % 4294967296 }

/-- A count of 0 stays 0. -/
def fileTableUnref (files : FileTable) (g : Gfd) : FileTable :=
  update files g { files g with refCnt := (files g).refCnt - 1 }

/-- A new file is opened with one reference. -/
def fileTableOpen (files : FileTable) (g : Gfd) : FileTable :=
  update files g { files g with refCnt := 1 }

/-! ### Descriptors -/

variable (c : Tid)

/-- The task whose table the current task `c` uses. -/
def fdOwnerTask : Tid :=
  if (s.tasks c).fdOwnerPid ≤ 0 ∨ (s.tasks c).fdOwnerPid = (s.tasks c).ipid then c
  else ((List.finRange 64).find? fun i =>
    (s.tasks i).live && decide ((s.tasks i).ipid = (s.tasks c).fdOwnerPid)).getD c

/-- Write an entry, and clear its bit of `fd_cloexec`. -/
def FdTask.putFd (t : FdTask) (d : Fd) (g : Option Gfd) : FdTask :=
  { t with
    fdTable := update t.fdTable d g
    fdCloexec := update t.fdCloexec d false }

/-- The lowest free descriptor from `minLocal` on, never below 3. -/
def freeFd (t : FdTask) (minLocal : Nat) : Option Fd :=
  (List.finRange 64).find? fun d => decide (max 3 minLocal ≤ d.val) && (t.fdTable d).isNone

def fdInstallFrom (g : Gfd) (minLocal : Nat) : Option (Fd × Kernel) :=
  let o := fdOwnerTask s c
  (freeFd (s.tasks o) minLocal).map fun d => (d, s.setTask o ((s.tasks o).putFd d (some g)))

def fdInstall (g : Gfd) : Option (Fd × Kernel) := fdInstallFrom s c g 3

def fdRelease (d : Fd) : Kernel :=
  let o := fdOwnerTask s c
  s.setTask o ((s.tasks o).putFd d none)

def fdLocal2global (d : Fd) : Option Gfd :=
  (s.tasks (fdOwnerTask s c)).fdTable d

/-- A descriptor that a call was given, if it is in range. -/
def fdOf (fd : Nat) : Option Fd := if h : fd < 64 then some ⟨fd, h⟩ else none

def fdLookup (fd : Nat) : Option Gfd :=
  (fdOf fd).bind (fdLocal2global s c)

/-- `close_file` of a descriptor in range. -/
def closeFd (d : Fd) : Kernel :=
  if d.val < 3 then s
  else
    match fdLocal2global s c d with
    | none => s
    | some g =>
      let s := fdRelease s c d
      if (s.files g).refCnt = 0 then s
      else
        let files := fileTableUnref s.files g
        if 0 < (files g).refCnt then { s with files }
        else { s with files := fileTableFreeSlot files g }

def closeFile (fd : Nat) : Kernel :=
  match fdOf fd with
  | none => s
  | some d => closeFd s c d

/-! ### Opening and duplicating -/

/-- What the path of an open leads to: an error before the slot is taken,
an error after it (the inode, the permissions, a pty), or a file. -/
inductive OpenResult where
  | notFound
  | refused
  | opened
  deriving DecidableEq

/-- `open_file_mode`; `proc_open` and `compat_dir_fd` take the same
steps. -/
def openFile (r : OpenResult) : Option Fd × Kernel :=
  match r with
  | .notFound => (none, s)
  | r =>
    match fileTableAllocSlot s.files with
    | none => (none, s)
    | some (g, files) =>
      if r = .refused then (none, { s with files := fileTableFreeSlot files g })
      else
        let s := { s with files := fileTableOpen files g }
        match fdInstall s c g with
        | none => (none, { s with files := fileTableFreeSlot s.files g })
        | some (d, s) => (some d, s)

def sysDupFrom (oldfd minLocal : Nat) : Option Fd × Kernel :=
  match fdLookup s c oldfd with
  | none => (none, s)
  | some g =>
    let s := { s with files := fileTableRef s.files g }
    match fdInstallFrom s c g minLocal with
    | none => (none, { s with files := fileTableUnref s.files g })
    | some (d, s) => (some d, s)

def sysDup (oldfd : Nat) : Option Fd × Kernel := sysDupFrom s c oldfd 3

def sysDup2 (oldfd newfd : Nat) : Option Fd × Kernel :=
  match fdOf newfd with
  | none => (none, s)
  | some d =>
    if oldfd = newfd then (some d, s)
    else
      match fdLookup s c oldfd with
      | none => (none, s)
      | some g =>
        let s := { s with files := fileTableRef s.files g }
        let o := fdOwnerTask s c
        let s := if (s.tasks o).fdTable d = none then s else closeFd s c d
        let t := s.tasks o
        (some d, s.setTask o { t with fdTable := update t.fdTable d (some g) })

/-- Set a bit of `fd_cloexec`. -/
def setCloexec (o : Tid) (d : Fd) (b : Bool) : Kernel :=
  s.setTask o { s.tasks o with fdCloexec := update (s.tasks o).fdCloexec d b }

/-- `lc_dup3` with valid flags. -/
def lcDup3 (oldfd newfd : Nat) (cloexec : Bool) : Kernel :=
  if oldfd = newfd then s
  else
    match sysDup2 s c oldfd newfd with
    | (none, s') => s'
    | (some d, s') => setCloexec s' (fdOwnerTask s c) d cloexec

/-- The commands of `sys_fcntl` that touch a descriptor. -/
inductive FcntlCmd where
  | dupFd
  | dupFdCloexec
  | setFd

def sysFcntl (fd : Nat) (cmd : FcntlCmd) (arg : Nat) : Kernel :=
  match fdOf fd with
  | none => s
  | some d =>
    if fdLocal2global s c d = none then s
    else
      match cmd with
      | .dupFd => (sysDupFrom s c fd arg).2
      | .dupFdCloexec =>
        match sysDupFrom s c fd arg with
        | (none, s') => s'
        | (some n, s') => setCloexec s' (fdOwnerTask s c) n true
      | .setFd => setCloexec s (fdOwnerTask s c) d (arg % 2 == 1)

/-- `sys_pipe`; `page` says whether there is a page for the buffer. -/
def sysPipe (page : Bool) : Option (Fd × Fd) × Kernel :=
  match fileTableAllocSlot s.files with
  | none => (none, s)
  | some (rd, files) =>
    match fileTableAllocSlot files with
    | none => (none, { s with files := fileTableFreeSlot files rd })
    | some (wr, files) =>
      if page then
        let s := { s with files := fileTableOpen (fileTableOpen files rd) wr }
        match fdInstall s c rd with
        | none =>
          (none, { s with files := fileTableFreeSlot (fileTableFreeSlot s.files rd) wr })
        | some (r, s) =>
          match fdInstall s c wr with
          | none =>
            let s := fdRelease s c r
            (none, { s with files := fileTableFreeSlot (fileTableFreeSlot s.files rd) wr })
          | some (w, s) => (some (r, w), s)
      else (none, { s with files := fileTableFreeSlot (fileTableFreeSlot files rd) wr })

/-- `lc_pipe2`: the bits are set in the current task. -/
def lcPipe2 (page cloexec : Bool) : Kernel :=
  match sysPipe s c page with
  | (none, s) => s
  | (some (r, w), s) =>
    if cloexec then setCloexec (setCloexec s c r true) c w true else s

/-- What `sys_fd_redirect` takes a descriptor for: below 3 it is a slot of
`file_table` itself. -/
def redirectTarget (t : FdTask) (new : Fd) : Option Gfd :=
  if new.val < 3 then some (Fin.castLE (by decide) new) else t.fdTable new

/-- `sys_fd_redirect`: the entry is copied, and no count changes. The code
does not test the range of its arguments. With one out of range it reads or
stores behind the table, and `wild` is whatever the state is then. -/
def sysFdRedirect (oldLocal newLocal : Nat) (wild : Kernel) : Kernel :=
  match fdOf oldLocal, fdOf newLocal with
  | some old, some new =>
    let t := s.tasks c
    s.setTask c { t with fdTable := update t.fdTable old (redirectTarget t new) }
  | _, _ => wild

/-! ### New tasks -/

/-- `init_fd_table`. -/
def initFdTable : Fd → Option Gfd :=
  fun d => if d.val < 3 then some (Fin.castLE (by decide) d) else none

/-- `thread_alloc_slot`; `stack` says whether there are pages for the
kernel stack. -/
def threadAllocSlot (stack : Bool) : Option (Tid × Kernel) :=
  match (List.finRange 64).find? fun i => !(s.tasks i).slotUsed with
  | none => none
  | some i =>
    if stack then
      some (i,
        { s with
          tasks := update s.tasks i
            { slotUsed := true
              pid := s.pidAlloc
              parentPid := -1
              status := .blocked
              fdOwnerPid := toInt32 s.pidAlloc
              fdTable := initFdTable
              fdCloexec := fun _ => false
              pml4 := 0 }
          pidAlloc := (s.pidAlloc + 1) % 4294967296 })
    else none

/-- The loop that counts the references of a copied table. -/
def refAll (files : FileTable) (t : Fd → Option Gfd) : FileTable :=
  (List.finRange 64).foldl (fun files d =>
    match t d with
    | none => files
    | some g => fileTableRef files g) files

/-- The loop of the failure exits of `fork` and `clone`. -/
def unrefAll (files : FileTable) (t : Fd → Option Gfd) : FileTable :=
  (List.finRange 64).foldl (fun files d =>
    match t d with
    | none => files
    | some g => if 0 < (files g).refCnt then fileTableUnref files g else files) files

/-- The allocations of a `fork` or `clone`. -/
structure SpawnEnv where
  /-- pages for the kernel stack -/
  stack : Bool
  /-- the new `pml4_phys`, 0 without one -/
  pml4 : Nat
  /-- `copy_user_space` succeeds -/
  copied : Bool
  /-- there is a page for the user stack -/
  userStack : Bool

def threadExit (i : Tid) : Kernel :=
  s.setTask i { s.tasks i with status := .died }

/-- The failure exit of `fork` and `clone`: the references of the child's
table are dropped, and the child ends. -/
def spawnFail (i : Tid) (child : FdTask) : Kernel :=
  threadExit
    { s.setTask i { child with pml4 := 0 } with files := unrefAll s.files child.fdTable } i

/-- `thread_ready` of the child. -/
def spawnReady (i : Tid) (child : FdTask) : Kernel :=
  s.setTask i { child with status := .ready }

/-- The new task `t` after its fields are copied. -/
def forkChild (parent t : FdTask) (e : SpawnEnv) : FdTask :=
  { t with parentPid := parent.ipid, fdTable := parent.fdTable, pml4 := e.pml4 }

def sysFork (e : SpawnEnv) : Kernel :=
  let parent := s.tasks c
  if parent.pml4 = 0 then s
  else
    match threadAllocSlot s e.stack with
    | none => s
    | some (i, s) =>
      let child := forkChild parent (s.tasks i) e
      let s := { s with files := refAll s.files parent.fdTable }
      if e.pml4 = 0 ∨ e.copied = false then spawnFail s i child else spawnReady s i child

structure CloneFlags where
  files : Bool
  vm : Bool
  thread : Bool

/-- `clone` goes to `clone_fail`. -/
def cloneFails (parent : FdTask) (flags : CloneFlags) (e : SpawnEnv) : Bool :=
  if flags.vm then decide (parent.pml4 = 0) || !e.userStack else decide (e.pml4 = 0) || !e.copied

/-- The new task `t` after its fields are copied. -/
def cloneChild (parent t : FdTask) (flags : CloneFlags) (e : SpawnEnv) : FdTask :=
  { t with
    parentPid := if flags.thread then -1 else parent.ipid
    fdOwnerPid := if flags.files then parent.fdOwnerPid else t.ipid
    fdTable := parent.fdTable
    fdCloexec := parent.fdCloexec
    pml4 := if flags.vm then parent.pml4 else e.pml4 }

def sysCloneEx (flags : CloneFlags) (e : SpawnEnv) : Kernel :=
  let parent := s.tasks c
  match threadAllocSlot s e.stack with
  | none => s
  | some (i, s) =>
    let child := cloneChild parent (s.tasks i) flags e
    let s := { s with files := if flags.files then s.files else refAll s.files parent.fdTable }
    -- the references are dropped even where none was taken
    if cloneFails parent flags e then spawnFail s i child else spawnReady s i child

/-! ### Ends of tasks -/

/-- The descriptors from 3 on. -/
def upperFds : List Fd := (List.finRange 64).filter fun d => decide (3 ≤ d.val)

/-- The body of the loop of `release_prog_resource`: `close_file` closes a
descriptor of the current task `c`, whoever `t` is. -/
def releaseFd (t : Tid) (s : Kernel) (d : Fd) : Kernel :=
  if (s.tasks t).fdOwnerPid = (s.tasks t).ipid ∧ (s.tasks t).fdTable d ≠ none then closeFd s c d
  else s

def releaseProgResource (t : Tid) : Kernel :=
  upperFds.foldl (releaseFd c t) (s.setTask t { s.tasks t with pml4 := 0 })

/-- The `victims` of `kill_orphan_children`. -/
def orphans (parentPid : Int) : List Tid :=
  (List.finRange 64).filter fun t => (s.tasks t).live && decide ((s.tasks t).parentPid = parentPid)

def killOrphan (s : Kernel) (t : Tid) : Kernel :=
  threadExit (if (s.tasks t).status.deadMask then s else releaseProgResource s c t) t

def killOrphanChildren (parentPid : Int) : Kernel :=
  (orphans s parentPid).foldl (killOrphan c) s

def procExit : Kernel :=
  let s := releaseProgResource (killOrphanChildren s c (s.tasks c).ipid) c c
  if (s.tasks c).parentPid < 0 then threadExit s c
  else s.setTask c { s.tasks c with status := .hanging }

/-- `thread_kill_pid`; `c` is the current task. -/
def threadKillPid (pid : Nat) : Kernel :=
  match (List.finRange 64).find? fun i => (s.tasks i).slotUsed && (s.tasks i).pid == pid with
  | none => s
  | some t =>
    if (s.tasks t).status.deadMask ∨ (s.tasks t).pml4 = 0 then s
    else
      killOrphanChildren (s.setTask t { s.tasks t with status := .hanging }) c (s.tasks t).ipid

/-- `sys_wait` and `sys_waitid` take a zombie. -/
def reapChild (t : Tid) : Kernel :=
  if (s.tasks t).slotUsed ∧ (s.tasks t).status = .hanging ∧
      (s.tasks t).parentPid = (s.tasks c).ipid then threadExit s t
  else s

/-- `reap_died_threads` frees the slot. -/
def reapDied (t : Tid) : Kernel :=
  if (s.tasks t).status = .died then s.setTask t { s.tasks t with slotUsed := false, pml4 := 0 }
  else s

/-! ### `execve` -/

/-- The body of the inner loop of `space_detach_others`. A count that
becomes 0 does not free the slot. -/
def detachFd (t : Tid) (s : Kernel) (d : Fd) : Kernel :=
  let k := s.tasks t
  let files :=
    match k.fdTable d with
    | none => s.files
    | some g =>
      if k.fdOwnerPid = k.ipid ∧ 0 < (s.files g).refCnt then fileTableUnref s.files g else s.files
  { s.setTask t { k with fdTable := update k.fdTable d none } with files }

def detachTask (t : Tid) : Kernel :=
  threadExit (upperFds.foldl (detachFd t) (s.setTask t { s.tasks t with pml4 := 0 })) t

/-- The other tasks of the address space. -/
def sharers : List Tid :=
  (List.finRange 64).filter fun t =>
    decide (t ≠ c) && (s.tasks t).live && (s.tasks t).pml4 == (s.tasks c).pml4

def spaceDetachOthers : Kernel :=
  if (s.tasks c).pml4 = 0 then s else (sharers s c).foldl detachTask s

/-- The body of the loop over the close-on-exec descriptors. -/
def closeOnExecFd (s : Kernel) (d : Fd) : Kernel :=
  if (s.tasks c).fdTable d ≠ none ∧ (s.tasks c).fdCloexec d = true then
    closeFd (setCloexec s c d false) c d
  else s

def closeOnExec : Kernel := upperFds.foldl (closeOnExecFd c) s

/-- What `execve` meets: the results of opening the image and, where it has
one, the interpreter, and whether it succeeds. -/
structure ExecEnv where
  image : OpenResult
  interp : Option OpenResult
  ok : Bool

/-- The descriptor of the interpreter, while that of the image is open. -/
def withInterp : Option OpenResult → Bool × Kernel
  | none => (true, s)
  | some r =>
    match openFile s c r with
    | (none, s) => (false, s)
    | (some d, s) => (true, closeFd s c d)

def sysExecve (e : ExecEnv) : Kernel :=
  match openFile (spaceDetachOthers s c) c e.image with
  | (none, s) => s
  | (some d, s) =>
    let r := withInterp s c e.interp
    let s := closeFd r.2 c d
    if r.1 && e.ok then closeOnExec s c else s

/-! ### Events -/

inductive Event where
  | openFile (c : Tid) (r : OpenResult)
  | closeFile (c : Tid) (fd : Nat)
  | dup (c : Tid) (oldfd : Nat)
  | dup2 (c : Tid) (oldfd newfd : Nat)
  | dup3 (c : Tid) (oldfd newfd : Nat) (cloexec : Bool)
  | fcntl (c : Tid) (fd : Nat) (cmd : FcntlCmd) (arg : Nat)
  | pipe2 (c : Tid) (page cloexec : Bool)
  | fdRedirect (c : Tid) (oldLocal newLocal : Nat) (wild : Kernel)
  | fork (c : Tid) (e : SpawnEnv)
  | clone (c : Tid) (flags : CloneFlags) (e : SpawnEnv)
  | execve (c : Tid) (e : ExecEnv)
  | exit (c : Tid)
  | kill (c : Tid) (pid : Nat)
  | wait (c t : Tid)
  | reap (c t : Tid)

/-- The current task of an event. -/
def Event.task : Event → Tid
  | .openFile c _ | .closeFile c _ | .dup c _ | .dup2 c _ _ | .dup3 c _ _ _ | .fcntl c _ _ _
  | .pipe2 c _ _ | .fdRedirect c _ _ _ | .fork c _ | .clone c _ _ | .execve c _ | .exit c
  | .kill c _ | .wait c _ | .reap c _ => c

def Event.apply : Event → Kernel
  | .openFile c r => (Fs.openFile s c r).2
  | .closeFile c fd => Fs.closeFile s c fd
  | .dup c oldfd => (sysDup s c oldfd).2
  | .dup2 c oldfd newfd => (sysDup2 s c oldfd newfd).2
  | .dup3 c oldfd newfd cloexec => lcDup3 s c oldfd newfd cloexec
  | .fcntl c fd cmd arg => sysFcntl s c fd cmd arg
  | .pipe2 c page cloexec => lcPipe2 s c page cloexec
  | .fdRedirect c oldLocal newLocal wild => sysFdRedirect s c oldLocal newLocal wild
  | .fork c e => sysFork s c e
  | .clone c flags e => sysCloneEx s c flags e
  | .execve c e => sysExecve s c e
  | .exit c => procExit s c
  | .kill c pid => threadKillPid s c pid
  | .wait c t => reapChild s c t
  | .reap _ t => reapDied s t

/-- A task that runs makes a call. -/
def step (e : Event) : Option Kernel :=
  if (s.tasks e.task).canRun then some (e.apply s) else none

/-- The state after `thread_init` and `file_table_init`: the main task and
the idle tasks of four processors. The main task's `fd_owner_pid` is 0. -/
def boot : Kernel where
  files := fun g => if g.val < 3 then ⟨1, true⟩ else ⟨0, false⟩
  tasks := fun i =>
    { slotUsed := decide (i.val < 5)
      pid := i.val
      parentPid := -1
      status := if i.val = 0 then .running else .blocked
      fdOwnerPid := i.val
      fdTable := initFdTable
      fdCloexec := fun _ => false
      pml4 := 0 }
  pidAlloc := 5

end CoreZ.Fs
