import CoreZ.Syscall.UserAccess

/-!
# `CoreZ.Syscall.Native`: native system calls that take user addresses

The handlers of `kernel/syscall/syscall.c` for files, directories, pipes and
`stat`, and the four that hand raw registers on: `nsys_recvfrom`,
`nsys_nanosleep`, `nsys_futex` and `nsys_clone`. Each is a program that logs
which user addresses it checks and which it touches. A register has 64 bits:
`ok_read` and `ok_write` take a `uint32_t`, while the functions below them get
the whole register as a pointer.

What the rest of the kernel answers is in `Kernel`. The calls that take no
address are left out (`close`, `lseek`, `dup`, `dup2`, `fcntl`, `fd_redirect`),
and so is what a call does to the kernel's own state. A directory handle is
compared with the table of open directories and never followed as a user
address, so `closedir` and `rewinddir` are left out too.
-/

set_option autoImplicit false

namespace CoreZ.Syscall

open CoreZ.Lib (Dir Call)

/-- What a call meets: the user space, and the answers of the layers below. -/
structure Kernel extends UserSpace where
  /-- The descriptor, the path or the directory handle leads to an object. -/
  found : Bool
  /-- What the file system returns for the path or the paths. -/
  answer : Int
  /-- The bytes that the pipe, the file or the terminal can move. -/
  moved : Nat
  /-- The path of the working directory, empty for the root. Each segment
  (`/name`) comes with the length of the string that stands in the user's
  buffer before it is appended, since other threads can store there. -/
  cwd : Option (List (Nat × Nat))
  /-- The first byte of that buffer is 0 in the end. -/
  emptied : Bool
  /-- The entries of the directory, by the lengths of their names. A name
  that starts with a 0 byte has length 0. -/
  names : List (Fin 256)
  /-- The length of the target of the symbolic link. -/
  target : Option Nat
  /-- The length of the datagram that the socket delivers. -/
  dgram : Option Nat
  /-- The sleep ends with a signal. -/
  interrupted : Bool
  /-- What `futex_do_wait` and `futex_do_wake` return. -/
  futexResult : Int
  /-- The identifier of the new task, if there is a slot for it. -/
  child : Option Nat
  /-- `current->clear_child_tid`. -/
  clearChildTid : BitVec 32

def maxPathLen : Nat := 512

def maxFilesOpenPerProc : Int := 64

def netFdBase : Int := 64

/-- `NET_FD_BASE + MAX_SOCKET`. -/
def netFdLimit : Int := 128

/-- `sizeof(struct FS_STAT)`. -/
def fsStatSize : Nat := 12

/-- `sizeof(struct FS_DIRENT)`. -/
def fsDirentSize : Nat := 264

/-- `sizeof(struct SYS_TIMESPEC)`. -/
def sysTimespecSize : Nat := 8

/-- `sizeof(struct LINUX_TIMESPEC)`. -/
def linuxTimespecSize : Nat := 16

def einval : Int := -22

def enosys : Int := -38

def eintr : Int := -4

/-- The call was made by the kernel itself. -/
def kernCall (r : ArchRegs) : Bool := r.cs.toNat % 4 == 0

variable (k : Kernel) (r : ArchRegs)

/-- The check of `ok_read` and `ok_write`. The pointer is cut to 32 bits. -/
def okAccess (d : Dir) (r : ArchRegs) (p : BitVec 64) (n : Nat) : Call Bool :=
  if kernCall r then return true else accessOk k.toUserSpace d p n

def okRead (p : BitVec 64) (n : Nat) : Call Bool :=
  okAccess k .read r p n

def okWrite (p : BitVec 64) (n : Nat) : Call Bool :=
  okAccess k .write r p n

/-- `path_arg_reg`, and whether it gives a path. The kernel's own paths are
not copied. -/
def pathArgReg (reg : BitVec 64) : Call Bool :=
  if kernCall r then return true
  else copyStrFromUser k.toUserSpace (BitVec.ofNat 64 (lo reg)) maxPathLen

/-- `path_arg`. -/
def pathArg : Call Bool := pathArgReg k r r.rbx

/-- A descriptor that can be in the table of a task. -/
def isLocalFd (fd : Int) : Bool := decide (0 ≤ fd ∧ fd < maxFilesOpenPerProc)

/-! ### The functions below the handlers -/

/-- `sys_write`: the pipe, the file or the terminal reads from the buffer. -/
def sysWrite (fd : Int) (str : BitVec 64) (count : Nat) : Call Int :=
  if isLocalFd fd = false then throw (-1)
  else do
    Call.touch ⟨str.toNat, min k.moved count, .read⟩
    return (min k.moved count : Nat)

/-- `sys_read`. -/
def sysRead (fd : Int) (buf : BitVec 64) (count : Nat) : Call Int :=
  if fd = 1 ∨ fd = 2 then throw (-1)
  else if isLocalFd fd = false then throw (-1)
  else do
    Call.touch ⟨buf.toNat, min k.moved count, .write⟩
    return (min k.moved count : Nat)

/-- The loop of `fs_inode_abs_path` that appends the segments. `len` is what
`strlen` finds in the buffer; the sum is one of `uint32_t`. -/
def appendSegments (buf size : Nat) : (segs : List (Nat × Nat)) → Call Int
  | [] => do
      Call.touch ⟨buf, 1, .read⟩
      if k.emptied then do
        Call.touch ⟨buf, 2, .write⟩
        return 0
      else return 0
  | (len, seg) :: segs => do
      Call.touch ⟨buf, len + 1, .read⟩
      if size < (len + seg + 1) % 4294967296 then throw (-1)
      else do
        Call.touch ⟨buf + len, seg + 1, .write⟩
        appendSegments buf size segs

/-- `sys_getcwd`. -/
def sysGetcwd (buf : BitVec 64) (size : Nat) : Call Int :=
  if size < 2 then throw 0
  else
    match k.cwd with
    | none => throw 0
    | some [] => do
        Call.touch ⟨buf.toNat, 2, .write⟩
        return lo buf
    | some segs => do
        Call.touch ⟨buf.toNat, 1, .write⟩
        let _ ← appendSegments k buf.toNat size segs
        return lo buf

/-- `sys_stat`. -/
def sysStat (buf : BitVec 64) : Call Int :=
  if k.found then do
    Call.touch ⟨buf.toNat, fsStatSize, .write⟩
    return 0
  else throw (-1)

/-- `sys_fstat`. -/
def sysFstat (fd : Int) (buf : BitVec 64) : Call Int :=
  if isLocalFd fd = false then throw (-1) else sysStat k buf

/-- `sys_pipe`: the two descriptors are stored and looked at. -/
def sysPipe (pipefd : BitVec 64) : Call Int :=
  if k.found then do
    Call.touch ⟨pipefd.toNat, 8, .write⟩
    Call.touch ⟨pipefd.toNat, 8, .read⟩
    return 0
  else throw (-1)

/-- The loop of `sys_getdents`: a record has 10 bytes before the name and a
byte after it. -/
def direntLoop (dirp count : Nat) : (names : List (Fin 256)) → (written : Nat) → Call Int
  | [], written => return written
  | name :: names, written =>
    let reclen := 11 + name.val
    if count < written + reclen then return written
    else do
      Call.touch ⟨dirp + written, reclen, .write⟩
      direntLoop dirp count names (written + reclen)

/-- `sys_getdents`. -/
def sysGetdents (fd : Int) (dirp : BitVec 64) (count : Nat) : Call Int :=
  if isLocalFd fd = false then throw (-1)
  else if k.found = false then throw (-1)
  else direntLoop dirp.toNat count k.names 0

/-- `sys_readlink`. -/
def sysReadlink (buf : BitVec 64) (bufsiz : Nat) : Call Int :=
  if buf = 0 ∨ bufsiz = 0 then throw (-1)
  else
    match k.target with
    | none => throw (-1)
    | some len => do
        Call.touch ⟨buf.toNat, min len bufsiz, .write⟩
        return (min len bufsiz : Nat)

/-- A store through a pointer that may be null. -/
def storeAt (p : BitVec 64) (width : Nat) : Call Unit :=
  if p = 0 then return () else Call.touch ⟨p.toNat, width, .write⟩

/-- `udp_recv`. -/
def udpRecv (dlen : Nat) (buf : BitVec 64) (len : Nat) (saddr sport : BitVec 64) : Call Int := do
  Call.touch ⟨buf.toNat, min dlen len, .write⟩
  storeAt saddr 4
  storeAt sport 2
  return (min dlen len : Nat)

/-- `net_recvfrom`. -/
def netRecvfrom (fd : Int) (buf : BitVec 64) (len : Nat) (saddr sport : BitVec 64) : Call Int :=
  if fd < netFdBase ∨ netFdLimit ≤ fd then throw (-1)
  else
    match k.dgram with
    | none => throw (-1)
    | some dlen => udpRecv dlen buf len saddr sport

/-- `sys_nanosleep`. The two fields of the request are read for the test and
once more for the time. -/
def sysNanosleep (req rem : BitVec 64) : Call Int := do
  let sec ← readLe k.toUserSpace 4 req.toNat
  if 2147483648 ≤ sec then throw (-1)
  else do
    let nsec ← readLe k.toUserSpace 4 (req.toNat + 4)
    if 2147483648 ≤ nsec then throw (-1)
    else do
      Call.touch ⟨req.toNat, sysTimespecSize, .read⟩
      if k.interrupted then do
        storeAt rem sysTimespecSize
        throw eintr
      else do
        storeAt rem sysTimespecSize
        return 0

/-- The test of `futex_parse_timeout`: the seconds and the nanoseconds are
`int64_t`. -/
def timeoutValid (sec nsec : Nat) : Bool :=
  decide (sec < 9223372036854775808 ∧ nsec < 1000000000)

/-- The timeout is copied and parsed, and whether it is valid. -/
def readTimeout (timeout : Nat) : Call Bool := do
  let acts ← get
  Call.touch ⟨timeout, linuxTimespecSize, .read⟩
  let ts := k.mem acts.length
  return timeoutValid (CoreZ.Lib.leNat ts 8 timeout) (CoreZ.Lib.leNat ts 8 (timeout + 8))

/-- `futex_do_wait`, as far as it touches user memory. -/
def futexDoWait (uaddr : Nat) : Call Int := do
  Call.touch ⟨uaddr, 4, .read⟩
  return k.futexResult

/-- `sys_futex`. -/
def sysFutex (uaddr op timeout val3 : Nat) : Call Int :=
  let cmd := op % 128
  if uaddr = 0 then return einval
  else if cmd = 1 then return k.futexResult
  else if cmd = 10 then if val3 = 0 then return einval else return k.futexResult
  else if cmd = 0 ∨ cmd = 9 then
    -- FUTEX_WAIT waits for any bit, FUTEX_WAIT_BITSET for those of val3
    if cmd = 9 ∧ val3 = 0 then return einval
    else if timeout = 0 then futexDoWait k uaddr
    else do
      let valid ← readTimeout k timeout
      if valid then futexDoWait k uaddr else return einval
  else return enosys

/-- `flags & CLONE_CHILD_CLEARTID`. -/
def cloneClearTid (flags : BitVec 64) : Bool := flags.getLsbD 21

/-- `flags & CLONE_CHILD_SETTID`. -/
def cloneSetTid (flags : BitVec 64) : Bool := flags.getLsbD 24

/-- The store of `sys_clone_ex` through the address of the child's
identifier. -/
def storeChildTid (flags ctid : BitVec 64) : Call Unit :=
  if cloneClearTid flags && cloneSetTid flags then storeAt ctid 4 else return ()

/-- `sys_clone_ex`, as far as it touches user memory. -/
def sysCloneEx (flags ctid : BitVec 64) : Call Int :=
  match k.child with
  | none => throw (-1)
  | some pid => do
      storeChildTid flags ctid
      return pid

/-- `release_prog_resource`, as far as it touches user memory: the address
was given to `clone`. -/
def releaseProgResource : Call Unit :=
  if k.clearChildTid = 0 then return ()
  else do
    let ok ← accessOk k.toUserSpace .write (k.clearChildTid.setWidth 64) 4
    if ok then Call.touch ⟨k.clearChildTid.toNat, 4, .write⟩ else return ()

/-! ### The handlers -/

def nsysWrite : Call Int := do
  let ok ← okRead k r r.rcx (lo r.rdx)
  if ok then sysWrite k (sint r.rbx) r.rcx (lo r.rdx) else throw (-1)

def nsysRead : Call Int := do
  let ok ← okWrite k r r.rcx (lo r.rdx)
  if ok then sysRead k (sint r.rbx) r.rcx (lo r.rdx) else throw (-1)

def nsysGetcwd : Call Int := do
  let ok ← okWrite k r r.rbx (lo r.rcx)
  if ok then sysGetcwd k r.rbx (lo r.rcx) else throw (-1)

/-- The handlers that only take a path. -/
def nsysPath : Call Int := do
  let p ← pathArg k r
  if p then return k.answer else throw (-1)

def nsysChdir : Kernel → ArchRegs → Call Int := nsysPath

def nsysMkdir : Kernel → ArchRegs → Call Int := nsysPath

def nsysRmdir : Kernel → ArchRegs → Call Int := nsysPath

def nsysOpen : Kernel → ArchRegs → Call Int := nsysPath

def nsysUnlink : Kernel → ArchRegs → Call Int := nsysPath

def nsysOpendir : Kernel → ArchRegs → Call Int := nsysPath

def nsysAccess : Kernel → ArchRegs → Call Int := nsysPath

def nsysTruncate : Kernel → ArchRegs → Call Int := nsysPath

def nsysChmod : Kernel → ArchRegs → Call Int := nsysPath

def nsysMknod : Kernel → ArchRegs → Call Int := nsysPath

/-- The handlers that take two paths. Both are copied before either is
tested. -/
def nsysTwoPaths : Call Int := do
  let p ← pathArg k r
  let q ← pathArgReg k r r.rcx
  if p && q then return k.answer else throw (-1)

def nsysRename : Kernel → ArchRegs → Call Int := nsysTwoPaths

def nsysSymlink : Kernel → ArchRegs → Call Int := nsysTwoPaths

def nsysReaddir : Call Int :=
  if k.found = false then throw 0
  else do
    let ok ← okWrite k r r.rcx fsDirentSize
    if ok then do
      let copied ← copyToUser k.toUserSpace r.rcx fsDirentSize
      if copied then return r.rcx.toNat else throw 0
    else throw 0

def nsysStat : Call Int := do
  let p ← pathArg k r
  if p then do
    let ok ← okWrite k r r.rcx fsStatSize
    if ok then sysStat k r.rcx else throw (-1)
  else throw (-1)

def nsysPipe : Call Int := do
  let ok ← okWrite k r r.rbx 8
  if ok then sysPipe k r.rbx else throw (-1)

def nsysFstat : Call Int := do
  let ok ← okWrite k r r.rcx fsStatSize
  if ok then sysFstat k (sint r.rbx) r.rcx else throw (-1)

def nsysGetdents : Call Int := do
  let ok ← okWrite k r r.rcx (lo r.rdx)
  if ok then sysGetdents k (sint r.rbx) r.rcx (lo r.rdx) else throw (-1)

def nsysReadlink : Call Int := do
  let p ← pathArg k r
  if p then do
    let ok ← okWrite k r r.rcx (lo r.rdx)
    if ok then sysReadlink k r.rcx (lo r.rdx) else throw (-1)
  else throw (-1)

def nsysRecvfrom : Call Int := do
  let ok ← okWrite k r r.rcx (lo r.rdx)
  -- the two addresses of the sender go down as they are
  if ok then netRecvfrom k (sint r.rbx) r.rcx (lo r.rdx) r.rsi r.rdi else throw (-1)

def nsysNanosleep : Call Int := do
  let ok ← okRead k r r.rbx sysTimespecSize
  if ok then sysNanosleep k r.rbx r.rcx else throw (-1)

def nsysFutex : Call Int := do
  let ok ← okRead k r r.rbx 4
  if ok then do
    let rc ← sysFutex k (lo r.rbx) (lo r.rcx) (lo r.rsi) 0
    if rc = einval ∨ rc = enosys then throw (-1) else return rc
  else throw (-1)

def nsysClone : Call Int := sysCloneEx k r.rbx r.r10

/-- `nsys_exit`: the resources of the task are released. -/
def nsysExit (_ : ArchRegs) : Call Int := do
  releaseProgResource k
  return 0

/-- The native calls that take an address. -/
inductive NativeCall
  | write | read | getcwd | chdir | mkdir | rmdir | openPath | unlink | opendir | readdir | stat
  | pipe | fstat | getdents | readlink | access | rename | truncate | chmod | symlink | mknod
  | recvfrom | nanosleep | futex | clone | exit
deriving DecidableEq, Repr

/-- The entry of `nsys_table`. -/
def NativeCall.handler : NativeCall → Kernel → ArchRegs → Call Int
  | .write => nsysWrite
  | .read => nsysRead
  | .getcwd => nsysGetcwd
  | .chdir => nsysChdir
  | .mkdir => nsysMkdir
  | .rmdir => nsysRmdir
  | .openPath => nsysOpen
  | .unlink => nsysUnlink
  | .opendir => nsysOpendir
  | .readdir => nsysReaddir
  | .stat => nsysStat
  | .pipe => nsysPipe
  | .fstat => nsysFstat
  | .getdents => nsysGetdents
  | .readlink => nsysReadlink
  | .access => nsysAccess
  | .rename => nsysRename
  | .truncate => nsysTruncate
  | .chmod => nsysChmod
  | .symlink => nsysSymlink
  | .mknod => nsysMknod
  | .recvfrom => nsysRecvfrom
  | .nanosleep => nsysNanosleep
  | .futex => nsysFutex
  | .clone => nsysClone
  | .exit => nsysExit

end CoreZ.Syscall
