import CoreZ.Lib.Run

/-!
# `CoreZ.Fs.Access`: the mode, owner and group of an inode

The calls of one process that change the mode, the owner and the group of
an inode (`file_syscall.c`, `fs.c`, `linux_compat_fs.c`). An inode is known
by its number. `node` is the inode table of the disk, and `files` are the
descriptors of the process. Directories are left out: a path is what
`fs_lookup` makes of it.

`InodeIo` is what the environment decides in one call: whether the inode
can be read from the disk and whether it can be stored.

The descriptors are those of regular files, character devices,
directories and pipes. Sockets, event, timer and epoll descriptors have
their own tables and reach no inode.
-/

set_option autoImplicit false

namespace CoreZ.Fs.Access

/-- The credentials of the task that the calls ask for. -/
structure Cred where
  euid : Nat

/-- The fields of `struct FS_INODE` that the calls use. -/
structure Inode where
  iMode : Nat
  iUid : Nat
  iGid : Nat
  iSize : Nat
  deriving DecidableEq, Repr

/-- The same fields in the inode table of the disk. -/
structure DiskInode where
  iMode : UInt16
  iUid : UInt16
  iGid : UInt16
  iSize : UInt32
  deriving DecidableEq, Repr

/-- The loads of `ext4_read_inode`. -/
def DiskInode.load (d : DiskInode) : Inode where
  iMode := d.iMode.toNat
  iUid := d.iUid.toNat
  iGid := d.iGid.toNat
  iSize := d.iSize.toNat

/-- The stores of `ext4_write_inode`. -/
def Inode.store (i : Inode) : DiskInode where
  iMode := UInt16.ofNat i.iMode
  iUid := UInt16.ofNat i.iUid
  iGid := UInt16.ofNat i.iGid
  iSize := UInt32.ofNat i.iSize

/-- `struct FILE`, as far as the calls read it. -/
structure File where
  /-- `fd_inode->i_no`, and `none` when `fd_inode` is `NULL`. The `fd_inode`
  of a pipe is its queue, and this is the first word of it. -/
  iNo : Option Nat
  deriving DecidableEq, Repr

structure Vfs where
  /-- the inode table of the disk -/
  node : Nat → DiskInode
  /-- the open files of the process, by descriptor -/
  files : Nat → Option File
  errno : Nat

def maxFilesOpenPerProc : Nat := 64

variable (s : Vfs) (n : Nat) (i : Inode)

namespace Vfs

def setNode (i : DiskInode) : Vfs :=
  { s with node := fun m => if m = n then i else s.node m }

def setErrno (e : Nat) : Vfs := { s with errno := e }

end Vfs

/-! ### Inodes -/

variable (p : Cred)

/-- `fs_read_inode`; `ok` says whether the block can be read. -/
def fsReadInode (ok : Bool) : Option Inode :=
  if n = 0 ∨ ok = false then none else some (s.node n).load

theorem load_of_fsReadInode {s : Vfs} {n : Nat} {ok : Bool} {i : Inode}
    (h : fsReadInode s n ok = some i) : (s.node n).load = i :=
  (Option.ite_none_left_eq_some.mp h).2 |> Option.some.inj

/-- `fs_write_inode`, and whether it returns 0. -/
def fsWriteInode (ok : Bool) : Vfs × Bool :=
  if n = 0 ∨ ok = false then (s, false) else (s.setNode n i.store, true)

/-! ### Paths -/

/-- What becomes of a path: it cannot be read from the user or is empty, or
it ends in a slash, or it is one of `/proc`, or it is what the lookup
finds. -/
inductive Path where
  | invalid
  | slash
  | proc
  | lookup (found : Option Nat)
  deriving DecidableEq, Repr

variable (path : Path)

/-! ### Mode, owner and group -/

/-- `0xFFFFFFFF`, the `uint32_t` that leaves an owner or group as it is. -/
def keep32 : Nat := 4294967295

/-- `(uint64_t)-1`. -/
def keep64 : Nat := 18446744073709551615

/-- What decides a call that reads an inode and writes it back. -/
structure InodeIo where
  read : Bool
  stored : Bool
  deriving DecidableEq, Repr

def sysChmod (mode : Nat) (io : InodeIo) : Vfs × Int :=
  match path with
  | .invalid => (s, -1)
  | .proc => (s, 0)
  | .lookup (some n) =>
    match fsReadInode s n io.read with
    | none => (s, -1)
    | some i =>
      if p.euid ≠ 0 ∧ p.euid ≠ i.iUid then (s.setErrno 1, -1)
      else
        let mode := (i.iMode &&& 0xF000) ||| (mode &&& 0x0FFF)
        let (s, done) := fsWriteInode s n { i with iMode := mode } io.stored
        (s, if done then 0 else -1)
  | _ => (s.setErrno 2, -1)

/-- The owner and the group that a call sets; `keep` stands for no change. -/
def chownTo (keep uid gid : Nat) : Inode :=
  { i with
    iUid := if uid ≠ keep then uid % 65536 else i.iUid
    iGid := if gid ≠ keep then gid % 65536 else i.iGid }

def sysChown (uid gid : Nat) (io : InodeIo) : Vfs × Int :=
  match path with
  | .lookup (some n) =>
    match fsReadInode s n io.read with
    | none => (s, -1)
    | some i =>
      if p.euid ≠ 0 then (s.setErrno 1, -1)
      else
        let (s, done) := fsWriteInode s n (chownTo i keep32 uid gid) io.stored
        (s, if done then 0 else -1)
  | _ => (s, -1)

/-- `lc_fchmod` and `lc_fchown`: the inode of a descriptor is read, changed
and written back. Nobody asks who the caller is. -/
def changeByFd (fd : Nat) (change : Inode → Inode) (io : InodeIo) : Vfs × Int :=
  if fd < 3 ∨ maxFilesOpenPerProc ≤ fd then (s, -9)
  else
    match (s.files fd).bind File.iNo with
    | none => (s, -9)
    | some n =>
      match fsReadInode s n io.read with
      | none => (s, -5)
      | some i =>
        let (s, done) := fsWriteInode s n (change i) io.stored
        (s, if done then 0 else -5)

def lcFchmod (fd mode : Nat) (io : InodeIo) : Vfs × Int :=
  changeByFd s fd (fun i => { i with
    iMode := (i.iMode &&& 0xF000) ||| (mode % 4294967296 &&& 0x0FFF) }) io

def lcFchown (fd uid gid : Nat) (io : InodeIo) : Vfs × Int :=
  changeByFd s fd (fun i => chownTo i keep64 uid gid) io

/-- A path that cannot be read from the user is answered with `-EFAULT`. -/
def lcPath (call : Vfs × Int) : Vfs × Int :=
  if path = .invalid then (s, -14) else call

def lcChmod (mode : Nat) (io : InodeIo) : Vfs × Int :=
  lcPath s path (sysChmod s p path (mode % 4294967296) io)

def lcFchmodat (mode : Nat) (io : InodeIo) : Vfs × Int :=
  lcPath s path (sysChmod s p path (mode % 4294967296) io)

def lcChown (uid gid : Nat) (io : InodeIo) : Vfs × Int :=
  lcPath s path (sysChown s p path (uid % 4294967296) (gid % 4294967296) io)

def lcLchown (uid gid : Nat) (io : InodeIo) : Vfs × Int :=
  lcChown s p path uid gid io

def lcFchownat (uid gid : Nat) (io : InodeIo) : Vfs × Int :=
  lcPath s path (sysChown s p path (uid % 4294967296) (gid % 4294967296) io)

end CoreZ.Fs.Access
