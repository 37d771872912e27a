import CoreZ.Fs.File

/-!
# `CoreZ.Syscall.Flock`: file locks

The model of `lc_flock` in `kernel/syscall/linux_compat_fs.c`, and of the end
of `close_file`, which drops locks. A task reads the inode number and the pid
once; it then works on the table with interrupts off, and yields between two
attempts. Other tasks run before each of these sections. The event `other` is
whatever other calls do to tasks and open files.
-/

set_option autoImplicit false

namespace CoreZ.Syscall.Flock

open CoreZ.Fs (Gfd Tid closeFile fdLookup)

/-- An entry of `flock_tab`: mode 0 is free, 1 shared and 2 exclusive. -/
structure Lock where
  ino : Nat
  mode : Nat
  pid : Int

abbrev FlockTab := Fin 16 → Lock

/-- The entry is a lock on the inode. -/
def Lock.on (l : Lock) (ino : Nat) : Bool := l.mode != 0 && l.ino == ino

variable (tab : FlockTab)

def flockConflict (ino want : Nat) (pid : Int) : Bool :=
  (List.finRange 16).any fun i =>
    (tab i).on ino && (tab i).pid != pid && ((tab i).mode == 2 || want == 2)

/-- Free the entries for an inode that `drop` picks by their pid. -/
def unlock (ino : Nat) (drop : Int → Bool) : FlockTab := fun i =>
  if (tab i).on ino && drop (tab i).pid then { tab i with mode := 0 } else tab i

def flockReleaseIno (ino : Nat) : FlockTab := unlock tab ino fun _ => true

/-- The entry of the process for the inode, or else the first free one, gets
the mode; a full table is `ENOLCK`. -/
def take (ino op : Nat) (pid : Int) : FlockTab :=
  match ((List.finRange 16).find? fun i => (tab i).on ino && (tab i).pid == pid).or
      ((List.finRange 16).find? fun i => (tab i).mode == 0) with
  | some i => Function.update tab i ⟨ino, op, pid⟩
  | none => tab

/-- What a task is about to do to the table, with what it has read. -/
inductive Pc where
  | idle
  | flock (ino b : Nat) (pid : Int)
  | release (ino : Nat) (pid : Int)
  deriving DecidableEq

/-- One section of `lc_flock`. -/
def lcFlock (ino b : Nat) (pid : Int) : FlockTab × Pc :=
  if b % 16 = 8 then (unlock tab ino (· == pid), .idle)
  else if b % 16 ≠ 1 ∧ b % 16 ≠ 2 then (tab, .idle)
  else if flockConflict tab ino (b % 16) pid then
    (tab, if b / 4 % 2 = 1 then .idle else .flock ino b pid)
  else (take tab ino (b % 16) pid, .idle)

/-- The next section of a task. -/
def advance : Pc → FlockTab × Pc
  | .idle => (tab, .idle)
  | .flock ino b pid => lcFlock tab ino b pid
  | .release ino _ => (flockReleaseIno tab ino, .idle)

/-- `inode` is the number behind `fd_inode`, which of a pipe is no inode. -/
structure State where
  kernel : Fs.Kernel
  inode : Gfd → Option Nat
  pipe : Gfd → Bool
  tab : FlockTab
  pc : Tid → Pc

/-- No lock, and no task in a call. -/
def start (kernel : Fs.Kernel) (inode : Gfd → Option Nat) (pipe : Gfd → Bool) : State :=
  ⟨kernel, inode, pipe, fun _ => ⟨0, 0, 0⟩, fun _ => .idle⟩

/-- What is left of `close_file` after `file_table_unref`: the last reference
to an open file drops the locks on its inode. -/
def afterUnref (s : State) (c : Tid) (fd : Nat) : Pc :=
  match (fdLookup s.kernel c fd).bind fun g =>
      if (s.kernel.files g).refCnt = 1 ∧ s.pipe g = false then s.inode g else none with
  | some ino => if fd < 3 then .idle else .release ino (s.kernel.tasks c).fdOwnerPid
  | none => .idle

inductive Event where
  | flock (c : Tid) (fd b : Nat)
  | close (c : Tid) (fd : Nat)
  | go (c : Tid)
  | other (kernel : Fs.Kernel) (inode : Gfd → Option Nat) (pipe : Gfd → Bool)

def step (s : State) : Event → Option State
  | .flock c fd b =>
    if s.pc c ≠ .idle then none
    else match (fdLookup s.kernel c fd).bind s.inode with
      | some ino =>
        some { s with pc := Function.update s.pc c (.flock ino b (s.kernel.tasks c).fdOwnerPid) }
      | none => some s
  | .close c fd =>
    if s.pc c ≠ .idle then none
    else some { s with
      kernel := closeFile s.kernel c fd
      pc := Function.update s.pc c (afterUnref s c fd) }
  | .go c =>
    let (tab, pc) := advance s.tab (s.pc c)
    some { s with tab, pc := Function.update s.pc c pc }
  | .other kernel inode pipe => some { s with kernel, inode, pipe }

end CoreZ.Syscall.Flock
