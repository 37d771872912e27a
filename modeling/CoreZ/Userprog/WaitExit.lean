import CoreZ.Lib.Run
import Mathlib.Data.Fintype.Basic

/-!
# `CoreZ.Userprog.WaitExit`: waiting and exiting

The model of `kernel/userprog/wait_exit.c` (`sys_wait`, `sys_waitid`,
`proc_exit`, `kill_orphan_children`) with the parts of
`kernel/sched/thread.c` and `kernel/syscall/signal.c` that these
functions call.

The kernel is preemptive: a system call runs with interrupts enabled,
and the timer interrupt calls `schedule`. A section under a lock runs
with interrupts disabled. So one step of the model is the longest
piece of a call that cannot be interrupted, and `Pc` says where in its
call a task stands: after each step of `advance` a `preempt` may come.
All tasks have `cpu_aff = 1`, so there is one processor; `current` is
`none` inside `schedule`, between the task that left and the next one.

Not modelled: the resources that `release_prog_resource` gives back
other than the address space, whose presence `thread_kill_pid` tests;
the choice of `pick_cpu_slot` among the ready tasks, which is left
open; the creation of tasks.
-/

set_option autoImplicit false

namespace CoreZ.Userprog


/-- `enum TASK_STATUS`. -/
inductive TaskStatus where
  | running | ready | blocked | waiting | hanging | died | stopped
  deriving DecidableEq, Repr

/-- `TASK_WAKE_MASK`. -/
def TaskStatus.wakeMask : TaskStatus → Bool
  | .blocked | .waiting | .hanging => true
  | _ => false

/-- `TASK_DEAD_MASK`. -/
def TaskStatus.deadMask : TaskStatus → Bool
  | .died | .hanging => true
  | _ => false

/-- An index of `task_table`. -/
abbrev Slot := Fin 64

/-- The `idtype` of `sys_waitid`; every other value is `any`. -/
inductive IdType where
  | any | pid | pgid
  deriving DecidableEq, Repr

/-- A call of `sys_wait` or `sys_waitid`, with the bits `LINUX_WNOHANG`
and `LINUX_WNOWAIT` of its options. -/
inductive WaitCall where
  | wait
  | waitid (idtype : IdType) (id : Nat) (nohang nowait : Bool)
  deriving DecidableEq, Repr

/-- The fields of `struct LINUX_SIGINFO` that depend on the child. -/
structure LinuxSiginfo where
  code : Nat
  pid : Nat
  status : Int
  utime : Nat
  deriving DecidableEq, Repr

/-- What a call hands to its caller: the pid and `*status` of
`sys_wait`, the `*info` of `sys_waitid`, `-1` without a child, or the
empty answer of `LINUX_WNOHANG`. -/
inductive WaitResult where
  | child (pid : Nat) (status : Int)
  | info (siginfo : LinuxSiginfo)
  | noChild
  | nothing
  deriving DecidableEq, Repr

/-- Where a task stands: in user mode after a call, or before a section
of the call it is in. -/
inductive Pc where
  /-- not in one of the calls -/
  | user (result : Option WaitResult)
  /-- the top of the loop of `sys_wait` and `sys_waitid` -/
  | scan (call : WaitCall)
  /-- a zombie was found and the lock is released -/
  | reap (call : WaitCall) (target : Slot)
  /-- before `thread_block_with_status(TASK_WAITING)` -/
  | block (call : WaitCall)
  /-- the second loop of `kill_orphan_children` -/
  | orphans (victims : List Slot)
  /-- `proc_exit` before the test of the parent's status -/
  | notify
  /-- the parent was `TASK_WAITING` -/
  | unblock (parent : Slot)
  /-- before `signal_notify_child_exit` -/
  | sigchld (parent : Option Slot)
  /-- `signal_send_task` before its `thread_ready` -/
  | sigReady (parent : Slot)
  /-- before the task takes its last status -/
  | hang
  deriving DecidableEq, Repr

/-- The fields of `struct TASK` that the calls read or write, with the
task's bit of `ready_bitmap`, whether `sigactions[SIGCHLD]` is a
handler, and whether `pml4_phys` is set. -/
structure KTask where
  slotUsed : Bool
  pid : Nat
  parentPid : Int
  pgid : Nat
  status : TaskStatus
  inReady : Bool
  exitStatus : Int
  elapsedTicks : Nat
  sigchldHandler : Bool
  sigchldPending : Bool
  sleepIntr : Bool
  sleepEintr : Bool
  hasSpace : Bool
  pc : Pc
  deriving DecidableEq, Repr

/-- A `uint32_t` read as an `int32_t`. -/
def toInt32 (n : Nat) : Int :=
  if n % 4294967296 < 2147483648 then (n % 4294967296 : Nat)
  else (n % 4294967296 : Nat) - 4294967296

variable (t : KTask)

/-- `(int32_t)t->pid`. -/
def KTask.ipid : Int := toInt32 t.pid

/-- The task table, `thread_all_list` and the running task. -/
structure Sched where
  tasks : Slot → KTask
  allList : List Slot
  current : Option Slot

variable (s : Sched)

/-- Change the task in one slot. -/
def Sched.modify (t : Slot) (f : KTask → KTask) : Sched :=
  { s with tasks := Function.update s.tasks t (f (s.tasks t)) }

/-- The task goes on at another place. -/
def Sched.goto (t : Slot) (pc : Pc) : Sched := s.modify t fun k => { k with pc }

def readyEnqueue : KTask :=
  if t.inReady then t else { t with inReady := true, status := .ready }

def readyRemove : KTask := { t with inReady := false }

/-- `thread_ready`, and `thread_unblock`. -/
def threadReady : KTask := if t.status.wakeMask then readyEnqueue t else t

/-- `thread_block_prepare`. -/
def threadBlockPrepare (status : TaskStatus) (t : KTask) : KTask := { readyRemove t with status }

def threadExit : KTask :=
  if t.status = .died then t else readyRemove { t with status := .died }

/-- `release_prog_resource`: `task_release_space` clears `pml4_phys`. -/
def releaseProgResource : KTask := { t with hasSpace := false }

/-- The body of the second loop of `kill_orphan_children`. -/
def killOrphan : KTask :=
  threadExit (if t.status = .died ∨ t.status = .hanging then t else releaseProgResource t)

/-- The `victims` that `kill_orphan_children` collects under the lock. -/
def orphans (parentPid : Int) : List Slot :=
  s.allList.filter fun t => (s.tasks t).parentPid = parentPid ∧ (s.tasks t).status ≠ .died

def pid2thread (pid : Int) : Option Slot :=
  (List.finRange 64).find? fun t => (s.tasks t).slotUsed && decide ((s.tasks t).ipid = pid)

def waitidMatch : IdType → Nat → Bool
  | .pid, id => t.pid = id
  | .pgid, id => (if t.pgid = 0 then t.pid else t.pgid) = id
  | .any, _ => true

/-- The tasks that a call takes for a child: `sys_waitid` passes over
the ones that are `TASK_DIED`, `sys_wait` does not. -/
def WaitCall.isChild (call : WaitCall) (parent : Int) (t : KTask) : Bool :=
  match call with
  | .wait => t.parentPid = parent
  | .waitid .. => t.parentPid = parent ∧ t.status ≠ .died

/-- The children a call asks for. -/
def WaitCall.matches (call : WaitCall) (t : KTask) : Bool :=
  match call with
  | .wait => true
  | .waitid idtype id _ _ => waitidMatch t idtype id

def WaitCall.nohang : WaitCall → Bool
  | .wait => false
  | .waitid _ _ nohang _ => nohang

def WaitCall.nowait : WaitCall → Bool
  | .wait => false
  | .waitid _ _ _ nowait => nowait

/-- The loop over `thread_all_list`: the first zombie that the call asks
for, and whether there was a child before the loop ended. -/
def waitScan (tasks : Slot → KTask) (call : WaitCall) (parent : Int) :
    List Slot → Bool → Option Slot × Bool
  | [], any => (none, any)
  | t :: ts, any =>
    if call.isChild parent (tasks t) then
      if call.matches (tasks t) ∧ (tasks t).status = .hanging then (some t, true)
      else waitScan tasks call parent ts true
    else waitScan tasks call parent ts any

/-- The signal that `sys_waitid` reads off an exit status. -/
def exitSignal (status : Int) : Int := if status ≥ 128 then status - 128 else 0

/-- What the call reports of a zombie (`LINUX_CLD_EXITED` is 1,
`LINUX_CLD_KILLED` is 2). -/
def WaitCall.report (call : WaitCall) (t : KTask) : WaitResult :=
  match call with
  | .wait => .child t.pid t.exitStatus
  | .waitid .. =>
    let sig := exitSignal t.exitStatus
    .info { code := if sig ≠ 0 then 2 else 1, pid := t.pid,
            status := if sig ≠ 0 then sig else t.exitStatus, utime := t.elapsedTicks }

/-- `signal_wake_interruptible` in `signal_send_task` and `itimer_tick`
sets this flag of a sleeping task. -/
def interrupt : KTask := { t with sleepEintr := t.sleepEintr || t.sleepIntr }

/-- The next section of the call that task `t` is in. -/
def advance (t : Slot) : Option Sched :=
  let cur := s.tasks t
  match cur.pc with
  | .user _ => none
  | .scan call =>
    match waitScan s.tasks call cur.ipid s.allList false with
    | (some target, _) => some (s.goto t (.reap call target))
    | (none, false) => some (s.goto t (.user (some .noChild)))
    | (none, true) =>
      if call.nohang then some (s.goto t (.user (some .nothing)))
      else some (s.goto t (.block call))
  | .reap call target =>
    let s' := s.goto t (.user (some (call.report (s.tasks target))))
    some (if call.nowait then s' else s'.modify target threadExit)
  | .block call =>
    -- the wait goes on at the top of the loop
    some { (s.goto t (.scan call)).modify t (threadBlockPrepare .waiting) with current := none }
  | .orphans (v :: vs) => some ((s.modify v killOrphan).goto t (.orphans vs))
  | .orphans [] => some ((s.modify t releaseProgResource).goto t .notify)
  | .notify =>
    match pid2thread s cur.parentPid with
    | some p =>
      if (s.tasks p).status = .waiting then some (s.goto t (.unblock p))
      else some (s.goto t (.sigchld (some p)))
    | none => some (s.goto t (.sigchld none))
  | .unblock p => some ((s.modify p threadReady).goto t (.sigchld (some p)))
  | .sigchld none => some (s.goto t .hang)
  | .sigchld (some p) =>
    let parent := s.tasks p
    if ¬ parent.slotUsed ∨ parent.status = .died ∨ ¬ parent.sigchldHandler then
      some (s.goto t .hang)
    else
      let s' := s.modify p fun k => interrupt { k with sigchldPending := true }
      some (s'.goto t (if parent.sleepIntr ∨ parent.status = .waiting then .sigReady p else .hang))
  | .sigReady p => some ((s.modify p threadReady).goto t .hang)
  | .hang =>
    let last : TaskStatus := if cur.parentPid < 0 then .died else .hanging
    some { (s.goto t (.user none)).modify t (threadBlockPrepare last) with current := none }

/-- The lookup at the start of `thread_kill_pid`. -/
def killTarget (pid : Nat) : Option Slot :=
  (List.finRange 64).find? fun t => (s.tasks t).slotUsed && decide ((s.tasks t).pid = pid)

/-- `thread_unblock(parent)` when the parent is `TASK_WAITING`. -/
def wakeParent (parentPid : Int) : Sched :=
  match pid2thread s parentPid with
  | some p => if (s.tasks p).status = .waiting then s.modify p threadReady else s
  | none => s

/-- What `thread_kill_pid` does to its target, with interrupts
disabled. -/
def killTask (t : Slot) : Sched :=
  let s₁ := (s.modify t fun k => { k with exitStatus := -1 }).modify t (threadBlockPrepare .hanging)
  let s₂ := (orphans s₁ (s.tasks t).ipid).foldl (fun s v => s.modify v killOrphan) s₁
  wakeParent s₂ (s.tasks t).parentPid

def threadKillPid (pid : Nat) : Sched :=
  match killTarget s pid with
  | none => s
  | some t =>
    if (s.tasks t).status.deadMask ∨ ¬ (s.tasks t).hasSpace then s
    else if s.current = some t then { killTask s t with current := none }
    else killTask s t

/-- The timer of a task that runs out, in `itimer_tick`. -/
def itimerTick (t : Slot) : Sched :=
  let task := s.tasks t
  if ¬ task.slotUsed ∨ task.status = .died then s
  else if task.sleepIntr ∨ task.status = .waiting then s.modify t fun k => threadReady (interrupt k)
  else s

/-- What can happen next. -/
inductive Event where
  /-- the timer interrupt takes the processor from the running task -/
  | preempt
  /-- `schedule` picks a ready task -/
  | dispatch (t : Slot)
  /-- the running task takes the next section of its call -/
  | advance
  /-- the running task, in user mode, calls `sys_wait` or `sys_waitid` -/
  | wait (call : WaitCall)
  /-- the running task, in user mode, exits -/
  | exit (status : Int)
  /-- the running task, in user mode, sends `SIGKILL` -/
  | kill (pid : Nat)
  /-- the timer interrupt raises `SIGALRM` -/
  | itimer (t : Slot)
  /-- `reap_died_threads` frees a slot -/
  | reapDied (t : Slot)
  deriving DecidableEq, Repr

/-- The running task, when it is in user mode. -/
def Sched.inUser : Option Slot :=
  s.current.filter fun t => match (s.tasks t).pc with | .user _ => true | _ => false

def step : Event → Option Sched
  | .preempt => s.current.map fun t =>
    { s.modify t fun k => if k.status = .running then readyEnqueue k else k with current := none }
  | .dispatch t =>
    if s.current = none ∧ (s.tasks t).inReady then
      some { s.modify t (fun k => { readyRemove k with status := .running }) with
        current := some t }
    else none
  | .advance => s.current.bind (CoreZ.Userprog.advance s)
  | .wait call => s.inUser.map fun t => s.goto t (.scan call)
  | .exit status => s.inUser.map fun t =>
    (s.modify t fun k => { k with exitStatus := status }).goto t
      (.orphans (orphans s (s.tasks t).ipid))
  | .kill pid => s.inUser.map fun _ => threadKillPid s pid
  | .itimer t => some (itimerTick s t)
  | .reapDied t =>
    if s.current ≠ some t ∧ (s.tasks t).status = .died then
      some { s.modify t (fun k => { k with slotUsed := false }) with
        allList := s.allList.filter (· ≠ t) }
    else none

end CoreZ.Userprog
