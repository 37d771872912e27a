import CoreZ.Userprog.WaitExit

/-!
# `CoreZ.Sched.Wakeup`: `sys_kill`

The model of `sys_kill` and `signal_send_task` of `kernel/syscall/signal.c`,
over the tasks of `CoreZ.Userprog.WaitExit`. Not modelled: the delivery of a
signal, and the signal mask, which sending does not read.
-/

set_option autoImplicit false

namespace CoreZ.Sched.Wakeup

open CoreZ.Userprog

/-- `SIG_DFL`, `SIG_IGN` or a function of the program. -/
inductive Handler where
  | dfl | ign | user
  deriving DecidableEq

inductive SigAct where
  | term | ign | stop | cont
  deriving DecidableEq

def sigkill : Nat := 9
def sigcont : Nat := 18

/-- `sig_default`. The table leaves out some signals; `SIG_ACT_TERM` is 0. -/
def sigDefault : Nat → SigAct
  | 17 | 28 => .ign
  | 18 => .cont
  | 19 | 20 | 21 | 22 => .stop
  | _ => .term

/-- The tasks with their signals. -/
structure Machine where
  sched : Sched
  pending : Slot → Nat → Bool
  handler : Slot → Nat → Handler

/-- No signal is pending. -/
def Machine.ofSched (s : Sched) : Machine where
  sched := s
  pending _ _ := false
  handler _ _ := .dfl

variable (m : Machine) (t : Slot)

def Machine.task : KTask := m.sched.tasks t

def Machine.modify (f : KTask → KTask) : Machine :=
  { m with sched := m.sched.modify t f }

def Machine.setPending (sig : Nat) (b : Bool) : Machine :=
  { m with pending := Function.update m.pending t (Function.update (m.pending t) sig b) }

def sigDefaultTerminates (sig : Nat) : Bool :=
  sig = sigkill ∨ m.handler t sig = .dfl ∧ sigDefault sig = .term

def signalSendTask (sig : Nat) : Machine :=
  if sig = 0 then m
  else if sig = sigkill then { m with sched := threadKillPid m.sched (m.task t).pid }
  else if sig = sigcont ∧ (m.task t).status = .stopped then
    (m.modify t threadReady).setPending t sigcont false
  else if (m.task t).sleepIntr then
    (m.setPending t sig true).modify t fun k => threadReady { k with sleepEintr := true }
  else if (m.task t).status = .waiting then (m.setPending t sig true).modify t threadReady
  else if ((m.task t).status = .blocked ∨ (m.task t).status = .stopped) ∧
      sigDefaultTerminates m t sig then
    { m.setPending t sig false with sched := threadKillPid m.sched (m.task t).pid }
  else m.setPending t sig true

/-- The tasks of a process group that a call with a negative `pid` reaches. -/
def inGroup (k : KTask) (pgid : Nat) : Bool :=
  k.slotUsed && k.status != .died && (if k.pgid = 0 then k.pid else k.pgid) == pgid

/-- The body of the loop over a group. A task that has killed itself does not
come back to it. -/
def sendGroup (c : Slot) (pgid sig : Nat) (m : Machine) (t : Slot) : Machine :=
  if (m.task c).status ≠ .hanging ∧ inGroup (m.task t) pgid then signalSendTask m t sig else m

/-- `sys_kill` of the task `c`. -/
def sysKill (c : Slot) (pid sig : Int) : Machine :=
  if sig < 0 ∨ 32 ≤ sig then m
  else if pid < 0 then (List.finRange 64).foldl (sendGroup c (-pid).toNat sig.toNat) m
  else
    match pid2thread m.sched (if pid = 0 then (m.task c).ipid else pid) with
    | none => m
    | some t => signalSendTask m t sig.toNat

end CoreZ.Sched.Wakeup
