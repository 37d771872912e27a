import CoreZ.Sched.Sync

/-!
# `CoreZ.Syscall.Futex`: `futex_do_wait` and `futex_do_wake`

The model of `futex_parse_timeout`, `futex_do_wait` and `futex_do_wake` in
`kernel/syscall/futex.c`, of `thread_timer_wake` in `kernel/sched/thread.c` as
far as one task is concerned, and of
`signal_wake_interruptible` in `kernel/syscall/signal.c`.

The processors run tasks at the same time, so the two functions are cut into steps, and
the steps of different tasks, the timer and the signals come in any order. The spinlock of
a bucket is held over several steps. What is done under the lock of the scheduler
(`thread_block_prepare_timed`, `thread_timer_disarm`, `thread_ready`, one entry of
`thread_timer_wake`) is one step. A task in `asleep` has called `schedule` and goes on
when its status is not in `TASK_WAKE_MASK`.

`signal_wake_interruptible` has no lock, so its test of `sleep_intr`, its store to
`sleep_eintr` and its call of `thread_ready` are three steps. Who sends is of no concern;
any number of senders may be under way.

The word at `uaddr` is what the environment says it is when it is read, and a timer that
is armed may expire at any time.

`wakes`, `counted`, `tally` and `served` are not in the source. Each wake has a number;
`counted` is the wake that has counted the wait in which a task is, `tally` how many waits a wake
has counted, and `served` how many of them have returned 0.
-/

set_option autoImplicit false

namespace CoreZ.Syscall.Futex

open CoreZ.Sched (Task)

/-! ### Timeouts -/

def pitHz : Int := 100
def futexNsPerSec : Int := 1000000000
def futexTickNs : Int := futexNsPerSec / pitHz
def futexMaxTicks : Int := 0x7fffffff
def futexMaxDeltaSec : Int := 100000000

/-- `struct LINUX_TIMESPEC` -/
structure Timespec where
  tvSec : Int
  tvNsec : Int

/-- `ns` of `futex_parse_timeout`. The real-time clock `rtc` reads a year of two digits, so that no
product leaves the 64 bits. -/
def futexNs (sec nsec : Int) (absolute realtime : Bool) (tick rtc : Nat) : Int :=
  if absolute then
    let nowSec : Int := if realtime then rtc else tick / pitHz
    let nowNs : Int := if realtime then 0 else tick % pitHz * futexTickNs
    (sec - nowSec) * futexNsPerSec + (nsec - nowNs)
  else sec * futexNsPerSec + nsec

/-- The ticks that `futex_parse_timeout` makes of `ns`. -/
def futexTicks (ns : Int) : Int :=
  if ns ≤ 0 then 0
  else
    let t := ns / futexTickNs
    let t := if t = 0 then 1 else t
    if futexMaxTicks < t then futexMaxTicks else t

/-- `none` is `-EINVAL`. -/
def futexParseTimeout (ts : Timespec) (absolute realtime : Bool) (tick rtc : Nat) : Option Int :=
  if ts.tvNsec < 0 ∨ futexNsPerSec ≤ ts.tvNsec ∨ ts.tvSec < 0 then none
  else
    let sec := if futexMaxDeltaSec < ts.tvSec then futexMaxDeltaSec else ts.tvSec
    some (futexTicks (futexNs sec ts.tvNsec absolute realtime tick rtc))

/-! ### Waiting and waking -/

/-- The arguments of `futex_do_wake`. -/
structure WakeArgs where
  uaddr : BitVec 32
  nr : BitVec 32
  bitset : BitVec 32
deriving DecidableEq

/-- Where `futex_do_wake` is in the body of its loop. -/
inductive Stage where
  /-- at the head of the loop -/
  | scan
  /-- the test of the waiter was passed -/
  | selected (t : Task)
  /-- after `list_remove` and `thread_timer_disarm` -/
  | disarmed (t : Task)
  /-- after the store to `futex_ready` -/
  | marked (t : Task)
deriving DecidableEq

def Stage.target : Stage → Option Task
  | .scan => none
  | .selected t | .disarmed t | .marked t => some t

/-- Where a task is. -/
inductive Pc where
  | idle
  /-- in `futex_do_wait`, before it takes the lock of the bucket -/
  | waitLock (val : BitVec 32) (ticks : Option (BitVec 32))
  /-- on the list, before `thread_block_prepare_timed`, with the lock -/
  | waitPrepare (ticks : Option (BitVec 32))
  /-- in `thread_block_commit` -/
  | asleep
  /-- after `sleep_intr = 0` -/
  | resumed
  /-- `futex_ready` was read -/
  | unlink (ready : Nat)
  /-- off the list, before `thread_timer_cancel` -/
  | finish (ready : Nat)
  /-- in `futex_do_wake`, before it takes the lock of the bucket -/
  | wakeLock (a : WakeArgs) (id : Nat)
  /-- in the loop; `todo` are the waiters from `e` on -/
  | waking (a : WakeArgs) (id : Nat) (stage : Stage) (todo : List Task) (woken : Nat)
deriving DecidableEq

/-- `struct TASK`, as far as futexes are concerned. `armed` is the bit of the task in
`sleep_bitmap`, and `blocked` says that its status is in `TASK_WAKE_MASK`. -/
structure TaskRec where
  pml4Phys : BitVec 32
  futexReady : Nat
  futexUaddr : BitVec 32
  futexPml4 : BitVec 32
  futexBitset : BitVec 32
  futexTimed : Bool
  sleepIntr : Bool
  sleepEintr : Bool
  armed : Bool
  blocked : Bool
  pc : Pc
deriving DecidableEq

/-- `SYS_FUTEX_BUCKET` -/
structure Bucket where
  waiters : List Task
  lock : Option Task
deriving DecidableEq

/-- Where a sender is in `signal_wake_interruptible`. -/
inductive Sending where
  /-- `sleep_intr` of the task was set -/
  | store (t : Task)
  /-- after the store to `sleep_eintr` -/
  | ready (t : Task)
deriving DecidableEq

structure State where
  task : Task → TaskRec
  bucket : Nat → Bucket
  sender : Nat → Option Sending
  wakes : Nat
  counted : Task → Option Nat
  tally : Nat → Nat
  served : Nat → Nat

/-- `futex_bucket_for` -/
def futexBucketFor (uaddr pml4Phys : BitVec 32) : Nat := (pml4Phys ^^^ (uaddr >>> 2)).toNat % 64

/-- The bucket of a task in `futex_do_wait`. -/
def TaskRec.bucket (r : TaskRec) : Nat := futexBucketFor r.futexUaddr r.futexPml4

/-- No task is in a call; the address spaces are given. -/
def State.init (pml4 : Task → BitVec 32) : State where
  task t := ⟨pml4 t, 0, 0, 0, 0, false, false, false, false, false, .idle⟩
  bucket _ := ⟨[], none⟩
  sender _ := none
  wakes := 0
  counted _ := none
  tally _ := 0
  served _ := 0

variable (s : State) (t : Task)

def State.modify (f : TaskRec → TaskRec) : State :=
  { s with task := Function.update s.task t (f (s.task t)) }

def State.goto (pc : Pc) : State := s.modify t fun r => { r with pc := pc }

def State.setBucket (b : Nat) (x : Bucket) : State :=
  { s with bucket := Function.update s.bucket b x }

/-- What `futex_do_wait` returns in the end: 0, `-ETIMEDOUT` or `-EINTR`. -/
def result (ready : Nat) (eintr : Bool) : Int :=
  if ready = 2 then -110 else if eintr then -4 else 0

/-- The test of a waiter in the loop of `futex_do_wake`, without its status. -/
def Matches (u : Task) (a : WakeArgs) (t : Task) : Prop :=
  (s.task t).futexUaddr = a.uaddr ∧ (s.task t).futexPml4 = (s.task u).pml4Phys ∧
    (s.task t).futexBitset &&& a.bitset ≠ 0
  deriving Decidable

/-- The part of `futex_do_wait` under the lock, up to `thread_block_prepare_timed`: the
two early returns, or the task is put on the list. -/
def State.enqueue (value val : BitVec 32) (ticks : Option (BitVec 32)) : Option State :=
  let b := (s.task t).bucket
  if (s.bucket b).lock ≠ none then none
  -- `-EAGAIN` and `-ETIMEDOUT`; the lock is given back at once
  else if value ≠ val then some (s.goto t .idle)
  else if ticks = some 0 then some (s.goto t .idle)
  else
    let s := s.setBucket b ⟨(s.bucket b).waiters ++ [t], some t⟩
    some (s.modify t fun r =>
      { r with sleepEintr := false, sleepIntr := true, pc := .waitPrepare ticks })

/-- `thread_block_prepare_timed` and the release of the lock. -/
def State.prepare (ticks : Option (BitVec 32)) : State :=
  let b := (s.task t).bucket
  let s := s.setBucket b ⟨(s.bucket b).waiters, none⟩
  let timed := (ticks.getD 0) ≠ 0
  s.modify t fun r =>
    { r with blocked := true, futexTimed := timed, armed := timed || r.armed, pc := .asleep }

/-- `list_remove` after `elem_find`, under the lock. -/
def State.unlink (ready : Nat) : Option State :=
  let b := (s.task t).bucket
  if (s.bucket b).lock ≠ none then none
  else some ((s.setBucket b ⟨(s.bucket b).waiters.erase t, none⟩).goto t (.finish ready))

/-- A wait that returns 0 is put down to the wake that has counted it. -/
def State.servedAfter (ready : Nat) : Nat → Nat :=
  match s.counted t with
  | some id =>
    if result ready (s.task t).sleepEintr = 0 then Function.update s.served id (s.served id + 1)
    else s.served
  | none => s.served

/-- The end of `futex_do_wait`, from `thread_timer_cancel` on. -/
def State.finish (ready : Nat) : State :=
  let counted := Function.update s.counted t none
  { s with served := s.servedAfter t ready, counted := counted }.modify t fun r =>
    { r with
      armed := false
      futexTimed := false
      -- cleared where it decides the result, only
      sleepEintr := if ready = 2 then r.sleepEintr else false
      pc := .idle }

/-- `futex_do_wake` gives the lock back and returns `woken`. -/
def State.leave (u : Task) (a : WakeArgs) : State :=
  let b := futexBucketFor a.uaddr (s.task u).pml4Phys
  (s.setBucket b ⟨(s.bucket b).waiters, none⟩).goto u .idle

/-- A step of `futex_do_wake` with the lock of its bucket. -/
def State.wakeStep (u : Task) (a : WakeArgs) (id : Nat) (todo : List Task) (woken : Nat) : Stage →
    State
  | .scan =>
    match todo with
    | t :: rest =>
      if (woken : Int) < a.nr.toInt then
        if Matches s u a t ∧ (s.task t).blocked then
          s.goto u (.waking a id (.selected t) rest woken)
        else s.goto u (.waking a id .scan rest woken)
      else s.leave u a
    | [] => s.leave u a
  | .selected t =>
    let b := futexBucketFor a.uaddr (s.task u).pml4Phys
    let s := s.setBucket b ⟨(s.bucket b).waiters.erase t, (s.bucket b).lock⟩
    let s := s.modify t fun r => { r with armed := false, futexTimed := false }
    s.goto u (.waking a id (.disarmed t) todo woken)
  | .disarmed t =>
    let s := s.modify t fun r => { r with futexReady := 1 }
    s.goto u (.waking a id (.marked t) todo woken)
  | .marked t =>
    let s := s.modify t fun r => { r with blocked := false }
    let s := { s with
      counted := Function.update s.counted t (some id)
      tally := Function.update s.tally id (s.tally id + 1) }
    s.goto u (.waking a id .scan todo (woken + 1))

/-- The next step of a task. `value` is the word at `uaddr`, if it is read. -/
def State.proceed (value : BitVec 32) : Option State :=
  match (s.task t).pc with
  | .idle => none
  | .waitLock val ticks => s.enqueue t value val ticks
  | .waitPrepare ticks => some (s.prepare t ticks)
  | .asleep =>
    if (s.task t).blocked then none
    else some (s.modify t fun r => { r with sleepIntr := false, pc := .resumed })
  | .resumed =>
    some (s.modify t fun r => { r with futexReady := 0, pc := .unlink r.futexReady })
  | .unlink ready => s.unlink t ready
  | .finish ready => some (s.finish t ready)
  | .wakeLock a id =>
    let b := futexBucketFor a.uaddr (s.task t).pml4Phys
    if (s.bucket b).lock ≠ none then none
    else
      let waiters := (s.bucket b).waiters
      some ((s.setBucket b ⟨waiters, some t⟩).goto t (.waking a id .scan waiters 0))
  | .waking a id stage todo woken => some (s.wakeStep t a id todo woken stage)

/-- The entry of a task in `thread_timer_wake`. -/
def State.timerWake : State :=
  s.modify t fun r =>
    if r.blocked then
      { r with
        armed := false
        futexReady := if r.futexTimed then 2 else r.futexReady
        futexTimed := false
        blocked := false }
    else { r with armed := false }

def State.setSender (k : Nat) (x : Option Sending) : State :=
  { s with sender := Function.update s.sender k x }

/-- `thread_ready` -/
def State.threadReady : State :=
  if (s.task t).blocked then s.modify t fun r => { r with blocked := false } else s

/-- The next step of a sender in `signal_wake_interruptible`. -/
def State.send (k : Nat) : Option State :=
  match s.sender k with
  | none => none
  | some (.store t) =>
    some ((s.modify t fun r => { r with sleepEintr := true }).setSender k (some (.ready t)))
  | some (.ready t) => some ((s.threadReady t).setSender k none)

inductive Event where
  | wait (t : Task) (uaddr val bitset : BitVec 32) (ticks : Option (BitVec 32))
  | wake (t : Task) (a : WakeArgs)
  | proceed (t : Task) (value : BitVec 32)
  | timer (t : Task)
  /-- the test of `signal_wake_interruptible` -/
  | signal (k : Nat) (t : Task)
  | send (k : Nat)

def step : Event → Option State
  | .wait t uaddr val bitset ticks =>
    if (s.task t).pc = .idle then
      some (s.modify t fun r =>
        { r with
          futexReady := 0
          futexUaddr := uaddr
          futexPml4 := r.pml4Phys
          futexBitset := bitset
          pc := .waitLock val ticks })
    else none
  | .wake t a =>
    if (s.task t).pc = .idle then
      some ({ s with wakes := s.wakes + 1 }.goto t (.wakeLock a s.wakes))
    else none
  | .proceed t value => s.proceed t value
  | .timer t => if (s.task t).armed then some (s.timerWake t) else none
  | .signal k t =>
    if s.sender k = none then
      some (if (s.task t).sleepIntr then s.setSender k (some (.store t)) else s)
    else none
  | .send k => s.send k

end CoreZ.Syscall.Futex
