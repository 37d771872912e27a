import CoreZ.Sched.Sync

/-!
# `CoreZ.Sched.Rwlock`: the reader-writer lock

The model of `rwlock_read_acquire`, `rwlock_read_release`, `rwlock_write_acquire` and
`rwlock_write_release` in `kernel/sched/sync.c`, over the semaphores of
`CoreZ.Sched.Sync`.

A task is at a point of one of the four functions: before a pass of a `sema_down`, or
before one of the other statements. Each of these is one step, and the steps of different
tasks come in any order. A call that acquires may come at any time, also from a task that
holds the lock; a call that releases comes from a task that holds the lock in that way.

`readers` is a `uint32_t`. `reading` and `writing` are not in the source: they are the
tasks that hold the lock, from the return of the call that acquires it to the call that
releases it. `stamp` is the time at which a task came to the gate.
-/

set_option autoImplicit false

namespace CoreZ.Sched.Rwlock

/-- Where a task is in its call. -/
inductive Point where
  | idle
  /-- `rwlock_read_acquire` -/
  | rdGate | rdMutex | rdCount | rdWlock | rdUpMutex | rdUpGate
  /-- `rwlock_read_release` -/
  | relMutex | relCount | relUpWlock | relUpMutex
  /-- `rwlock_write_acquire` -/
  | wrGate | wrWlock
  /-- `rwlock_write_release` -/
  | wrUpWlock | wrUpGate
deriving DecidableEq

/-- How a task is at a `sema_down`: before the first pass, blocked, or woken. -/
inductive Wait where
  | first
  | blocked
  | woken
deriving DecidableEq

/-- The three semaphores of the lock. -/
inductive SemaName where
  | gate
  | rmutex
  | wlock
deriving DecidableEq

/-- `SCHED_RWLOCK` and the tasks. -/
structure State where
  sema : SemaName → Semaphore
  readers : Nat
  point : Task → Point
  wait : Task → Wait
  reading : List Task
  writing : List Task
  stamp : Task → Nat
  clock : Nat

/-- `rwlock_init` -/
def State.init : State where
  sema _ := { value := 1, waiters := [] }
  readers := 0
  point _ := .idle
  wait _ := .first
  reading := []
  writing := []
  stamp _ := 0
  clock := 0

variable (s : State)

def State.setSema (k : SemaName) (x : Semaphore) : State :=
  { s with sema := Function.update s.sema k x }

/-- The task goes on to a point. -/
def State.goto (t : Task) (p : Point) : State :=
  { s with point := Function.update s.point t p, wait := Function.update s.wait t .first }

def State.block (t : Task) : State :=
  { s with wait := Function.update s.wait t .blocked }

/-- `thread_unblock` -/
def State.wake : Option Task → State
  | none => s
  | some w => { s with wait := Function.update s.wait w .woken }

/-- The first pass of a task at the gate is when it arrives. -/
def State.arrive (k : SemaName) (t : Task) : State :=
  if k = .gate ∧ s.wait t = .first then
    { s with stamp := Function.update s.stamp t s.clock, clock := s.clock + 1 }
  else s

/-- A pass of `sema_down`; the task goes on to the point `p` when it has the unit. -/
def State.down (k : SemaName) (t : Task) (p : Point) : State :=
  let r := (s.sema k).pass t
  let s := (s.arrive k t).setSema k r.2
  if r.1 then s.goto t p else s.block t

/-- `sema_up` -/
def State.up (k : SemaName) (t : Task) (p : Point) : State :=
  ((s.setSema k (s.sema k).up.2).wake (s.sema k).up.1).goto t p

def State.setReaders (n : Nat) : State := { s with readers := n }

/-- The next step of a task that is not blocked. -/
def State.proceed (t : Task) : Option State :=
  match s.point t with
  | .idle => none
  | .rdGate => some (s.down .gate t .rdMutex)
  | .rdMutex => some (s.down .rmutex t .rdCount)
  | .rdCount =>
    let readers := (s.readers + 1) % 4294967296
    some ((s.setReaders readers).goto t (if readers = 1 then .rdWlock else .rdUpMutex))
  | .rdWlock => some (s.down .wlock t .rdUpMutex)
  | .rdUpMutex => some (s.up .rmutex t .rdUpGate)
  | .rdUpGate =>
    let s := s.up .gate t .idle
    some { s with reading := t :: s.reading }
  | .relMutex => some (s.down .rmutex t .relCount)
  | .relCount =>
    let readers := (s.readers + 4294967295) % 4294967296
    some ((s.setReaders readers).goto t (if readers = 0 then .relUpWlock else .relUpMutex))
  | .relUpWlock => some (s.up .wlock t .relUpMutex)
  | .relUpMutex => some (s.up .rmutex t .idle)
  | .wrGate => some (s.down .gate t .wrWlock)
  | .wrWlock =>
    let s' := s.down .wlock t .idle
    some (if (s.sema .wlock).value = 0 then s' else { s' with writing := t :: s'.writing })
  | .wrUpWlock => some (s.up .wlock t .wrUpGate)
  | .wrUpGate => some (s.up .gate t .idle)

inductive Event where
  | readAcquire (t : Task)
  | readRelease (t : Task)
  | writeAcquire (t : Task)
  | writeRelease (t : Task)
  | proceed (t : Task)

def step : Event → Option State
  | .readAcquire t => if s.point t = .idle then some (s.goto t .rdGate) else none
  | .readRelease t =>
    if s.point t = .idle ∧ t ∈ s.reading then
      some ({ s with reading := s.reading.erase t }.goto t .relMutex)
    else none
  | .writeAcquire t => if s.point t = .idle then some (s.goto t .wrGate) else none
  | .writeRelease t =>
    if s.point t = .idle ∧ t ∈ s.writing then
      some ({ s with writing := s.writing.erase t }.goto t .wrUpWlock)
    else none
  | .proceed t => if s.wait t = .blocked then none else s.proceed t

end CoreZ.Sched.Rwlock
