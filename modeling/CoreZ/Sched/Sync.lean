import Mathlib.Logic.Function.Basic

/-!
# `CoreZ.Sched.Sync`: semaphores and recursive locks

The model of `sema_down`, `sema_up`, `lock_acquire` and `lock_release` in
`kernel/sched/sync.c`.

What a function does under the spinlock of a semaphore is one step here:
interrupts are off and no other processor is in there. `sema_down` is a loop of
such steps. A pass takes a unit of the value, or puts the task on the list of
waiters and blocks it; a blocked task makes its next pass after an up has taken
it from the list. `thread_block_prepare` sets the status before the spinlock is
released, so an up that finds the task on the list finds it blocked.
`lock_acquire` looks at the holder before it takes the spinlock, which is a step
of its own.

`value` is a `uint8_t` and `holder_repeat_nr` a `uint32_t`; both wrap around.
`ups`, `downs` and `depth` are not in the source: they count the calls that are
done.
-/

set_option autoImplicit false

namespace CoreZ.Sched

open Function (update)

/-- `struct TASK`, by its number. -/
abbrev Task := Nat

/-- `SCHED_SEMAPHORE`. The waiters are in the order of the list. -/
structure Semaphore where
  value : Nat
  waiters : List Task
deriving DecidableEq

/-- One pass of the loop of `sema_down`: `true` when the value was taken. -/
def Semaphore.pass (s : Semaphore) (t : Task) : Bool × Semaphore :=
  if s.value = 0 then (false, { s with waiters := s.waiters ++ [t] })
  else (true, { s with value := s.value - 1 })

/-- `sema_up`: the task that is taken from the list, and the semaphore. -/
def Semaphore.up (s : Semaphore) : Option Task × Semaphore :=
  (s.waiters.head?, { value := (s.value + 1) % 256, waiters := s.waiters.tail })

/-- The semaphores: one that stands alone, or the one of a lock. -/
inductive SemaId where
  | plain (k : Nat)
  | ofLock (l : Nat)
deriving DecidableEq

/-- A call that takes a unit of a semaphore. -/
inductive Call where
  | down (k : Nat)
  | acquire (l : Nat)
deriving DecidableEq

def Call.sema : Call → SemaId
  | .down k => .plain k
  | .acquire l => .ofLock l

/-- Where a task is. -/
inductive Pc where
  /-- in none of the functions -/
  | idle
  /-- before a pass of the loop, the first one or, after a wake-up, a later one -/
  | trying (c : Call) (woken : Bool)
  /-- blocked, on the list of waiters -/
  | blocked (c : Call)
deriving DecidableEq

/-- `SCHED_LOCK` without its semaphore. -/
structure Lock where
  holder : Option Task
  holderRepeatNr : Nat
deriving DecidableEq

structure State where
  sema : SemaId → Semaphore
  lock : Nat → Lock
  pc : Task → Pc
  downs : SemaId → Nat
  ups : SemaId → Nat
  depth : Nat → Task → Nat

/-- `sema_init` with the values `v`, and `lock_init`. -/
def State.init (v : Nat → Nat) : State where
  sema
    | .plain k => { value := v k % 256, waiters := [] }
    | .ofLock _ => { value := 1, waiters := [] }
  lock _ := { holder := none, holderRepeatNr := 0 }
  pc _ := .idle
  downs _ := 0
  ups _ := 0
  depth _ _ := 0

/-- The value that a semaphore starts with. -/
def initial (v : Nat → Nat) (k : SemaId) : Nat := ((State.init v).sema k).value

variable (s : State)

/-- `thread_unblock` -/
def State.wake : Option Task → State
  | none => s
  | some w =>
    match s.pc w with
    | .blocked c => { s with pc := update s.pc w (.trying c true) }
    | _ => s

def State.setSema (k : SemaId) (x : Semaphore) : State :=
  { s with sema := update s.sema k x }

/-- `sema_up` on a semaphore of the state. -/
def State.up (k : SemaId) : State :=
  let s' := { s with ups := update s.ups k (s.ups k + 1) }
  (s'.setSema k (s.sema k).up.2).wake (s.sema k).up.1

/-- The lock is left or entered once more by the task. -/
def State.setDepth (l : Nat) (t : Task) (n : Nat) : State :=
  { s with depth := update s.depth l (update (s.depth l) t n) }

def State.setLock (l : Nat) (x : Lock) : State :=
  { s with lock := update s.lock l x }

def State.setPc (t : Task) (p : Pc) : State :=
  { s with pc := update s.pc t p }

/-- The end of `sema_down` and of `lock_acquire`, when the value was taken. -/
def State.taken (t : Task) (c : Call) : State :=
  let s := { s with downs := update s.downs c.sema (s.downs c.sema + 1) }
  let s := s.setPc t .idle
  match c with
  | .down _ => s
  | .acquire l =>
    (s.setLock l { holder := some t, holderRepeatNr := 1 }).setDepth l t (s.depth l t + 1)

inductive Event where
  | down (t : Task) (k : Nat)
  | acquire (t : Task) (l : Nat)
  | pass (t : Task)
  | up (t : Task) (k : Nat)
  | release (t : Task) (l : Nat)

/-- One step of a task; `none` when the task is not at that point. A release is by
the holder. -/
def step : Event → Option State
  | .down t k => if s.pc t = .idle then some (s.setPc t (.trying (.down k) false)) else none
  | .acquire t l =>
    if s.pc t = .idle then
      if (s.lock l).holder = some t then
        let nr := ((s.lock l).holderRepeatNr + 1) % 4294967296
        some ((s.setLock l { holder := some t, holderRepeatNr := nr }).setDepth l t
          (s.depth l t + 1))
      else some (s.setPc t (.trying (.acquire l) false))
    else none
  | .pass t =>
    match s.pc t with
    | .trying c _ =>
      let r := (s.sema c.sema).pass t
      let s := s.setSema c.sema r.2
      some (if r.1 then s.taken t c else s.setPc t (.blocked c))
    | _ => none
  | .up t k => if s.pc t = .idle then some (s.up (.plain k)) else none
  | .release t l =>
    if s.pc t = .idle ∧ (s.lock l).holder = some t then
      let s' := s.setDepth l t (s.depth l t - 1)
      let nr := (s.lock l).holderRepeatNr
      if nr > 1 then some (s'.setLock l { holder := some t, holderRepeatNr := nr - 1 })
      else some ((s'.setLock l { holder := none, holderRepeatNr := 0 }).up (.ofLock l))
    else none

end CoreZ.Sched
