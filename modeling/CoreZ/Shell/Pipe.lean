import CoreZ.Lib.Run
import Mathlib.Logic.Function.Basic

/-!
# `CoreZ.Shell.Pipe`: pipes

The byte queue of `drivers/char/ioqueue.c` and the two calls of
`kernel/shell/pipe.c` on it, for one pipe and any number of tasks.

A step of the model is one load of a field of the queue outside its lock,
or one section under the lock. `ioq_putchar` and `ioq_getchar` give the
lock up when they block, and the section starts again when the task runs
next. The interrupts are disabled in larger parts of the calls (the whole
loop of `pipe_read`, the second test of `pipe_write` with the
`ioq_putchar` behind it), so every interleaving at the points where they
are enabled is a run of these steps, and there are more.

`stored` and `taken` are no data of the kernel: they record which task put
which byte into the queue and which task took it out, in this order.

The bytes that a task writes are read from its memory once, at the call.
What `pipe_end_alive` finds is a choice of the environment, and so is the
wake-up of a task from elsewhere.
-/

set_option autoImplicit false

namespace CoreZ.Shell


def bufsize : Nat := 1024

/-- A `struct TASK *`. -/
abbrev Task := Nat

/-- `struct TTY_IOQUEUE`. Its lock is free between two steps. -/
structure TtyIoqueue where
  producer : Option Task
  consumer : Option Task
  buf : Nat → UInt8
  head : Nat
  tail : Nat

/-- `ioq_init`: the page is not cleared. -/
def ioqInit (buf : Nat → UInt8) : TtyIoqueue where
  producer := none
  consumer := none
  buf := buf
  head := 0
  tail := 0

def nextPos (pos : Nat) : Nat := (pos + 1) % bufsize

def ioqFull (q : TtyIoqueue) : Bool := nextPos q.head == q.tail

def ioqEmpty (q : TtyIoqueue) : Bool := q.head == q.tail

/-- `ioq_length` when nothing comes between its loads. -/
def ioqLength (q : TtyIoqueue) : Nat :=
  if q.tail ≤ q.head then q.head - q.tail else bufsize - (q.tail - q.head)

/-- `ioq_length` before one of its loads, with what it has loaded. -/
inductive LengthPc where
  | start
  | head (head : Nat)
  /-- the two are compared: was the head at or behind the tail? -/
  | compared (ahead : Bool)
  | again (ahead : Bool) (head : Nat)
  deriving DecidableEq, Repr

/-- A value as `uint32_t`. -/
def toUint32 (n : Int) : Nat := (n % 4294967296).toNat

/-- The next load of `ioq_length`, or its result. -/
def lengthStep (q : TtyIoqueue) : LengthPc → LengthPc ⊕ Nat
  | .start => .inl (.head q.head)
  | .head head => .inl (.compared (decide (q.tail ≤ head)))
  | .compared ahead => .inl (.again ahead q.head)
  | .again true head => .inr (toUint32 (head - q.tail))
  | .again false head => .inr (toUint32 (bufsize - (q.tail - head)))

/-! ### Tasks -/

/-- Which end of the pipe the descriptor is, from `fd_flag`. -/
inductive PipeEnd where
  | read | write
  deriving DecidableEq, Repr

/-- What a call has returned, with the buffer that `pipe_read` has filled. -/
inductive Returned where
  | bytes (buffer : List UInt8)
  | written (count : Nat)
  | error
  deriving DecidableEq, Repr

/-- Where a task stands. -/
inductive Pc where
  /-- not in one of the calls -/
  | user (returned : Option Returned)
  /-- `pipe_read` in `ioq_length` -/
  | readLength (at' : LengthPc) (count : Nat)
  /-- `pipe_read` before the section of `ioq_getchar`; `bytes_read` is the
  length of the buffer -/
  | getchar (size : Nat) (buffer : List UInt8)
  /-- `pipe_write` in `ioq_length`, with the interrupts disabled or not -/
  | writeLength (cli : Bool) (at' : LengthPc) (data : List UInt8) (bytesWrite : Nat)
  /-- `pipe_write` before `pipe_end_alive` -/
  | peer (data : List UInt8) (bytesWrite : Nat)
  /-- `pipe_write` before the section of `ioq_putchar` -/
  | putchar (data : List UInt8) (bytesWrite : Nat)
  deriving DecidableEq, Repr

/-- The pipe and the tasks. -/
structure Pipe where
  ioq : TtyIoqueue
  /-- the status is `TASK_BLOCKED` -/
  blocked : Task → Bool
  pc : Task → Pc
  stored : List (Task × UInt8)
  taken : List (Task × UInt8)

/-- The pipe after `sys_pipe`. -/
def created (buf : Nat → UInt8) : Pipe where
  ioq := ioqInit buf
  blocked := fun _ => false
  pc := fun _ => .user none
  stored := []
  taken := []

variable (s : Pipe) (t : Task)

def Pipe.goto (pc : Pc) : Pipe := { s with pc := Function.update s.pc t pc }

/-- `thread_block_prepare(TASK_BLOCKED)`. -/
def Pipe.block : Pipe :=
  { s with blocked := Function.update s.blocked t true }

/-- `thread_unblock`. -/
def Pipe.unblock : Pipe :=
  { s with blocked := Function.update s.blocked t false }

/-- `wakeup(&ioq->consumer)`, if there is one. -/
def wakeupConsumer : Pipe :=
  match s.ioq.consumer with
  | none => s
  | some w => Pipe.unblock { s with ioq := { s.ioq with consumer := none } } w

/-- `wakeup(&ioq->producer)`, if there is one. -/
def wakeupProducer : Pipe :=
  match s.ioq.producer with
  | none => s
  | some w => Pipe.unblock { s with ioq := { s.ioq with producer := none } } w

/-! ### The calls -/

/-- The top of the loop of `pipe_read`. -/
def readLoop (size : Nat) (buffer : List UInt8) : Pc :=
  if buffer.length < size then .getchar size buffer else .user (some (.bytes buffer))

/-- The top of the loop of `pipe_write`. -/
def writeLoop (data : List UInt8) (bytesWrite : Nat) : Pc :=
  if bytesWrite < data.length then .writeLength false .start data bytesWrite
  else .user (some (.written bytesWrite))

/-- The section of `ioq_getchar` under the lock, by the task `t`. -/
def ioqGetchar (size : Nat) (buffer : List UInt8) : Pipe :=
  if ioqEmpty s.ioq then
    Pipe.block { s with ioq := { s.ioq with consumer := some t } } t
  else
    let byte := s.ioq.buf s.ioq.tail
    let s := { s with
      ioq := { s.ioq with tail := nextPos s.ioq.tail }
      taken := s.taken ++ [(t, byte)] }
    (wakeupProducer s).goto t (readLoop size (buffer ++ [byte]))

/-- The section of `ioq_putchar` under the lock, by the task `t`. -/
def ioqPutchar (data : List UInt8) (bytesWrite : Nat) : Pipe :=
  if ioqFull s.ioq then
    Pipe.block { s with ioq := { s.ioq with producer := some t } } t
  else
    let byte := data.getD bytesWrite 0
    let s := { s with
      ioq := { s.ioq with
        buf := Function.update s.ioq.buf s.ioq.head byte
        head := nextPos s.ioq.head }
      stored := s.stored ++ [(t, byte)] }
    (wakeupConsumer s).goto t (writeLoop data (bytesWrite + 1))

def pipeRead (fd : PipeEnd) (count : Nat) : Pipe :=
  match fd with
  | .read => s.goto t (.readLength .start count)
  | .write => s.goto t (.user (some .error))

def pipeWrite (fd : PipeEnd) (data : List UInt8) : Pipe :=
  match fd with
  | .read => s.goto t (.user (some .error))
  | .write => s.goto t (writeLoop data 0)

/-- The next step of a call; `alive` is what `pipe_end_alive` finds. -/
def advance (alive : Bool) : Option Pipe :=
  match s.pc t with
  | .user _ => none
  | .readLength at' count =>
    match lengthStep s.ioq at' with
    | .inl at' => some (s.goto t (.readLength at' count))
    | .inr ioqLen => some (s.goto t (readLoop (if ioqLen > count then count else ioqLen) []))
  | .getchar size buffer => some (ioqGetchar s t size buffer)
  | .writeLength cli at' data n =>
    match lengthStep s.ioq at' with
    | .inl at' => some (s.goto t (.writeLength cli at' data n))
    | .inr ioqLen =>
      if ioqLen ≥ bufsize - 1 then
        -- `asm_sti` and the next round, or a look at the readers
        some (s.goto t (if cli then writeLoop data n else .peer data n))
      else some (s.goto t (if cli then .putchar data n else .writeLength true .start data n))
  | .peer data n =>
    if alive then some (s.goto t (writeLoop data n))
    else some (s.goto t (.user (some (if n = 0 then .error else .written n))))
  | .putchar data n => some (ioqPutchar s t data n)

inductive Event where
  | read (t : Task) (fd : PipeEnd) (count : Nat)
  | write (t : Task) (fd : PipeEnd) (data : List UInt8)
  | advance (t : Task) (alive : Bool)
  /-- another part of the kernel calls `thread_ready` -/
  | ready (t : Task)
  deriving DecidableEq, Repr

def Pc.inUser : Pc → Bool
  | .user _ => true
  | _ => false

def step : Event → Option Pipe
  | .read t fd count => if (s.pc t).inUser then some (pipeRead s t fd count) else none
  | .write t fd data => if (s.pc t).inUser then some (pipeWrite s t fd data) else none
  | .advance t alive => if s.blocked t then none else advance s t alive
  | .ready t => some (s.unblock t)

end CoreZ.Shell
