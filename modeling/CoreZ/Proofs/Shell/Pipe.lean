import CoreZ.Lib.Ring
import CoreZ.Shell.Pipe

/-!
# `CoreZ.Proofs.Shell.Pipe`: a pipe is a queue of bytes

The bytes that were put into the queue are those that were taken out of
it, in the same order, followed by what the ring holds (`Queued.queue`).
The ring holds at most `BUFSIZE - 1` bytes, since `ioq_putchar` tests
`ioq_full` under the lock: the lengths that `pipe_read` and `pipe_write`
compute without it can be wrong when another task comes between two loads,
and nothing depends on them.

`Fifo.calls` ties the record to the calls: the buffer of a running or
returned `pipe_read` is what its task took last, and the bytes that a
`pipe_write` counts as written are what its task stored last.

Each side of the queue remembers one waiter. A second task that blocks there
takes the place of the first, which no byte then wakes (`stuck_two_readers`).
Where no two tasks block on one side, nobody is stuck (`run_not_stuck`).
-/

set_option autoImplicit false

namespace CoreZ.Proofs.Shell

open CoreZ.Lib
open CoreZ.Shell
open Function
open List

/-- The bytes in the ring, oldest first. -/
def contents (q : TtyIoqueue) : List UInt8 := ringList q.buf bufsize q.tail (ioqLength q)

/-- The bytes of a record. -/
def bytes (record : List (Task × UInt8)) : List UInt8 := record.map Prod.snd

/-- The bytes of one task in a record. -/
def bytesOf (t : Task) (record : List (Task × UInt8)) : List UInt8 :=
  bytes (record.filter fun x => x.1 = t)

/-- What the local variables of a call say about the record. -/
def CallHolds (stored taken : List (Task × UInt8)) (t : Task) : Pc → Prop
  | .getchar _ buffer | .user (some (.bytes buffer)) => buffer <:+ bytesOf t taken
  | .writeLength _ _ data n | .peer data n | .putchar data n =>
    n < data.length ∧ data.take n <:+ bytesOf t stored
  | _ => True

/-- The ring is well formed, and every byte is accounted for. -/
structure Queued (s : Pipe) : Prop where
  head : s.ioq.head < bufsize
  tail : s.ioq.tail < bufsize
  queue : bytes s.stored = bytes s.taken ++ contents s.ioq

structure Fifo (s : Pipe) : Prop extends Queued s where
  calls : ∀ t, CallHolds s.stored s.taken t (s.pc t)

/-! ### The ring -/

section Ring

variable {q : TtyIoqueue}

/-- The queue is never quite full: one place stays free. -/
theorem ioqLength_lt (hh : q.head < bufsize) : ioqLength q < bufsize := by
  rw [ioqLength]
  split <;> omega

/-- The head is where the contents end. -/
theorem tail_add_length (hh : q.head < bufsize) (ht : q.tail < bufsize) :
    (q.tail + ioqLength q) % bufsize = q.head := by
  rw [ioqLength]
  split
  · next hle =>
      rw [Nat.add_sub_of_le hle]
      exact Nat.mod_eq_of_lt hh
  -- the contents go around the end of the buffer
  have hsum : q.tail + (bufsize - (q.tail - q.head)) = q.head + bufsize := by omega
  rw [hsum, Nat.add_mod_right]
  exact Nat.mod_eq_of_lt hh

/-- The next position, with its wrap. -/
theorem nextPos_cases {p : Nat} (hp : p < bufsize) :
    nextPos p = p + 1 ∧ p + 1 < bufsize ∨ nextPos p = 0 ∧ p + 1 = bufsize := by
  rw [nextPos]
  by_cases hlast : p + 1 = bufsize
  · right
    rw [hlast, Nat.mod_self]
    exact ⟨rfl, rfl⟩
  · left
    have hlt : p + 1 < bufsize := by omega
    exact ⟨Nat.mod_eq_of_lt hlt, hlt⟩

/-- The next position is in the buffer. -/
theorem nextPos_lt {p : Nat} (hp : p < bufsize) : nextPos p < bufsize := by
  rcases nextPos_cases hp with ⟨heq, hlt⟩ | ⟨heq, hlt⟩ <;> omega

section

variable (hh : q.head < bufsize)

include hh

section

variable (ht : q.tail < bufsize)

include ht

/-- A ring that is not full has one byte more behind `ioq_putchar`. -/
theorem ioqLength_put (hfull : ioqFull q = false) (buf : Nat → UInt8) :
    ioqLength { q with buf := buf, head := nextPos q.head } = ioqLength q + 1 := by
  have hne : nextPos q.head ≠ q.tail := by simpa [ioqFull] using hfull
  simp only [ioqLength]
  rcases nextPos_cases hh with ⟨heq, hlt⟩ | ⟨heq, hlt⟩
  · split <;> split <;> omega
  · split <;> split <;> omega

/-- A ring that is not empty has one byte less behind `ioq_getchar`. -/
theorem ioqLength_get (hempty : ioqEmpty q = false) :
    ioqLength q = ioqLength { q with tail := nextPos q.tail } + 1 := by
  have hne : q.head ≠ q.tail := by simpa [ioqEmpty] using hempty
  simp only [ioqLength]
  rcases nextPos_cases ht with ⟨heq, hlt⟩ | ⟨heq, hlt⟩
  · split <;> split <;> omega
  · split <;> split <;> omega

/-- `ioq_putchar` appends. -/
theorem contents_put (hfull : ioqFull q = false) (byte : UInt8) :
    contents { q with buf := update q.buf q.head byte, head := nextPos q.head }
      = contents q ++ [byte] := by
  have hroom := ioqLength_put hh ht hfull (update q.buf q.head byte)
  have hend := tail_add_length hh ht
  rw [contents, hroom]
  show ringList (update q.buf q.head byte) bufsize q.tail (ioqLength q + 1) = _
  rw [ringList_succ, ← hend, update_self, ringList_update (ioqLength_lt hh)]
  rfl

/-- `ioq_getchar` takes the first byte. -/
theorem contents_get (hempty : ioqEmpty q = false) :
    contents q = q.buf q.tail :: contents { q with tail := nextPos q.tail } := by
  have hlen := ioqLength_get hh ht hempty
  have hrest : contents { q with tail := nextPos q.tail } = (contents q).drop 1 := by
    rw [contents, contents, ringList_drop, hlen, Nat.add_sub_cancel, ← ringList_mod _ _ (_ + 1)]
    rfl
  rw [hrest, contents, hlen, ringList, range_succ_eq_map, map_cons, drop_one,
    tail_cons, Nat.add_zero, Nat.mod_eq_of_lt ht]

end

end

end Ring

/-! ### Records -/

/-- A byte is added to the record. -/
theorem bytes_append (record : List (Task × UInt8)) (t : Task) (byte : UInt8) :
    bytes (record ++ [(t, byte)]) = bytes record ++ [byte] := by
  simp [bytes]

/-- The byte is one of the task. -/
theorem bytesOf_append_self (record : List (Task × UInt8)) (t : Task) (byte : UInt8) :
    bytesOf t (record ++ [(t, byte)]) = bytesOf t record ++ [byte] := by
  simp [bytesOf, bytes]

variable {stored taken : List (Task × UInt8)} {pc : Pc} {t : Task}

/-- The byte is another task's. -/
theorem bytesOf_append_of_ne {record : List (Task × UInt8)} {u : Task} (h : u ≠ t) {byte : UInt8} :
    bytesOf t (record ++ [(u, byte)]) = bytesOf t record := by
  simp [bytesOf, bytes, h]

/-- The record of other tasks says nothing about a call. -/
theorem CallHolds.congr {stored' taken' : List (Task × UInt8)} (h : CallHolds stored taken t pc)
    (hs : bytesOf t stored' = bytesOf t stored) (ht : bytesOf t taken' = bytesOf t taken) :
    CallHolds stored' taken' t pc := by
  unfold CallHolds at h ⊢
  rw [hs, ht]
  exact h

variable {buffer data : List UInt8} {n : Nat}

/-- Where `pipe_read` goes on, with the bytes it has so far. -/
theorem callHolds_readLoop {size : Nat} (h : buffer <:+ bytesOf t taken) :
    CallHolds stored taken t (readLoop size buffer) := by
  rw [readLoop]
  split <;> exact h

/-- Where `pipe_write` goes on, with the bytes it has stored. -/
theorem callHolds_writeLoop (h : data.take n <:+ bytesOf t stored) :
    CallHolds stored taken t (writeLoop data n) := by
  rw [writeLoop]
  split
  · next hlt => exact ⟨hlt, h⟩
  · trivial

/-! ### One step -/

/-- Nothing changes but who is blocked and who waits. -/
structure SameBytes (s s' : Pipe) : Prop where
  buf : s'.ioq.buf = s.ioq.buf
  head : s'.ioq.head = s.ioq.head
  tail : s'.ioq.tail = s.ioq.tail
  pc : s'.pc = s.pc
  stored : s'.stored = s.stored
  taken : s'.taken = s.taken

/-- Waking moves no byte. -/
theorem sameBytes_wakeupConsumer (s : Pipe) : SameBytes s (wakeupConsumer s) := by
  rw [wakeupConsumer]
  split <;> exact ⟨rfl, rfl, rfl, rfl, rfl, rfl⟩

theorem sameBytes_wakeupProducer (s : Pipe) : SameBytes s (wakeupProducer s) := by
  rw [wakeupProducer]
  split <;> exact ⟨rfl, rfl, rfl, rfl, rfl, rfl⟩

section Steps

variable {s s' : Pipe}

/-- What is queued depends on the buffer and the records. -/
theorem Queued.congr (h : Queued s) (hs : SameBytes s s') : Queued s' := by
  have hlen : ioqLength s'.ioq = ioqLength s.ioq := by rw [ioqLength, hs.head, hs.tail, ioqLength]
  have hcont : contents s'.ioq = contents s.ioq := by
    rw [contents, hs.buf, hs.tail, hlen, contents]
  refine ⟨hs.head ▸ h.head, hs.tail ▸ h.tail, ?_⟩
  rw [hs.stored, hs.taken, hcont]
  exact h.queue

theorem Fifo.congr (h : Fifo s) (hs : SameBytes s s') : Fifo s' := by
  refine ⟨h.toQueued.congr hs, ?_⟩
  rw [hs.stored, hs.taken, hs.pc]
  exact h.calls

/-- A task goes on in its call, and the other calls are as they should be. -/
theorem Queued.goto (h : Queued s) (t : Task)
    (hothers : ∀ u, u ≠ t → CallHolds s.stored s.taken u (s.pc u))
    (hpc : CallHolds s.stored s.taken t pc) : Fifo (s.goto t pc) := by
  refine ⟨⟨h.head, h.tail, h.queue⟩, ?_⟩
  intro u
  show CallHolds s.stored s.taken u (update s.pc t pc u)
  by_cases hu : u = t
  · rw [hu, update_self]
    exact hpc
  · rw [update_of_ne hu]
    exact hothers u hu

/-- A task goes on, with what its variables say at the new place. -/
theorem Fifo.goto (h : Fifo s) (t : Task) (hpc : CallHolds s.stored s.taken t pc) :
    Fifo (s.goto t pc) := h.toQueued.goto t (fun u _ => h.calls u) hpc

/-- The oldest byte goes to the reader. -/
theorem Fifo.ioqGetchar (h : Fifo s) (t : Task) {size : Nat} (hpc : s.pc t = .getchar size buffer) :
    Fifo (ioqGetchar s t size buffer) := by
  have hcall := h.calls t
  rw [hpc] at hcall
  rw [CoreZ.Shell.ioqGetchar]
  split
  · exact h.congr ⟨rfl, rfl, rfl, rfl, rfl, rfl⟩
  next hempty =>
    rw [Bool.not_eq_true] at hempty
    generalize hbyte : s.ioq.buf s.ioq.tail = byte
    -- the byte moves from the ring to the record
    have hq : Queued { s with
        ioq := { s.ioq with tail := nextPos s.ioq.tail }
        taken := s.taken ++ [(t, byte)] } := by
      refine ⟨h.head, nextPos_lt h.tail, ?_⟩
      rw [h.queue, bytes_append, contents_get h.head h.tail hempty, hbyte, append_assoc]
      rfl
    have hw := sameBytes_wakeupProducer { s with
        ioq := { s.ioq with tail := nextPos s.ioq.tail }
        taken := s.taken ++ [(t, byte)] }
    refine (hq.congr hw).goto t ?_ ?_
    · intro u hu
      rw [hw.stored, hw.taken, hw.pc]
      exact (h.calls u).congr rfl (bytesOf_append_of_ne (Ne.symm hu))
    · rw [hw.stored, hw.taken]
      refine callHolds_readLoop ?_
      rw [bytesOf_append_self]
      exact suffix_append_self_iff.mpr hcall

/-- A byte of the writer becomes the newest. -/
theorem Fifo.ioqPutchar (h : Fifo s) (t : Task) (hpc : s.pc t = .putchar data n) :
    Fifo (ioqPutchar s t data n) := by
  have hcall := h.calls t
  rw [hpc] at hcall
  obtain ⟨hn, hdata⟩ := hcall
  rw [CoreZ.Shell.ioqPutchar]
  split
  · exact h.congr ⟨rfl, rfl, rfl, rfl, rfl, rfl⟩
  next hfull =>
    rw [Bool.not_eq_true] at hfull
    generalize hbyte : data.getD n 0 = byte
    have hq : Queued { s with
        ioq := { s.ioq with
          buf := update s.ioq.buf s.ioq.head byte
          head := nextPos s.ioq.head }
        stored := s.stored ++ [(t, byte)] } := by
      refine ⟨nextPos_lt h.head, h.tail, ?_⟩
      rw [bytes_append, h.queue, contents_put h.head h.tail hfull, append_assoc]
    have hw := sameBytes_wakeupConsumer { s with
        ioq := { s.ioq with
          buf := update s.ioq.buf s.ioq.head byte
          head := nextPos s.ioq.head }
        stored := s.stored ++ [(t, byte)] }
    refine (hq.congr hw).goto t ?_ ?_
    · intro u hu
      rw [hw.stored, hw.taken, hw.pc]
      exact (h.calls u).congr (bytesOf_append_of_ne (Ne.symm hu)) rfl
    · rw [hw.stored, hw.taken]
      refine callHolds_writeLoop ?_
      -- the byte is the next one of the caller's buffer
      rw [bytesOf_append_self, take_add_one, ← hbyte, getD_eq_getElem?_getD,
        getElem?_eq_getElem hn]
      exact suffix_append_self_iff.mpr hdata

/-- Every section of a call keeps the order of the bytes. -/
theorem Fifo.advance (h : Fifo s) {alive : Bool} (hstep : advance s t alive = some s') :
    Fifo s' := by
  have hcall := h.calls t
  rw [CoreZ.Shell.advance] at hstep
  cases hpc : s.pc t with
  | user returned =>
    rw [hpc] at hstep
    cases hstep
  | readLength at' count =>
    rw [hpc] at hstep
    simp only at hstep
    split at hstep
    · cases hstep
      exact h.goto t trivial
    · cases hstep
      exact h.goto t (callHolds_readLoop (nil_suffix))
  | getchar size buffer =>
    rw [hpc] at hstep
    cases hstep
    exact h.ioqGetchar t hpc
  | writeLength cli at' data n =>
    rw [hpc] at hstep hcall
    simp only at hstep
    split at hstep
    · cases hstep
      exact h.goto t hcall
    split at hstep
    · cases hstep
      refine h.goto t ?_
      split
      · exact callHolds_writeLoop hcall.2
      · exact hcall
    · cases hstep
      refine h.goto t ?_
      split <;> exact hcall
  | peer data n =>
    rw [hpc] at hstep hcall
    simp only at hstep
    split at hstep
    · cases hstep
      exact h.goto t (callHolds_writeLoop hcall.2)
    · cases hstep
      refine h.goto t ?_
      split <;> trivial
  | putchar data n =>
    rw [hpc] at hstep
    cases hstep
    exact h.ioqPutchar t hpc

/-- Every event does. -/
theorem Fifo.step (h : Fifo s) {e : Event} (hstep : step s e = some s') : Fifo s' := by
  cases e with
  | read t fd count =>
    rw [CoreZ.Shell.step] at hstep
    split at hstep
    · cases hstep
      cases fd with
      | read => exact h.goto t trivial
      | write => exact h.goto t trivial
    · cases hstep
  | write t fd data =>
    rw [CoreZ.Shell.step] at hstep
    split at hstep
    · cases hstep
      cases fd with
      | read => exact h.goto t trivial
      | write => exact h.goto t (callHolds_writeLoop (nil_suffix))
    · cases hstep
  | advance t alive =>
    rw [CoreZ.Shell.step] at hstep
    split at hstep
    · cases hstep
    · exact h.advance hstep
  | ready t =>
    cases hstep
    exact h.congr ⟨rfl, rfl, rfl, rfl, rfl, rfl⟩

end Steps

/-! ### Runs -/

/-- A new pipe has stored and taken nothing. -/
theorem fifo_created (buf : Nat → UInt8) : Fifo (created buf) := by
  have hpos : 0 < bufsize := by decide
  exact ⟨⟨hpos, hpos, rfl⟩, fun _ => trivial⟩

/-- In every run of any readers and writers, the bytes that were read are
a prefix of those that were written, the rest is in the ring in order, and
the ring is never longer than `BUFSIZE - 1`. The buffer of a read holds
what its task took, and a write stores its data in order. -/
theorem run_fifo (buf : Nat → UInt8) (es : List Event) (s : Pipe)
    (hrun : run step (created buf) es = some s) :
    bytes s.taken <+: bytes s.stored ∧
      bytes s.stored = bytes s.taken ++ contents s.ioq ∧
      (contents s.ioq).length = ioqLength s.ioq ∧ ioqLength s.ioq ≤ bufsize - 1 ∧
      ∀ t, CallHolds s.stored s.taken t (s.pc t) := by
  have h : Fifo s := run_invariant (fun s e s' h hstep => h.step hstep) (fifo_created buf) hrun
  have hlen := ioqLength_lt h.head
  refine ⟨?_, h.queue, length_ringList _, by omega, h.calls⟩
  rw [h.queue]
  exact List.prefix_append _ _

/-- Two readers have seen one byte in the queue. One of them takes it, the
other blocks until the writer stores its second byte. -/
def twoReaders : List Event :=
  .write 1 .write [7, 8] :: List.replicate 9 (.advance 1 true) ++
    .read 2 .read 4 :: List.replicate 4 (.advance 2 true) ++
    .read 3 .read 4 :: List.replicate 4 (.advance 3 true) ++
    [.advance 2 true, .advance 3 true] ++ List.replicate 9 (.advance 1 true) ++ [.advance 3 true]

/-- Two readers get one byte of a writer each. -/
theorem run_fifo_twoReaders :
    ∃ s, run step (created fun _ => 0) twoReaders = some s ∧
      s.pc 2 = .user (some (.bytes [7])) ∧ s.pc 3 = .user (some (.bytes [8])) ∧
      bytes s.taken <+: bytes s.stored := by
  refine exists_of_any (P := fun s => s.pc 2 = .user (some (.bytes [7])) ∧
    s.pc 3 = .user (some (.bytes [8]))) (by decide +kernel) fun s hs hpc => ?_
  exact ⟨hpc.1, hpc.2, (run_fifo _ _ s hs).1⟩

/-! ### Waiters -/

/-- The calls on the pipe, and the queue's own callers. -/
inductive QueueEvent where
  | pipe (e : Event)
  | getchar (t : Task)
  | putchar (t : Task) (byte : UInt8)

def queueStep (s : Pipe) : QueueEvent → Option Pipe
  | .pipe e => step s e
  | .getchar t => if (s.pc t).inUser then some (s.goto t (.getchar 1 [])) else none
  | .putchar t byte => if (s.pc t).inUser then some (s.goto t (.putchar [byte] 0)) else none

/-- The side of the queue on which a task can block. -/
def side : Pc → Option PipeEnd
  | .getchar _ _ => some .read
  | .putchar _ _ => some .write
  | _ => none

/-- The one task that the queue remembers for a side. -/
def waiter (q : TtyIoqueue) : PipeEnd → Option Task
  | .read => q.consumer
  | .write => q.producer

/-- A task on this side has to wait. -/
def mustWait (q : TtyIoqueue) : PipeEnd → Bool
  | .read => ioqEmpty q
  | .write => ioqFull q

/-- No task runs on the queue, and one is blocked that could go on. -/
def Stuck (s : Pipe) : Prop :=
  (∀ t, (s.pc t).inUser ∨ s.blocked t) ∧
    ∃ t e, s.blocked t ∧ side (s.pc t) = some e ∧ ¬ mustWait s.ioq e

/-- The task of the step does not block on a side where another one is blocked. -/
def Alone (s : Pipe) : QueueEvent → Prop
  | .pipe (.advance t _) => ∀ e, side (s.pc t) = some e → mustWait s.ioq e →
      ∀ u, side (s.pc u) = some e → ¬ s.blocked u
  | _ => True

/-- Who is blocked has to wait, and is the one that is remembered. -/
def Served (s : Pipe) : Prop :=
  ∀ t, s.blocked t → ∃ e, side (s.pc t) = some e ∧ waiter s.ioq e = some t ∧ mustWait s.ioq e

section Waiters

variable {s s' : Pipe} {e : PipeEnd}

/-- A task whose side must wait has nothing to go on with. -/
theorem Served.not_stuck (h : Served s) : ¬ Stuck s := by
  rintro ⟨-, t, e, ht, he, hgo⟩
  obtain ⟨e', he', -, hwait⟩ := h t ht
  cases he.symm.trans he'
  exact hgo hwait

/-- A task that is not blocked goes on. -/
theorem Served.goto (h : Served s) (ht : ¬ s.blocked t) (pc : Pc) : Served (s.goto t pc) := by
  intro u hu
  have hne : u ≠ t := by
    rintro rfl
    exact ht hu
  obtain ⟨e, he, hrest⟩ := h u hu
  exact ⟨e, (congrArg side (update_of_ne hne ..)).trans he, hrest⟩

/-- Who is blocked after a task was woken. -/
theorem blocked_of_unblock {w u : Task} (hu : (s.unblock w).blocked u) : s.blocked u ∧ w ≠ u := by
  by_cases hne : u = w
  · subst hne
    cases (update_self ..).symm.trans hu
  · exact ⟨(update_of_ne hne ..).symm.trans hu, Ne.symm hne⟩

/-- The reader that the queue names is awake afterwards. -/
theorem blocked_of_wakeupConsumer {u : Task} (hu : (wakeupConsumer s).blocked u) :
    s.blocked u ∧ s.ioq.consumer ≠ some u := by
  rw [wakeupConsumer] at hu
  split at hu
  · next hnone => exact ⟨hu, by simp [hnone]⟩
  · next w hw => exact (blocked_of_unblock hu).imp_right fun hne => by simpa [hw] using hne

/-- The writer that the queue names is awake afterwards. -/
theorem blocked_of_wakeupProducer {u : Task} (hu : (wakeupProducer s).blocked u) :
    s.blocked u ∧ s.ioq.producer ≠ some u := by
  rw [wakeupProducer] at hu
  split at hu
  · next hnone => exact ⟨hu, by simp [hnone]⟩
  · next w hw => exact (blocked_of_unblock hu).imp_right fun hne => by simpa [hw] using hne

/-- A task blocks where no other one is blocked. -/
theorem Served.block (h : Served s) {q : TtyIoqueue} (he : side (s.pc t) = some e)
    (hwait : mustWait s.ioq e) (hq : waiter q = update (waiter s.ioq) e (some t))
    (hsame : mustWait q = mustWait s.ioq) (halone : ∀ u, side (s.pc u) = some e → ¬ s.blocked u) :
    Served (Pipe.block { s with ioq := q } t) := by
  intro u hu
  show ∃ e, side (s.pc u) = some e ∧ waiter q e = some u ∧ mustWait q e
  rw [hq, hsame]
  by_cases hne : u = t
  · exact ⟨e, hne ▸ he, hne ▸ update_self .., hwait⟩
  have hbu := (update_of_ne hne ..).symm.trans hu
  obtain ⟨e', he', hw, hwait'⟩ := h u hbu
  have hside : e' ≠ e := by
    rintro rfl
    exact halone u he' hbu
  exact ⟨e', he', (update_of_ne hside ..).trans hw, hwait'⟩

/-- A byte goes through: nobody waits on the side of the task, and who waits on the
other one is woken, so nobody is blocked. -/
theorem Served.pass (h : Served s) (hgo : ¬ mustWait s.ioq e)
    (hwoken : ∀ u, s'.blocked u → s.blocked u ∧ ∀ e', e' ≠ e → waiter s.ioq e' ≠ some u) :
    Served s' := by
  intro u hu
  obtain ⟨hbu, hother⟩ := hwoken u hu
  obtain ⟨e', -, hw, hwait⟩ := h u hbu
  refine absurd hw (hother e' ?_)
  rintro rfl
  exact hgo hwait

/-- A reader blocks, or takes a byte and wakes the writer. -/
theorem Served.ioqGetchar {size : Nat} (h : Served s) (hpc : s.pc t = .getchar size buffer)
    (halone : ioqEmpty s.ioq → ∀ u, side (s.pc u) = some .read → ¬ s.blocked u) :
    Served (ioqGetchar s t size buffer) := by
  rw [CoreZ.Shell.ioqGetchar]
  split
  · next hempty =>
    refine h.block (congrArg side hpc) hempty ?_ rfl (halone hempty)
    funext e
    cases e <;> rfl
  · next hempty =>
    refine h.pass (e := .read) hempty fun u hu => ?_
    obtain ⟨hbu, hother⟩ := blocked_of_wakeupProducer hu
    refine ⟨hbu, fun e he => ?_⟩
    cases e with
    | read => exact absurd rfl he
    | write => exact hother

/-- A writer blocks, or stores a byte and wakes the reader. -/
theorem Served.ioqPutchar (h : Served s) (hpc : s.pc t = .putchar data n)
    (halone : ioqFull s.ioq → ∀ u, side (s.pc u) = some .write → ¬ s.blocked u) :
    Served (ioqPutchar s t data n) := by
  rw [CoreZ.Shell.ioqPutchar]
  split
  · next hfull =>
    refine h.block (congrArg side hpc) hfull ?_ rfl (halone hfull)
    funext e
    cases e <;> rfl
  · next hfull =>
    refine h.pass (e := .write) hfull fun u hu => ?_
    obtain ⟨hbu, hother⟩ := blocked_of_wakeupConsumer hu
    refine ⟨hbu, fun e he => ?_⟩
    cases e with
    | read => exact hother
    | write => exact absurd rfl he

/-- A section of a call, on a side where nobody else is blocked. -/
theorem Served.advance (h : Served s) {alive : Bool} (ht : ¬ s.blocked t)
    (halone : Alone s (.pipe (.advance t alive))) (hstep : advance s t alive = some s') :
    Served s' := by
  rw [CoreZ.Shell.advance] at hstep
  cases hpc : s.pc t with
  | getchar size buffer =>
    rw [hpc] at hstep
    cases hstep
    exact h.ioqGetchar hpc (halone .read (congrArg side hpc))
  | putchar data n =>
    rw [hpc] at hstep
    cases hstep
    exact h.ioqPutchar hpc (halone .write (congrArg side hpc))
  | user returned =>
    rw [hpc] at hstep
    cases hstep
  | readLength | writeLength | peer =>
    rw [hpc] at hstep
    simp only at hstep
    repeat' split at hstep
    all_goals
      cases hstep
      exact h.goto ht _

/-- Every event does, pipes and terminals alike. -/
theorem Served.queueStep (h : Served s) {e : QueueEvent} (halone : Alone s e)
    (hstep : queueStep s e = some s') : Served s' := by
  -- a call begins: the task is not blocked
  have hcall : ∀ {t pc}, (if (s.pc t).inUser then some (s.goto t pc) else none) = some s' →
      Served s' := by
    intro t pc hgo
    obtain ⟨hin, hs⟩ := Option.ite_none_right_eq_some.mp hgo
    cases hs
    refine h.goto (fun hb => ?_) pc
    obtain ⟨e, he, -⟩ := h t hb
    cases hpc : s.pc t <;> rw [hpc] at hin he <;> cases he <;> cases hin
  cases e with
  | getchar t => exact hcall hstep
  | putchar t byte => exact hcall hstep
  | pipe e =>
    cases e with
    | read t fd count => cases fd <;> exact hcall hstep
    | write t fd data => cases fd <;> exact hcall hstep
    | ready t =>
      cases hstep
      exact fun u hu => h u (blocked_of_unblock hu).1
    | advance t alive =>
      obtain ⟨ht, hstep⟩ := Option.ite_none_left_eq_some.mp hstep
      exact h.advance ht halone hstep

end Waiters

/-- As long as no task blocks on a side of the queue where another one is blocked, no
run leaves a task blocked that could go on. -/
theorem run_not_stuck (buf : Nat → UInt8) (es : List QueueEvent) (s : Pipe)
    (halone : Along queueStep Alone (created buf) es)
    (hrun : run queueStep (created buf) es = some s) : ¬ Stuck s := by
  have h : Served s := run_invariant_of_along (fun s e s' h ha hstep => h.queueStep ha hstep) es _ s
    (fun t ht => absurd ht Bool.false_ne_true) halone hrun
  exact h.not_stuck

/-- A reader blocks on the empty queue, and a writer wakes it. -/
theorem run_not_stuck_oneReader :
    ∃ s, run queueStep (created fun _ => 0)
        [.getchar 1, .pipe (.advance 1 true), .putchar 2 7, .pipe (.advance 2 true)] = some s ∧
      s.blocked 1 = false ∧ ¬ Stuck s := by
  refine ⟨_, rfl, rfl, run_not_stuck (fun _ => 0)
    [.getchar 1, .pipe (.advance 1 true), .putchar 2 7, .pipe (.advance 2 true)] _ ?_ rfl⟩
  refine .cons trivial rfl (.cons (fun e _ _ u _ => Bool.false_ne_true) rfl
    (.cons trivial rfl (.cons ?_ rfl trivial)))
  intro e he hwait
  cases he
  cases hwait

/-- Two readers block on the empty queue, and the second takes the slot of the first.
Two bytes wake the second one only, and it takes one of them. -/
theorem stuck_two_readers : ∃ es s, run queueStep (created fun _ => 0) es = some s ∧ Stuck s := by
  refine ⟨[.getchar 1, .pipe (.advance 1 true), .getchar 2, .pipe (.advance 2 true),
    .putchar 3 7, .pipe (.advance 3 true), .putchar 3 8, .pipe (.advance 3 true),
    .pipe (.advance 2 true)], _, rfl, fun t => ?_, 1, .read, rfl, rfl, Bool.false_ne_true⟩
  obtain rfl | ht := eq_or_ne t 1
  · exact .inr rfl
  left
  obtain _ | _ | _ | _ | t := t
  · rfl
  · exact absurd rfl ht
  all_goals rfl

end CoreZ.Proofs.Shell
