import CoreZ.Lib.Run
import CoreZ.Syscall.UnixSocket

/-!
# `CoreZ.Proofs.Syscall.UnixSocket`: the two ends of a pair

`lc_socketpair` calls `unix_alloc_slot` twice and takes no slot between the
calls, so both ends are one socket, its own peer. The law of a pair
(`PairLaw`) holds only where the call fails (`pairLaw_iff`).
-/

set_option autoImplicit false

namespace CoreZ.Proofs.Syscall.UnixSocket

open CoreZ.Lib
open CoreZ.Syscall.UnixSocket
open Function

/-- A send that sleeps, to the slot `peer`, and whether it is one of the pair. -/
structure Sleeper where
  idx : Slot
  peer : Slot
  src : List UInt8
  ofPair : Bool
  deriving DecidableEq

/-- The table since a pair was made: which slots are its ends, and what each
end has accepted and delivered. -/
structure Pair where
  table : Table
  ends : Slot → Bool
  sent : Slot → List UInt8
  got : Slot → List UInt8
  asleep : List Sleeper

inductive Op where
  | send (idx : Slot) (src : List UInt8)
  | wake (c : Sleeper)
  | recv (idx : Slot) (len : Nat)
  | close (idx : Slot)
  | socket
  | socketpair (b : Nat)

/-- A send has returned. -/
def Pair.accept (w : Pair) (c : Sleeper) (r : Table × Int) : Pair :=
  { w with
    table := r.1
    sent := if c.ofPair then update w.sent c.idx (w.sent c.idx ++ c.src.take r.2.toNat) else w.sent
    asleep := w.asleep.erase c }

def step (w : Pair) : Op → Option Pair
  | .send i src =>
    let c : Sleeper := ⟨i, (w.table i).peer.getD 0, src, w.ends i⟩
    if (w.table i).active then
      some ((unixSend w.table i src).elim { w with asleep := c :: w.asleep } (w.accept c))
    else none
  | .wake c =>
    if c ∈ w.asleep then (unixSendTurn w.table c.idx c.peer c.src).map (w.accept c) else none
  | .recv i len =>
    if (w.table i).active then (unixRecv w.table i len).map fun r => { w with
      table := r.1
      got := if w.ends i then update w.got i (w.got i ++ r.2.toOption.getD []) else w.got }
    else none
  | .close i =>
    if (w.table i).active then
      some { w with table := unixCloseSlot w.table i, ends := update w.ends i false }
    else none
  | .socket => (lcSocket w.table).toOption.map fun r => { w with table := r.2 }
  | .socketpair b => (lcSocketpair w.table 1 b true).toOption.map fun r => { w with table := r.2.2 }

/-- What `j` has delivered and still holds is what `i` has accepted. Behind it
comes the end of the stream, once `i` is closed. -/
def Flows (i j : Slot) (w : Pair) : Prop :=
  w.ends j = true →
    w.got j ++ ringList (w.table j).buf unixBufSize (w.table j).head (w.table j).count = w.sent i ∧
      (w.ends i = false → (w.table j).count = 0 →
        ∀ len, unixRecv w.table j len = some (w.table, .ok []))

/-- Two descriptors, and the law for every later run. -/
def PairLaw (u : Table) (a b : Nat) (ok : Bool) : Prop :=
  ∀ i j u', lcSocketpair u a b ok = .ok (i, j, u') → i ≠ j ∧
    ∀ ops w, run step ⟨u', fun k => k = i ∨ k = j, fun _ => [], fun _ => [], []⟩ ops = some w →
      Flows i j w ∧ Flows j i w

theorem unixAllocSlot_eq_none {u : Table} : unixAllocSlot u = none ↔ ∀ i, (u i).active = true := by
  simp [unixAllocSlot]

/-- The law holds exactly where there is no pair: for other arguments, and in a
full table. -/
theorem pairLaw_iff (u : Table) (a b : Nat) (ok : Bool) :
    PairLaw u a b ok ↔ a ≠ 1 ∨ (b ≠ 1 ∧ b ≠ 2) ∨ ok = false ∨ ∀ i, (u i).active = true := by
  rw [← unixAllocSlot_eq_none]
  constructor
  · intro h
    by_contra hno
    rw [not_or, not_or, not_or] at hno
    obtain ⟨ha, hb, hok, hfree⟩ := hno
    obtain ⟨i, hi⟩ := Option.ne_none_iff_exists'.mp hfree
    -- both calls of `unix_alloc_slot` find the same slot
    obtain ⟨u', hpair⟩ : ∃ u', lcSocketpair u a b ok = .ok (i, i, u') := by
      rw [lcSocketpair, if_neg ha, if_neg hb, if_neg hok, hi]
      exact ⟨_, rfl⟩
    exact (h i i u' hpair).1 rfl
  · intro hno i j u' h
    rw [lcSocketpair] at h
    split_ifs at h with ha hb hok
    rw [((hno.resolve_left ha).resolve_left hb).resolve_left hok] at h
    cases h

theorem not_pairLaw_empty : ¬ PairLaw (fun _ => {}) 1 1 true := fun h => (h 0 0 _ rfl).1 rfl

end CoreZ.Proofs.Syscall.UnixSocket
