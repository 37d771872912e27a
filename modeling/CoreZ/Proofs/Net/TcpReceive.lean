import CoreZ.Lib.Run
import CoreZ.Net.Tcp

/-!
# `CoreZ.Proofs.Net.TcpReceive`: in-order delivery

The receiving half of one connection against the byte stream of its
peer. A `Conn` is the control block together with what happened so
far: the bytes `tcp_recv` handed out and the segments that arrived,
each with its offset in the peer's stream. `connStep` is one event of
the connection; every entry point of `tcp.c` is one.

`Received` is the invariant: what was delivered and what the ring
holds are the first `r` bytes of the stream, `rcv_nxt` stands behind
them (one further when the FIN was taken), and every one of these
bytes arrived in some segment. A step of the sending half does not
touch the fields it reads (`SameReceive`), so only the payload part of
`tcp_input_established` needs an argument.

The invariant is not kept by every arrival. A FIN without payload
passes both sequence checks of `tcp_input_established` whatever its
sequence number is, and moves `rcv_nxt`. `InSequence` is the condition
on an arrival that excludes this case, together with segments half the
sequence space away, which no receiver can tell from current ones. The
start matters too: `tcp_connect` can be called for a block that had a
connection before, and it keeps the bytes of the old peer in the receive
ring (`EmptyRing`).
-/

set_option autoImplicit false

namespace CoreZ.Proofs.Net

open CoreZ.Lib
open CoreZ.Net.Tcp
open List

/-- The sending side: its initial sequence number and its byte
stream. -/
structure Peer where
  isn : Nat
  stream : List UInt8

/-- A connection with its history: the bytes handed out by `tcp_recv`
and the arrived segments with their stream offsets. `synced` says that
the handshake has fixed the peer's sequence number. -/
structure Conn where
  pcb : Pcb
  delivered : List UInt8
  arrived : List (Nat × Segment)
  synced : Bool

/-- The connection takes one event. An arriving segment comes with the
offset of its payload in the peer's stream, which the code does not
see. -/
def connStep (c : Conn) (a : Nat × Event) : Option Conn :=
  (pcbStep c.pcb a.2).map fun o =>
    { pcb := o.pcb
      delivered := c.delivered ++ o.delivered
      arrived := c.arrived ++ a.2.segments.map (a.1, ·)
      synced := c.synced || a.2.segments.any fun _ =>
        decide (c.pcb.state = .synSent ∧ o.pcb.state ≠ .synSent) }

/-- The two ways a connection starts: an active open, of a control block
in whatever condition an earlier connection left it, and the child of a
listener for the SYN of the peer. -/
inductive Opened (P : Peer) : Conn → Prop
  | connect (now iss : Nat) (pcb : Pcb) :
      Opened P ⟨(tcpConnect now iss pcb).1, [], [], false⟩
  | accept (now iss : Nat) :
      Opened P ⟨(tcpAcceptChild now iss (P.isn % 4294967296)).1, [], [], true⟩

/-- The receive ring holds nothing. `tcp_connect` does not empty it. -/
def EmptyRing (pcb : Pcb) : Prop := pcb.rxHead < 65536 ∧ pcb.rxTail = pcb.rxHead
  deriving Decidable

/-- The segment is one of the peer: a SYN carries the initial sequence
number; any other payload is the stream at `pos`, numbered from there;
a FIN stands behind the last byte. A segment without payload and FIN
says nothing about the stream. -/
@[mk_iff]
structure FromPeer (P : Peer) (pos : Nat) (s : Segment) : Prop where
  syn : s.flags.syn = true → s.seq = P.isn % 4294967296
  seq : s.flags.syn = false → s.data ≠ [] ∨ s.flags.fin = true →
    s.seq = (P.isn + 1 + pos) % 4294967296
  data : s.flags.syn = false → s.data = (P.stream.drop pos).take s.data.length
  bound : s.flags.syn = false → s.data ≠ [] → pos + s.data.length ≤ P.stream.length
  fin : s.flags.syn = false → s.flags.fin = true → pos + s.data.length = P.stream.length

instance {P : Peer} {pos : Nat} {s : Segment} : Decidable (FromPeer P pos s) :=
  decidable_of_iff' _ (fromPeer_iff ..)

/-- Every arriving segment is one of the peer. Loss, duplication and
reordering are free: the events come in any order, any number of
times. -/
def SentByPeer (P : Peer) (_ : Conn) (a : Nat × Event) : Prop :=
  ∀ s ∈ a.2.segments, FromPeer P a.1 s

instance (P : Peer) (c : Conn) (a : Nat × Event) : Decidable (SentByPeer P c a) :=
  inferInstanceAs (Decidable (∀ s ∈ a.2.segments, _))

/-- The number of stream bytes the connection has taken so far. -/
def Conn.taken (c : Conn) : Nat := c.delivered.length + tcpRxLen c.pcb

/-- The condition on an arrival after the handshake: a FIN without
payload arrives exactly at `rcv_nxt`, and the segment lies within half
the sequence space of the bytes taken so far. -/
def InSequence (c : Conn) (a : Nat × Event) : Prop :=
  ∀ s ∈ a.2.segments, c.synced = true →
    (s.flags.fin = true → s.data = [] → s.seq = c.pcb.rcvNxt) ∧
    (s.data ≠ [] ∨ s.flags.fin = true →
      c.taken < a.1 + 2147483648 ∧ a.1 < c.taken + 2147483648)

instance (c : Conn) (a : Nat × Event) : Decidable (InSequence c a) :=
  inferInstanceAs (Decidable (∀ s ∈ a.2.segments, _))

/-- The bytes handed out are a prefix of the stream, and once the
handshake is done `rcv_nxt` stands behind `r` stream bytes, plus one
when the FIN was taken; all of these arrived. -/
def InOrder (P : Peer) (c : Conn) : Prop :=
  c.delivered <+: P.stream ∧
  (c.synced = true → ∃ r fin : Nat,
    c.pcb.rcvNxt = (P.isn + 1 + r + fin) % 4294967296 ∧
    c.delivered.length ≤ r ∧ r ≤ P.stream.length ∧ fin ≤ 1 ∧
    (∀ p, p < r → ∃ a ∈ c.arrived, a.1 ≤ p ∧ p < a.1 + a.2.data.length) ∧
    (fin = 1 → r = P.stream.length ∧ ∃ a ∈ c.arrived, a.2.flags.fin = true))

/-! ### The invariant -/

/-- What the receive fields of a control block say about the stream. -/
structure Received (P : Peer) (delivered : List UInt8) (arrived : List (Nat × Segment))
    (pcb : Pcb) (r fin : Nat) : Prop where
  head_lt : pcb.rxHead < 65536
  tail_lt : pcb.rxTail < 65536
  len_le : tcpRxLen pcb ≤ tcpRcvBuf
  bytes : delivered ++ ringList pcb.rx tcpRcvBuf pcb.rxHead (tcpRxLen pcb) = P.stream.take r
  r_le : r ≤ P.stream.length
  nxt : pcb.rcvNxt = (P.isn + 1 + r + fin) % 4294967296
  fin_le : fin ≤ 1
  seen : ∀ p, p < r → ∃ a ∈ arrived, a.1 ≤ p ∧ p < a.1 + a.2.data.length
  fin_seen : fin = 1 → r = P.stream.length ∧ ∃ a ∈ arrived, a.2.flags.fin = true

/-- The invariant of a run: before the handshake nothing is buffered
and the block still waits in SYN-SENT (or is gone), after it
`Received` holds. -/
def ConnInv (P : Peer) (c : Conn) : Prop :=
  (c.synced = false ∧ c.delivered = [] ∧ EmptyRing c.pcb ∧
    (c.pcb.state = .synSent ∨ c.pcb.active = false)) ∨
  (c.synced = true ∧ c.pcb.state ≠ .synSent ∧
    ∃ r fin, Received P c.delivered c.arrived c.pcb r fin)

/-- A step of the sending half from `p` to `q`: the receive fields stay,
and the block neither enters SYN-SENT nor leaves it for an open
state. -/
structure SameReceive (p q : Pcb) : Prop where
  rx : q.rx = p.rx
  head : q.rxHead = p.rxHead
  tail : q.rxTail = p.rxTail
  nxt : q.rcvNxt = p.rcvNxt
  opened : p.state ≠ .synSent → q.state ≠ .synSent
  waiting : p.state = .synSent ∨ p.active = false → q.state = .synSent ∨ q.active = false

@[refl] theorem SameReceive.refl (p : Pcb) : SameReceive p p := ⟨rfl, rfl, rfl, rfl, id, id⟩

variable {c : Conn} {as : List (Nat × Segment)} {d : List UInt8} {fin pos r : Nat} {p pcb q : Pcb}
  {P : Peer} {s : Segment}

theorem SameReceive.trans {w : Pcb} (h : SameReceive p q) (h' : SameReceive q w) :
    SameReceive p w :=
  ⟨h'.rx.trans h.rx, h'.head.trans h.head, h'.tail.trans h.tail, h'.nxt.trans h.nxt,
    h'.opened ∘ h.opened, h'.waiting ∘ h.waiting⟩

/-- The receive ring is as long as before. -/
theorem SameReceive.rxLen (h : SameReceive p q) : tcpRxLen q = tcpRxLen p := by
  unfold tcpRxLen
  rw [h.head, h.tail]

/-- What was received depends on the receiving side only. -/
theorem Received.congr (h : Received P d as p r fin) (hs : SameReceive p q) :
    Received P d as q r fin :=
  { h with
    head_lt := by rw [hs.head]; exact h.head_lt
    tail_lt := by rw [hs.tail]; exact h.tail_lt
    len_le := by rw [hs.rxLen]; exact h.len_le
    bytes := by rw [hs.rx, hs.head, hs.rxLen]; exact h.bytes
    nxt := hs.nxt.trans h.nxt }

/-- More arrivals do not hurt. -/
theorem Received.arrive (h : Received P d as pcb r fin) (a : Nat × Segment) :
    Received P d (as ++ [a]) pcb r fin :=
  { h with
    seen := fun p hp => by
      obtain ⟨b, hb, hpb⟩ := h.seen p hp
      exact ⟨b, by simp [hb], hpb⟩
    fin_seen := fun hf => by
      obtain ⟨hr, b, hb, hfb⟩ := h.fin_seen hf
      exact ⟨hr, b, by simp [hb], hfb⟩ }

/-- The bytes taken so far are the `r` of the invariant. -/
theorem Received.taken_eq (h : Received P c.delivered c.arrived c.pcb r fin) : c.taken = r := by
  have hlen := congrArg length h.bytes
  rw [length_append, length_ringList, length_take, Nat.min_eq_left h.r_le] at hlen
  exact hlen

/-! ### The sending half -/

variable (now : Nat)

section

variable (pcb : Pcb)

/-- The sending side leaves the receiving side alone. -/
theorem sameReceive_tcpFire : SameReceive pcb (tcpFire now pcb).1 := by
  simp only [tcpFire]
  split_ifs <;> exact ⟨rfl, rfl, rfl, rfl, id, id⟩

theorem sameReceive_tcpSend (data : List UInt8) : SameReceive pcb (tcpSend now pcb data).2.1 := by
  simp only [tcpSend]
  split
  · rfl
  split
  · rfl
  have htxb : SameReceive pcb { pcb with txb := pcb.txb ++ data } := ⟨rfl, rfl, rfl, rfl, id, id⟩
  exact htxb.trans (sameReceive_tcpFire now _)

theorem sameReceive_tcpAckAdvance (ack : Nat) : SameReceive pcb (tcpAckAdvance now pcb ack).1 := by
  simp only [tcpAckAdvance]
  split
  · split
    · rfl
    · refine SameReceive.trans ?_ (sameReceive_tcpFire now _)
      split <;> exact ⟨rfl, rfl, rfl, rfl, id, id⟩
  · rfl

theorem sameReceive_tcpClosing {flags : Flags} {ack : Nat} :
    SameReceive pcb (tcpClosing now pcb flags ack).1 := by
  unfold tcpClosing
  split_ifs <;> constructor <;> simp_all

theorem sameReceive_tcpClose : SameReceive pcb (tcpClose now pcb).1 := by
  unfold tcpClose
  split_ifs <;> constructor <;> simp_all

theorem sameReceive_tcpShutdown (rd wr : Bool) : SameReceive pcb (tcpShutdown now pcb rd wr).1 := by
  unfold tcpShutdown
  split_ifs <;> constructor <;> simp_all

theorem sameReceive_tcpTick : SameReceive pcb (tcpTick now pcb).1 := by
  simp only [tcpTick]
  split_ifs <;> constructor <;> simp_all

theorem sameReceive_tcpTickChild : SameReceive pcb (tcpTickChild now pcb).1 := by
  simp only [tcpTickChild]
  split_ifs <;> constructor <;> simp_all

theorem sameReceive_tcpPcbFree : SameReceive pcb (tcpPcbFree pcb) := by
  constructor <;> simp [tcpPcbFree]

end

/-- A call of the sending half keeps the invariant. It brings no segment
and hands nothing out, so the history stays as it is. -/
theorem ConnInv.congr {c' : Conn} (h : ConnInv P c) (hs : SameReceive c.pcb pcb)
    (hc : some (Conn.mk pcb (c.delivered ++ []) (c.arrived ++ []) (c.synced || false)) = some c') :
    ConnInv P c' := by
  rw [append_nil, append_nil, Bool.or_false] at hc
  cases hc
  rcases h with ⟨hsync, hd, ⟨hhead, htail⟩, hwait⟩ | ⟨hsync, hstate, r, fin, hr⟩
  · refine .inl ⟨hsync, hd, ⟨?_, ?_⟩, hs.waiting hwait⟩
    · rw [hs.head]
      exact hhead
    · rw [hs.head, hs.tail]
      exact htail
  · exact .inr ⟨hsync, hs.opened hstate, r, fin, hr.congr hs⟩

/-! ### Reading -/

/-- `tcp_recv` moves bytes from the front of the ring to the reader. -/
theorem Received.recv (h : Received P d as pcb r fin) (len : Nat) :
    Received P (d ++ (tcpRecv pcb len).1.getD []) as (tcpRecv pcb len).2.1 r fin := by
  simp only [tcpRecv]
  split
  · simpa using h
  have hhead := h.head_lt
  have htail := h.tail_lt
  have hlen := h.len_le
  set n := min (tcpRxLen pcb) len with hn
  have hnle : n ≤ tcpRxLen pcb := Nat.min_le_left _ _
  -- the counter wraps at `2 ^ 16`, a multiple of the capacity
  have hcap : (pcb.rxHead + n) % 65536 % tcpRcvBuf = (pcb.rxHead + n) % tcpRcvBuf :=
    Nat.mod_mod_of_dvd _ (by decide)
  have hrest : tcpRxLen { pcb with rxHead := (pcb.rxHead + n) % 65536 } = tcpRxLen pcb - n := by
    simp only [tcpRxLen] at hnle ⊢
    omega
  refine ⟨Nat.mod_lt _ (by decide), htail, ?_, ?_, h.r_le, h.nxt, h.fin_le, h.seen, h.fin_seen⟩
  · rw [hrest]
    omega
  · rw [hrest, ← h.bytes, Option.getD_some, append_assoc]
    rw [← ringList_mod _ _ ((pcb.rxHead + n) % 65536), hcap, ringList_mod, ← ringList_drop,
      ← ringList_take pcb.rx tcpRcvBuf pcb.rxHead _ n hnle, take_append_drop]

/-! ### Payload -/

/-- The distance of two stream positions, read off their sequence
numbers. -/
theorem sub32_stream {a x y : Nat} (hxy : x ≤ y) (hlt : y < x + 4294967296) :
    sub32 ((a + y) % 4294967296) ((a + x) % 4294967296) = y - x := by
  unfold sub32
  omega

/-- Within half the sequence space, `seq_lt` compares stream
positions. -/
theorem seqLt_stream {a x y : Nat} (hx : x < y + 2147483648) (hy : y ≤ x + 2147483648) :
    seqLt ((a + x) % 4294967296) ((a + y) % 4294967296) = true ↔ x < y := by
  rw [seqLt, decide_eq_true_eq, sub32]
  omega

/-- Bytes of the stream that start at `rcv_nxt` and fit are taken. -/
theorem Received.put (h : Received P d as pcb r 0) (xs : List UInt8)
    (hroom : xs.length ≤ tcpRxRoom pcb) (hxs : xs = (P.stream.drop r).take xs.length)
    (hseen : ∀ p, r ≤ p → p < r + xs.length → ∃ a ∈ as, a.1 ≤ p ∧ p < a.1 + a.2.data.length) :
    Received P d as { tcpRxPut pcb xs with rcvNxt := add32 pcb.rcvNxt xs.length }
      (r + xs.length) 0 := by
  have hhead := h.head_lt
  have hlen := h.len_le
  have hbound : r + xs.length ≤ P.stream.length := by
    have := congrArg length hxs
    rw [length_take, length_drop] at this
    have := h.r_le
    omega
  simp only [tcpRxRoom] at hroom
  have hlen' : tcpRxLen { tcpRxPut pcb xs with rcvNxt := add32 pcb.rcvNxt xs.length }
      = tcpRxLen pcb + xs.length := by
    simp only [tcpRxLen, tcpRxPut, tcpRcvBuf] at hroom hlen ⊢
    omega
  -- the tail counter stands `tcpRxLen` cells behind the head, up to the wrap of both
  have htailmod : pcb.rxTail % tcpRcvBuf = (pcb.rxHead + tcpRxLen pcb) % tcpRcvBuf := by
    simp only [tcpRxLen, tcpRcvBuf]
    omega
  refine ⟨hhead, Nat.mod_lt _ (by decide), ?_, ?_, hbound, ?_, Nat.zero_le 1, ?_, ?_⟩
  · omega
  · rw [hlen']
    show d ++ ringList (ringPut tcpRcvBuf pcb.rx pcb.rxTail xs) tcpRcvBuf pcb.rxHead
        (tcpRxLen pcb + xs.length) = _
    rw [ringPut_mod xs pcb.rx _ _ htailmod, ringList_put _ _ _ _ _ (by omega),
      ← append_assoc, h.bytes, take_add, ← hxs]
  · show add32 pcb.rcvNxt xs.length = _
    rw [h.nxt, add32]
    omega
  · intro p hp
    by_cases hpr : p < r
    · exact h.seen p hpr
    · exact hseen p (by omega) hp
  · intro hf
    exact absurd hf (by decide)

/-- Taking the FIN moves `rcv_nxt` by one. -/
theorem Received.takeFin (h : Received P d as pcb P.stream.length 0) (st : TcpState)
    (finRcvd : Bool) (hseen : ∃ a ∈ as, a.2.flags.fin = true) :
    Received P d as
      { pcb with finRcvd := finRcvd, state := st, rcvNxt := add32 pcb.rcvNxt 1 }
      P.stream.length 1 :=
  { h with
    nxt := by
      show add32 pcb.rcvNxt 1 = _
      rw [h.nxt, add32]
      omega
    fin_le := le_refl 1
    fin_seen := fun _ => ⟨rfl, hseen⟩ }

/-- The end of `tcp_input_established` for a payload that starts at
`rcv_nxt`, before any FIN was taken. -/
theorem Received.take (h : Received P d as pcb r 0) (flags : Flags) (xs : List UInt8)
    (hxs : xs = (P.stream.drop r).take xs.length) (hseen : ∀ p, r ≤ p → p < r + xs.length →
      ∃ a ∈ as, a.1 ≤ p ∧ p < a.1 + a.2.data.length) (hfin : flags.fin = true →
      r + xs.length = P.stream.length ∧ ∃ a ∈ as, a.2.flags.fin = true) :
    ∃ r' fin', Received P d as (tcpTake pcb flags xs).1 r' fin' := by
  set taken := min xs.length (tcpRxRoom pcb)
  have hle : taken ≤ xs.length := Nat.min_le_left _ _
  have hlen : (xs.take taken).length = taken := by
    rw [length_take, Nat.min_eq_left hle]
  -- what fits is buffered; `q` is the block after that
  set q : Pcb := if taken = 0 then pcb
    else { tcpRxPut pcb (xs.take taken) with rcvNxt := add32 pcb.rcvNxt taken } with hq
  have hput : Received P d as q (r + taken) 0 := by
    rw [hq]
    split
    · next h0 => rw [h0]; exact h
    have := h.put (xs.take taken) (by omega)
      (by rw [hlen]; conv_lhs => rw [hxs, take_take, Nat.min_eq_left hle])
      (by rw [hlen]; exact fun p hp hlt => hseen p hp (by omega))
    rw [hlen] at this
    exact this
  have htake : tcpTake pcb flags xs =
      if flags.fin then
        if taken ≠ xs.length then (q, [tcpAck q])
        else
          let q' := { q with
            finRcvd := true
            state := if q.state = .established then .closeWait else q.state
            rcvNxt := add32 q.rcvNxt 1 }
          (q', [tcpAck q'])
      else if xs.length ≠ 0 then (q, [tcpAck q])
      else (q, []) := rfl
  rw [htake]
  split
  · next hflag =>
      obtain ⟨hend, hfseen⟩ := hfin hflag
      split
      · exact ⟨_, _, hput⟩
      next hall =>
        have hr : r + taken = P.stream.length := by
          rw [not_not.mp hall]
          exact hend
        rw [hr] at hput
        exact ⟨_, _, hput.takeFin _ _ hfseen⟩
  · split
    · exact ⟨_, _, hput⟩
    · exact ⟨_, _, hput⟩

/-- A segment of the peer whose numbers are unambiguous, with a FIN at
`rcv_nxt` when it has no payload. -/
structure Arrival (P : Peer) (as : List (Nat × Segment)) (nxt r pos : Nat) (s : Segment) :
    Prop where
  mem : (pos, s) ∈ as
  peer : FromPeer P pos s
  fin : s.flags.fin = true → s.data = [] → s.seq = nxt
  near : s.data ≠ [] ∨ s.flags.fin = true → r < pos + 2147483648 ∧ pos < r + 2147483648

/-- A segment brings the bytes that come next, or nothing. -/
theorem Received.payload (h : Received P d as pcb r fin) (ha : Arrival P as pcb.rcvNxt r pos s)
    (hsyn : s.flags.syn = false) :
    ∃ r' fin', Received P d as (tcpPayload pcb s.seq s.flags s.data).1 r' fin' := by
  obtain ⟨hmem, hs, hfin, hnear⟩ := ha
  have hnxt := h.nxt
  have hfin1 := h.fin_le
  have hfinr : fin = 1 → r = P.stream.length := fun hf => (h.fin_seen hf).1
  by_cases hdata : s.data = []
  · -- no payload: only the FIN moves anything
    have hpay : tcpPayload pcb s.seq s.flags s.data = tcpTake pcb s.flags [] := by
      simp [tcpPayload, hdata]
    rw [hpay]
    by_cases hflag : s.flags.fin = true
    · have hseq := hs.seq hsyn (.inr hflag)
      have hend := hs.fin hsyn hflag
      have hnr := hnear (.inr hflag)
      have heq := hfin hflag hdata
      rw [hdata, length_nil] at hend
      obtain rfl : fin = 0 := by omega
      have hr : r = P.stream.length := by omega
      exact h.take s.flags [] rfl (fun p hp hlt => absurd hlt (by simp; omega))
        (fun _ => ⟨by simp [hr], _, hmem, hflag⟩)
    · have hsame : (tcpTake pcb s.flags []).1 = pcb := by
        simp [tcpTake, hflag]
      exact ⟨r, fin, by rw [hsame]; exact h⟩
  · have hseq := hs.seq hsyn (.inl hdata)
    have hbound := hs.bound hsyn hdata
    have hnr := hnear (.inl hdata)
    have hnxt' : pcb.rcvNxt = (P.isn + 1 + (r + fin)) % 4294967296 := by
      rw [hnxt, Nat.add_assoc (P.isn + 1)]
    simp only [tcpPayload, ne_eq, hdata, not_false_eq_true, true_and]
    split
    · next hlt =>
        -- the segment starts before `rcv_nxt`
        have hposlt : pos < r + fin := by
          rw [hseq, hnxt'] at hlt
          exact (seqLt_stream (by omega) (by omega)).mp hlt
        have hpast : sub32 pcb.rcvNxt s.seq = r + fin - pos := by
          rw [hseq, hnxt']
          exact sub32_stream (by omega) (by omega)
        rw [hpast]
        split
        · exact ⟨r, fin, h⟩
        next hlong =>
          split
          · exact ⟨r, fin, h⟩
          obtain rfl : fin = 0 := by omega
          have hcut : pos + (r + 0 - pos) = r := by omega
          refine h.take s.flags _ ?_ ?_ ?_
          · rw [length_drop]
            conv_lhs => rw [hs.data hsyn]
            rw [drop_take, drop_drop, hcut]
          · intro p hp hlt'
            rw [length_drop] at hlt'
            exact ⟨_, hmem, by simp only; omega, by simp only; omega⟩
          · intro hflag
            have hend := hs.fin hsyn hflag
            rw [length_drop]
            exact ⟨by omega, _, hmem, hflag⟩
    · next hge =>
        split
        · exact ⟨r, fin, h⟩
        next heq =>
          have hposr : pos = r + fin := by
            omega
          obtain rfl : fin = 0 := by omega
          subst hposr
          refine h.take s.flags _ (hs.data hsyn) ?_ ?_
          · intro p hp hlt'
            exact ⟨_, hmem, hp, hlt'⟩
          · intro hflag
            exact ⟨hs.fin hsyn hflag, _, hmem, hflag⟩

/-- The segment takes no sequence number. -/
def Bare (s : Segment) : Prop := s.data = [] ∧ s.flags.fin = false
  deriving Decidable

theorem bare_nil : ∀ s ∈ ([] : List Segment), Bare s := forall_mem_nil _

/-- An acknowledgement carries no data. -/
theorem bare_tcpAck {p : Pcb} : ∀ s ∈ [tcpAck p], Bare s := forall_mem_singleton.mpr ⟨rfl, rfl⟩

/-- The payload part leaves the sending half alone, and answers with bare
segments. The state can go from ESTABLISHED to CLOSE-WAIT. -/
structure SameSend (p : Pcb) (r : Pcb × List Segment) : Prop where
  una : r.1.sndUna = p.sndUna
  nxt : r.1.sndNxt = p.sndNxt
  txb : r.1.txb = p.txb
  active : r.1.active = p.active
  state : r.1.state = p.state ∨ (p.state = .established ∧ r.1.state = .closeWait)
  bare : ∀ s ∈ r.2, Bare s

/-- Data that arrive leave the sending side alone. -/
theorem sameSend_tcpTake (p : Pcb) (flags : Flags) (data : List UInt8) :
    SameSend p (tcpTake p flags data) := by
  simp only [tcpTake]
  generalize hq : (if min data.length (tcpRxRoom p) = 0 then p
    else { tcpRxPut p (data.take (min data.length (tcpRxRoom p))) with
      rcvNxt := add32 p.rcvNxt (min data.length (tcpRxRoom p)) }) = q
  have hput : q.sndUna = p.sndUna ∧ q.sndNxt = p.sndNxt ∧ q.txb = p.txb ∧ q.active = p.active ∧
      q.state = p.state := by
    rw [← hq]
    split
    · exact ⟨rfl, rfl, rfl, rfl, rfl⟩
    · exact ⟨rfl, rfl, rfl, rfl, rfl⟩
  obtain ⟨huna, hnxt, htxb, hactive, hstate⟩ := hput
  split
  · split
    · exact ⟨huna, hnxt, htxb, hactive, .inl hstate, bare_tcpAck⟩
    refine ⟨huna, hnxt, htxb, hactive, ?_, bare_tcpAck⟩
    by_cases hest : q.state = .established
    · exact .inr ⟨hstate ▸ hest, if_pos hest⟩
    · exact .inl ((if_neg hest).trans hstate)
  · split
    · exact ⟨huna, hnxt, htxb, hactive, .inl hstate, bare_tcpAck⟩
    · exact ⟨huna, hnxt, htxb, hactive, .inl hstate, bare_nil⟩

theorem sameSend_tcpPayload (p : Pcb) (seq : Nat) (flags : Flags) (data : List UInt8) :
    SameSend p (tcpPayload p seq flags data) := by
  have hack : SameSend p (p, [tcpAck p]) := ⟨rfl, rfl, rfl, rfl, .inl rfl, bare_tcpAck⟩
  unfold tcpPayload
  split
  · simp only
    split
    · exact hack
    split
    · exact hack
    · exact sameSend_tcpTake ..
  · split
    · exact hack
    · exact sameSend_tcpTake ..

/-- The receive invariant of an open block, whatever `r` and `fin`
are. -/
def Open (P : Peer) (d : List UInt8) (as : List (Nat × Segment)) (pcb : Pcb) : Prop :=
  pcb.state ≠ .synSent ∧ ∃ r fin, Received P d as pcb r fin

/-- An open connection depends on the receiving side only. -/
theorem Open.congr (h : Open P d as p) (hs : SameReceive p q) : Open P d as q := by
  obtain ⟨hstate, r, fin, hr⟩ := h
  exact ⟨hs.opened hstate, r, fin, hr.congr hs⟩

/-- `tcp_input_established` keeps the invariant. -/
theorem Received.inputEstablished (h : Received P d as pcb r fin) (hstate : pcb.state ≠ .synSent)
    (now : Nat) (ha : Arrival P as pcb.rcvNxt r pos s) :
    Open P d as (tcpInputEstablished now pcb s.seq s.flags s.data s.ack).1 := by
  have hkeep : Open P d as pcb := ⟨hstate, r, fin, h⟩
  -- the acknowledgement moves the sending half only
  have hadv : SameReceive pcb
      (if s.flags.ack = true then tcpAckAdvance now pcb s.ack else (pcb, [])).1 := by
    split
    · exact sameReceive_tcpAckAdvance now pcb s.ack
    · rfl
  by_cases hrst : s.flags.rst = true
  · simp only [tcpInputEstablished, hrst, if_true]
    exact ⟨by simp, r, fin, h.congr ⟨rfl, rfl, rfl, rfl, by simp, by simp⟩⟩
  by_cases hsyn : s.flags.syn = true
  · simp only [tcpInputEstablished, hrst, hsyn, if_true]
    exact hkeep
  rw [tcpInputEstablished, if_neg hrst, if_neg hsyn]
  split
  · exact hkeep
  refine ⟨fun hsent => ?_, ?_⟩
  · rcases (sameSend_tcpPayload _ s.seq s.flags s.data).state with hs | ⟨-, hs⟩
    · exact hadv.opened hstate (hs.symm.trans hsent)
    · cases hs.symm.trans hsent
  exact (h.congr hadv).payload (by rw [hadv.nxt]; exact ha) (by simpa using hsyn)

/-! ### Runs -/

/-- A block with an empty ring has taken nothing after the handshake. -/
theorem received_fresh (P : Peer) (as : List (Nat × Segment)) (pcb : Pcb) (hring : EmptyRing pcb)
    (hnxt : pcb.rcvNxt = add32 (P.isn % 4294967296) 1) : Received P [] as pcb 0 0 := by
  obtain ⟨hhead, htail⟩ := hring
  have hlen : tcpRxLen pcb = 0 := by
    rw [tcpRxLen, htail]
    omega
  refine ⟨hhead, by omega, by rw [hlen]; decide, by simp [hlen], Nat.zero_le _, ?_,
    Nat.zero_le 1, fun p hp => absurd hp (Nat.not_lt_zero p), fun hf => absurd hf (by decide)⟩
  rw [hnxt, add32]
  omega

/-- The invariant holds when a connection opens with an empty ring. -/
theorem connInv_opened (h : Opened P c) (hring : EmptyRing c.pcb) : ConnInv P c := by
  cases h with
  | connect now iss pcb => exact .inl ⟨rfl, rfl, hring, .inl rfl⟩
  | accept now iss =>
    have hstate : (tcpAcceptChild now iss (P.isn % 4294967296)).1.state = .synRcvd := rfl
    exact .inr ⟨rfl, by simp [hstate], 0, 0, received_fresh P [] _ hring rfl⟩

/-- What an arrival does before the handshake: nothing but a new window, or the
SYN|ACK opens the connection at its numbers and buffers nothing. -/
theorem tcpInput_waiting (hwait : pcb.state = .synSent ∨ pcb.active = false) :
    (∃ w, tcpInput now pcb s = ({ pcb with sndWnd := w }, [])) ∨
    ∃ q out, tcpInput now pcb s = (q, out) ∧ pcb.state = .synSent ∧ s.flags.syn = true ∧
      q.sndUna = s.ack ∧ q.sndNxt = s.ack ∧ q.txb = pcb.txb ∧
      (q.state = .established ∨ q.state = .closed) ∧ q.rxHead = pcb.rxHead ∧
      q.rxTail = pcb.rxTail ∧ q.rcvNxt = add32 s.seq 1 ∧ ∀ t ∈ out, Bare t := by
  by_cases hactive : pcb.active = false
  · exact .inl ⟨pcb.sndWnd, if_pos (.inl hactive)⟩
  have hstate := hwait.resolve_right hactive
  by_cases hopen : s.flags.syn = true ∧ s.flags.ack = true
  · refine .inr ⟨(tcpInput now pcb s).1, (tcpInput now pcb s).2, rfl, hstate, hopen.1, ?_⟩
    by_cases hrst : s.flags.rst = true
    · simp [tcpInput, hactive, hstate, hopen, tcpInputEstablished, hrst, Bare, tcpAck, tcpEmit]
    · simp [tcpInput, hactive, hstate, hopen, tcpInputEstablished, hrst, Bare, tcpAck, tcpEmit]
  · exact .inl ⟨_, by simp only [tcpInput, hactive, hstate, if_neg hopen]; rfl⟩

/-- An arrival before the handshake keeps the invariant. -/
theorem connInv_arrive_waiting {now : Nat} (hsync : c.synced = false) (hd : c.delivered = [])
    (hring : EmptyRing c.pcb) (hwait : c.pcb.state = .synSent ∨ c.pcb.active = false)
    (hs : FromPeer P pos s) :
    ConnInv P
      { pcb := (tcpInput now c.pcb s).1
        delivered := c.delivered ++ []
        arrived := c.arrived ++ [(pos, s)]
        synced := c.synced ||
          decide (c.pcb.state = .synSent ∧ (tcpInput now c.pcb s).1.state ≠ .synSent) } := by
  rcases tcpInput_waiting now (s := s) hwait with
    ⟨w, hr⟩ | ⟨q, out, hr, hstate, hsyn, -, -, -, hst, hh, ht, hn, -⟩
  · rw [hr]
    exact .inl ⟨by simp [hsync], by rw [append_nil, hd], hring, hwait⟩
  · have hne : q.state ≠ .synSent := by
      rcases hst with hst | hst <;> rw [hst] <;> nofun
    rw [hr]
    refine .inr ⟨by simp [hstate, hne], hne, 0, 0, ?_⟩
    rw [append_nil, hd]
    refine received_fresh P _ _ ⟨?_, ?_⟩ (by rw [hn, hs.syn hsyn])
    · rw [hh]
      exact hring.1
    · rw [hh, ht]
      exact hring.2

/-- `tcp_input` of an open block keeps the invariant. -/
theorem open_tcpInput (h : Received P d as pcb r fin) (hstate : pcb.state ≠ .synSent) (now : Nat)
    (ha : Arrival P as pcb.rcvNxt r pos s) : Open P d as (tcpInput now pcb s).1 := by
  set w := { pcb with sndWnd := if s.wnd ≠ 0 then s.wnd else tcpMss }
  have hwsame : SameReceive pcb w := ⟨rfl, rfl, rfl, rfl, id, id⟩
  have hkeep : Open P d as w := ⟨hstate, r, fin, h.congr hwsame⟩
  simp only [tcpInput]
  split
  · exact ⟨hstate, r, fin, h⟩
  split
  · next hst => exact absurd hst hstate
  · split
    · have hopen : SameReceive pcb { w with state := .established, retry := 0, tmo := 0 } :=
        ⟨rfl, rfl, rfl, rfl, fun _ => by simp, fun hwait => by simp_all⟩
      exact (h.congr hopen).inputEstablished (by simp) now ha
    · exact hkeep
  · exact ((h.congr hwsame).inputEstablished hstate now ha).congr (sameReceive_tcpClosing _ _)

/-- `tcp_recv` keeps the invariant. -/
theorem ConnInv.recv (h : ConnInv P c) (len : Nat) :
    ConnInv P ⟨(tcpRecv c.pcb len).2.1, c.delivered ++ (tcpRecv c.pcb len).1.getD [], c.arrived,
      c.synced⟩ := by
  rcases h with ⟨hsync, hd, hring, hwait⟩ | ⟨hsync, hstate, r, fin, hr⟩
  · have hempty : tcpRxLen c.pcb = 0 := by
      obtain ⟨hhead, htail⟩ := hring
      rw [tcpRxLen, htail]
      omega
    refine .inl ⟨hsync, ?_⟩
    rw [tcpRecv, if_pos hempty]
    exact ⟨by rw [hd]; rfl, hring, hwait⟩
  · refine .inr ⟨hsync, ?_, r, fin, hr.recv len⟩
    simp only [tcpRecv]
    split <;> exact hstate

/-- One event keeps the invariant. -/
theorem connInv_step {a : Nat × Event} {c' : Conn} (h : ConnInv P c)
    (hgood : SentByPeer P c a ∧ InSequence c a) (hstep : connStep c a = some c') :
    ConnInv P c' := by
  obtain ⟨pos, e⟩ := a
  cases e with
  | arrive now s =>
    have hs := hgood.1 s (mem_singleton_self s)
    have hseq := hgood.2 s (mem_singleton_self s)
    obtain ⟨o, ho, rfl⟩ := Option.map_eq_some_iff.mp hstep
    obtain ⟨-, ho⟩ := Option.ite_none_right_eq_some.mp ho
    cases ho
    have hany : ([s].any fun _ =>
        decide (c.pcb.state = .synSent ∧ (tcpInput now c.pcb s).1.state ≠ .synSent)) =
        decide (c.pcb.state = .synSent ∧ (tcpInput now c.pcb s).1.state ≠ .synSent) :=
          Bool.or_false _
    simp only [Event.segments, hany, map_cons, map_nil]
    rcases h with ⟨hsync, hd, hring, hwait⟩ | ⟨hsync, hstate, r, fin, hr⟩
    · exact connInv_arrive_waiting hsync hd hring hwait hs
    obtain ⟨hfin, hnear⟩ := hseq hsync
    rw [hr.taken_eq] at hnear
    obtain ⟨hst, hrecv⟩ := open_tcpInput (hr.arrive (pos, s)) hstate now ⟨by simp, hs, hfin, hnear⟩
    refine .inr ⟨by simp [hsync], hst, ?_⟩
    rw [append_nil]
    exact hrecv
  | recv len =>
    have hc' : some (Conn.mk (tcpRecv c.pcb len).2.1 (c.delivered ++ (tcpRecv c.pcb len).1.getD [])
        (c.arrived ++ []) (c.synced || false)) = some c' := hstep
    rw [append_nil, Bool.or_false] at hc'
    cases hc'
    exact h.recv len
  | send now data => exact h.congr (sameReceive_tcpSend now c.pcb data) hstep
  | close now => exact h.congr (sameReceive_tcpClose now c.pcb) hstep
  | shutdown now rd wr => exact h.congr (sameReceive_tcpShutdown now c.pcb rd wr) hstep
  | tick now => exact h.congr (sameReceive_tcpTick now c.pcb) hstep
  | tickChild now => exact h.congr (sameReceive_tcpTickChild now c.pcb) hstep
  | free => exact h.congr (sameReceive_tcpPcbFree c.pcb) hstep

/-- The reader has a prefix of what the peer has sent. -/
theorem ConnInv.inOrder (h : ConnInv P c) : InOrder P c := by
  rcases h with ⟨hsync, hd, -⟩ | ⟨hsync, -, r, fin, hr⟩
  · refine ⟨by simp [hd], fun hsync' => ?_⟩
    rw [hsync] at hsync'
    exact absurd hsync' (by decide)
  refine ⟨?_, fun _ => ⟨r, fin, hr.nxt, ?_, hr.r_le, hr.fin_le, hr.seen, hr.fin_seen⟩⟩
  · exact (prefix_append _ _).trans (hr.bytes ▸ take_prefix r P.stream)
  · have := hr.taken_eq
    unfold Conn.taken at this
    omega

/-- In-order delivery. In every run of a connection that starts with an
empty receive ring, whose arrivals are segments of the peer, in any
order and any number of times, and meet `InSequence`, the reader has a
prefix of the peer's stream, and `rcv_nxt` stands behind stream bytes
and a FIN that all arrived. -/
theorem inOrder_of_inSequence (P : Peer) (c₀ c : Conn) (evs : List (Nat × Event))
    (hopened : Opened P c₀) (hring : EmptyRing c₀.pcb)
    (hpeer : Along connStep (SentByPeer P) c₀ evs)
    (hseq : Along connStep InSequence c₀ evs) (hrun : run connStep c₀ evs = some c) :
    InOrder P c :=
  (run_invariant_of_along (fun _ _ _ hI hgood hstep => connInv_step hI hgood hstep) evs c₀ c
    (connInv_opened hopened hring) (hpeer.and hseq) hrun).inOrder

/-- The peer of the two runs below: initial number `0`, two bytes. -/
def twoBytePeer : Peer := ⟨0, [7, 9]⟩

/-- The peer's segment with the payload `data` at the offset `pos`. -/
def twoByteSegment (pos : Nat) (data : List UInt8) (fin : Bool) : Segment :=
  { seq := 1 + pos, ack := 101, flags := { ack := true, fin := fin }, wnd := 4096, data := data }

/-- The second byte first, then the first, the second again, and the
FIN behind them. -/
def reorderedArrivals : List (Nat × Event) :=
  [(0, .arrive 0 (twoByteSegment 0 [] false)), (1, .arrive 1 (twoByteSegment 1 [9] false)),
    (0, .arrive 2 (twoByteSegment 0 [7] false)), (1, .arrive 3 (twoByteSegment 1 [9] false)),
    (2, .arrive 4 (twoByteSegment 2 [] true)), (0, .recv 10)]

/-- The FIN first, then both bytes in one segment. -/
def earlyFinArrivals : List (Nat × Event) :=
  [(0, .arrive 0 (twoByteSegment 0 [] false)), (2, .arrive 1 (twoByteSegment 2 [] true)),
    (0, .arrive 2 (twoByteSegment 0 [7, 9] false)), (0, .recv 10)]

/-- The reordered run meets the condition, and the reader gets the whole
stream. -/
theorem inOrder_reorderedArrivals :
    ∃ c, run connStep ⟨(tcpAcceptChild 0 100 0).1, [], [], true⟩ reorderedArrivals = some c ∧
      c.delivered = [7, 9] ∧ InOrder twoBytePeer c :=
  ⟨_, rfl, rfl, inOrder_of_inSequence twoBytePeer _ _ reorderedArrivals
    (Opened.accept 0 100) (by decide) (by decide +kernel) (by decide +kernel) rfl⟩

/-- A FIN that overtakes the data. Without payload it passes the
sequence checks and moves `rcv_nxt` over the first byte, so the reader
gets the second byte only. -/
theorem not_inOrder_earlyFinArrivals :
    ∃ c, Opened twoBytePeer ⟨(tcpAcceptChild 0 100 0).1, [], [], true⟩ ∧
      Along connStep (SentByPeer twoBytePeer) ⟨(tcpAcceptChild 0 100 0).1, [], [], true⟩
        earlyFinArrivals ∧
      run connStep ⟨(tcpAcceptChild 0 100 0).1, [], [], true⟩ earlyFinArrivals = some c ∧
      c.delivered = [9] ∧ ¬ InOrder twoBytePeer c := by
  refine ⟨_, Opened.accept 0 100, by decide +kernel, rfl, rfl, ?_⟩
  rintro ⟨hpre, -⟩
  exact absurd hpre (by decide)

end CoreZ.Proofs.Net
