import CoreZ.Proofs.Net.TcpReceive

/-!
# `CoreZ.Proofs.Net.TcpSend`: the send buffer

The sending half of one connection. A `Sender` is the control block
with what happened so far: the bytes that `tcp_send` accepted, how many
of them are acknowledged, where the last transmitted byte or FIN ends,
and the segments themselves. These are read off the events from the
outside: `Sender.position` unwraps a sequence number relative to
`snd_una`, so they do not wrap.

`SendBuffer` is the contract of the buffer. Two places break it.
`tcp_fire` compares `cursor > pcb->snd_nxt` as plain numbers, so bytes
that it sends across `2 ^ 32` are not recorded in `snd_nxt`
(`not_sendBuffer_wrap`). `tcp_tick` sends the whole buffer again,
including bytes behind `snd_nxt` that the window held back. In both
cases the acknowledgement of these bytes is taken for one of bytes that
were never sent, and dropped. `Steady` excludes the two; under it every
state of a run meets the contract (`sendBuffer_of_steady`).

The invariant `Flow` gives the three sequence variables their stream
positions. Each function of the sending half gets one lemma that says
how it moves the positions and which part of the stream its segments
carry (`Emitted`).
-/

set_option autoImplicit false

namespace CoreZ.Proofs.Net

open CoreZ.Lib
open CoreZ.Net.Tcp
open List

/-- A connection with the history of its sending half. `base` is the
sequence number of the first byte of the stream. -/
structure Sender where
  pcb : Pcb
  base : Nat
  accepted : List UInt8
  acked : Nat
  sent : Nat
  finOut : Bool
  out : List Segment

/-- The stream position of a sequence number at or behind `snd_una`. -/
def Sender.position (c : Sender) (q : Nat) : Nat := c.acked + sub32 q c.pcb.sndUna

/-- The stream position behind a segment. A FIN takes one number. -/
def Sender.segEnd (c : Sender) (s : Segment) : Nat :=
  if Bare s then 0 else c.position s.seq + s.data.length + s.flags.fin.toNat

/-- The history after a call that accepted `data`, changed the control
block and transmitted segments. -/
def Sender.next (c : Sender) (data : List UInt8) (r : Pcb × List Segment) : Sender where
  pcb := r.1
  base := c.base
  accepted := c.accepted ++ data
  acked := c.position r.1.sndUna
  sent := r.2.foldl (fun m s => max m (c.segEnd s)) c.sent
  finOut := c.finOut || r.2.any fun s => s.flags.fin
  out := c.out ++ r.2

/-- The connection takes one event. A SYN|ACK that ends the active open
sets `snd_una`, and with it the number of the first byte. -/
def sendStep (c : Sender) (e : Event) : Option Sender :=
  (pcbStep c.pcb e).map fun o =>
    if e.segments ≠ [] ∧ c.pcb.state = .synSent ∧ o.pcb.state ≠ .synSent then
      { c.next o.accepted (o.pcb, o.out) with base := o.pcb.sndUna, acked := 0 }
    else c.next o.accepted (o.pcb, o.out)

/-- A connection after its active or passive open. The active open may
use a control block again. -/
inductive SenderStart : Sender → Prop
  | connect (now iss : Nat) (pcb : Pcb) :
      SenderStart ⟨(tcpConnect now iss pcb).1, add32 iss 1, [], 0, 0, false,
        (tcpConnect now iss pcb).2⟩
  | accept (now iss seq : Nat) :
      SenderStart ⟨(tcpAcceptChild now iss seq).1, add32 iss 1, [], 0, 0, false,
        (tcpAcceptChild now iss seq).2⟩

/-- An acknowledgement of everything sent so far: a segment that the
connection looks at, without RST and SYN. -/
structure CoversAll (c : Sender) (s : Segment) : Prop where
  active : c.pcb.active = true
  opened : c.pcb.state ≠ .listen ∧ c.pcb.state ≠ .synSent ∧ c.pcb.state ≠ .synRcvd
  rst : s.flags.rst = false
  syn : s.flags.syn = false
  ack : s.flags.ack = true
  number : s.ack = add32 c.base c.sent

/-- The contract of the send buffer. -/
structure SendBuffer (c : Sender) : Prop where
  /-- the buffer is the accepted stream from `snd_una` on -/
  una : c.pcb.sndUna = add32 c.base c.acked
  held : c.pcb.txb = c.accepted.drop c.acked
  /-- `snd_nxt` is between `snd_una` and the end of the buffer, or
  behind the FIN -/
  between : sub32 c.pcb.sndNxt c.pcb.sndUna ≤ c.pcb.txb.length + c.finOut.toNat
  /-- transmitted bytes carry the numbers of their positions -/
  numbered : ∀ s ∈ c.out, s.data ≠ [] → ∃ k, s.seq = add32 c.base k ∧
    k + s.data.length ≤ c.accepted.length ∧ s.data = (c.accepted.drop k).take s.data.length
  /-- an acknowledgement of everything sent leaves only unsent bytes -/
  emptied : ∀ now s, CoversAll c s → (tcpInput now c.pcb s).1.txb = c.accepted.drop c.sent

/-- The condition on an event: a write does not reach the end of the
sequence space, whether the buffer has room for it or not, and the
retransmission timer runs out only when the whole buffer has been
sent. -/
def Steady (c : Sender) : Event → Prop
  | .send _ data => c.pcb.sndUna + c.pcb.txb.length + data.length < 4294967296
  | .tick now => c.pcb.tmo ≠ 0 → seqLt now c.pcb.tmo = false →
      c.pcb.txb.length ≤ sub32 c.pcb.sndNxt c.pcb.sndUna
  | _ => True

instance (c : Sender) : (e : Event) → Decidable (Steady c e)
  | .send _ _ => inferInstanceAs (Decidable (_ < _))
  | .tick _ => inferInstanceAs (Decidable (_ → _ → _ ≤ _))
  | .arrive _ _ | .recv _ | .close _ | .shutdown _ _ _ | .tickChild _ | .free =>
    inferInstanceAs (Decidable True)

/-! ### Positions -/

/-- `snd_una` stands at position `u` of the stream `A`, `snd_nxt` at
position `n`; `fin` says whether a FIN was sent. The numbers of the
buffered bytes do not wrap. -/
structure Flow (b : Nat) (A : List UInt8) (u n : Nat) (fin : Bool) (pcb : Pcb) : Prop where
  una : pcb.sndUna = (b + u) % 4294967296
  nxt : pcb.sndNxt = (b + n) % 4294967296
  le : u ≤ n
  sent_le : n ≤ A.length + fin.toNat
  buf : pcb.txb = A.drop u
  small : pcb.txb.length ≤ tcpSndBuf
  low : pcb.sndUna + pcb.txb.length < 4294967296

/-- The segment carries the stream from position `k` on. -/
structure At (b : Nat) (A : List UInt8) (k : Nat) (s : Segment) : Prop where
  seq : s.seq = (b + k) % 4294967296
  room : s.data ≠ [] → k + s.data.length ≤ A.length
  data : s.data = (A.drop k).take s.data.length

/-- The segments carry parts of the stream from position `u` on, and move
the end of what was sent from `n` to `n'`. -/
structure Emitted (b : Nat) (A : List UInt8) (u n n' : Nat) (out : List Segment) : Prop where
  le : n ≤ n'
  each : ∀ s ∈ out, Bare s ∨
    ∃ k, u ≤ k ∧ At b A k s ∧ k + s.data.length + s.flags.fin.toNat ≤ n'
  reached : n' = n ∨ ∃ s ∈ out, ¬ Bare s ∧
    ∃ k, u ≤ k ∧ s.seq = (b + k) % 4294967296 ∧ k + s.data.length + s.flags.fin.toNat = n'

section Emitted
variable {b : Nat} {A : List UInt8} {u u' n n' n'' : Nat} {out out' : List Segment}

/-- Segments without data move nothing. -/
theorem emitted_of_bare (h : ∀ s ∈ out, Bare s) : Emitted b A u n n out :=
  ⟨le_refl n, fun s hs => .inl (h s hs), .inl rfl⟩

theorem emitted_nil : Emitted b A u n n [] := emitted_of_bare bare_nil

/-- One segment that carries the stream from `n` on. -/
theorem At.emitted {s : Segment} (h : At b A n s) (hu : u ≤ n) (hbare : ¬ Bare s)
    (hend : n + s.data.length + s.flags.fin.toNat = n') : Emitted b A u n n' [s] := by
  refine ⟨by omega, ?_, .inr ⟨s, mem_singleton_self s, hbare, n, hu, h.seq, hend⟩⟩
  intro t ht
  rw [mem_singleton.mp ht]
  exact .inr ⟨n, hu, h, le_of_eq hend⟩

/-- A segment with the next `len` bytes of the stream. -/
theorem at_take {s : Segment} {k len : Nat} (hseq : s.seq = (b + k) % 4294967296)
    (hdata : s.data = (A.drop k).take len) (hroom : k + len ≤ A.length) :
    At b A k s ∧ s.data.length = len := by
  have hlen : s.data.length = len := by
    rw [hdata, length_take, length_drop]
    omega
  refine ⟨⟨hseq, fun _ => ?_, ?_⟩, hlen⟩
  · rw [hlen]
    exact hroom
  · rw [hlen, hdata]

/-- Segments that follow, with a later acknowledgement. -/
theorem Emitted.trans (h : Emitted b A u n n' out) (hu : u ≤ u') (h' : Emitted b A u' n' n'' out') :
    Emitted b A u n n'' (out ++ out') := by
  refine ⟨le_trans h.le h'.le, ?_, ?_⟩
  · intro s hs
    rcases mem_append.mp hs with hs | hs
    · rcases h.each s hs with hbare | ⟨k, hk, hat, hend⟩
      · exact .inl hbare
      · exact .inr ⟨k, hk, hat, le_trans hend h'.le⟩
    · rcases h'.each s hs with hbare | ⟨k, hk, hat, hend⟩
      · exact .inl hbare
      · exact .inr ⟨k, le_trans hu hk, hat, hend⟩
  · rcases h'.reached with heq | ⟨s, hs, hbare, k, hk, hseq, hend⟩
    · rcases h.reached with heq' | ⟨s, hs, hbare, k, hk, hseq, hend⟩
      · exact .inl (heq.trans heq')
      · exact .inr ⟨s, mem_append_left _ hs, hbare, k, hk, hseq, hend.trans heq.symm⟩
    · exact .inr ⟨s, mem_append_right _ hs, hbare, k, le_trans hu hk, hseq, hend⟩

end Emitted

/-! ### `tcp_fire` -/

variable {b : Nat} {A : List UInt8} {u n : Nat} {fin : Bool} {pcb : Pcb}

variable {out : List Segment} {ack : Nat} {q : Pcb} {s : Segment} {c : Sender}

section

variable (h : Flow b A u n fin pcb)

include h

/-- Only the two numbers and the buffer matter. -/
theorem Flow.congr (huna : q.sndUna = pcb.sndUna) (hnxt : q.sndNxt = pcb.sndNxt)
    (htxb : q.txb = pcb.txb) : Flow b A u n fin q where
  una := huna.trans h.una
  nxt := hnxt.trans h.nxt
  le := h.le
  sent_le := h.sent_le
  buf := htxb.trans h.buf
  small := by rw [htxb]; exact h.small
  low := by rw [huna, htxb]; exact h.low

/-- The buffer holds what is not acknowledged. -/
theorem Flow.length_txb : pcb.txb.length = A.length - u := by
  rw [h.buf, length_drop]

/-- The bounds that keep the positions within half of the sequence space. -/
theorem Flow.bounds :
    u ≤ n ∧ n ≤ u + pcb.txb.length + fin.toNat ∧ u + pcb.txb.length + fin.toNat ≤ u + 8193 := by
  have hlen := h.length_txb
  have hfin : fin.toNat ≤ 1 := Bool.toNat_le fin
  have hsmall : pcb.txb.length ≤ 8192 := h.small
  have hle := h.le
  have hsent := h.sent_le
  omega

/-- A part of the buffer is the part of the stream at its position. -/
theorem Flow.part {m seg : Nat} (hm : u ≤ m) (hseg : m + seg ≤ u + pcb.txb.length)
    (hpos : 0 < seg) :
    (pcb.txb.drop (m - u)).take seg = (A.drop m).take seg ∧ m + seg ≤ A.length := by
  have hlen := h.length_txb
  refine ⟨?_, by omega⟩
  rw [h.buf, drop_drop, Nat.add_sub_cancel' hm]

/-- The loop sends the stream from position `m` on, up to some `m'`. -/
theorem fireLoop_emitted (window : Nat) :
    ∀ (fuel m : Nat), u ≤ m → m ≤ u + pcb.txb.length + 1 →
      ∃ m' out, tcpFireLoop pcb (add32 pcb.sndUna pcb.txb.length) window fuel
          ((b + m) % 4294967296) = ((b + m') % 4294967296, out) ∧
        (m' = m ∨ m' ≤ u + pcb.txb.length) ∧ Emitted b A u m m' out ∧
        ∀ s ∈ out, s.flags.fin = false := by
  have hsmall := h.small
  have hbuf : tcpSndBuf = 8192 := rfl
  have hlimit : add32 pcb.sndUna pcb.txb.length = (b + (u + pcb.txb.length)) % 4294967296 := by
    rw [add32, h.una]
    omega
  rw [hlimit]
  intro fuel
  induction fuel with
  -- on the rounds that are left; `m` is the position of the cursor in the stream
  | zero => exact fun m _ _ => ⟨m, [], rfl, .inl rfl, emitted_nil, forall_mem_nil _⟩
  | succ fuel ih =>
    intro m hm hle
    rw [tcpFireLoop]
    simp only
    split
    · rename_i hcond
      rw [Bool.and_eq_true, seqLt_stream (by omega) (by omega)] at hcond
      have havail : sub32 ((b + (u + pcb.txb.length)) % 4294967296) ((b + m) % 4294967296)
          = u + pcb.txb.length - m := sub32_stream (by omega) (by omega)
      have hahead : sub32 ((b + m) % 4294967296) pcb.sndUna = m - u := by
        rw [h.una]
        exact sub32_stream hm (by omega)
      rw [havail, hahead]
      -- the segment: no more than the rest, the maximal size and the window
      generalize hseg : min (min (u + pcb.txb.length - m) tcpMss) window = seg
      have hseg_le : m + seg ≤ u + pcb.txb.length := by omega
      split
      · exact ⟨m, [], rfl, .inl rfl, emitted_nil, forall_mem_nil _⟩
      rename_i hpos
      obtain ⟨hdata, hroom⟩ := h.part hm hseg_le (Nat.pos_of_ne_zero hpos)
      have hcursor : add32 ((b + m) % 4294967296) seg = (b + (m + seg)) % 4294967296 := by
        rw [add32]
        omega
      obtain ⟨m', out, hrest, hbound, hemit, hnofin⟩ := ih (m + seg) (by omega) (by omega)
      rw [hcursor, hdata, hrest]
      refine ⟨m', _, rfl, ?_, ?_, ?_⟩
      · rcases hbound with rfl | hbound
        · exact .inr hseg_le
        · exact .inr hbound
      · obtain ⟨hat, hlen⟩ := at_take
          (s := tcpEmit pcb ((b + m) % 4294967296) pcb.rcvNxt { ack := true } ((A.drop m).take seg))
          rfl rfl hroom
        have hfirst := hat.emitted hm (fun hbare => ?_) (congrArg (m + ·) hlen)
        · exact hfirst.trans le_rfl hemit
        · rw [hbare.1] at hlen
          exact hpos hlen.symm
      · intro s hs
        rcases mem_cons.mp hs with rfl | hs
        · rfl
        · exact hnofin s hs
    · exact ⟨m, [], rfl, .inl rfl, emitted_nil, forall_mem_nil _⟩

/-- `tcp_fire` records what it sent in `snd_nxt`, because the numbers do
not wrap. -/
theorem Flow.fire {now : Nat} :
    ∃ n' q out, tcpFire now pcb = (q, out) ∧ Flow b A u n' fin q ∧ Emitted b A u n n' out ∧
      (∀ s ∈ out, s.flags.fin = false) ∧ q.state = pcb.state ∧ q.active = pcb.active := by
  have hlen := h.length_txb
  have hfin : fin.toNat ≤ 1 := Bool.toNat_le fin
  have hle := h.le
  have hsent := h.sent_le
  have hlow := h.low
  have huna := h.una
  obtain ⟨m, out, hloop, hbound, hemit, hnofin⟩ := fireLoop_emitted h
    (if pcb.sndWnd ≠ 0 then pcb.sndWnd else tcpMss)
    (sub32 (add32 pcb.sndUna pcb.txb.length) pcb.sndNxt) n hle (by omega)
  rw [← h.nxt] at hloop
  have hn := hemit.le
  simp only [tcpFire, hloop]
  split
  · refine ⟨m, _, _, rfl, ⟨huna, rfl, le_trans hle hn, ?_, h.buf, h.small, hlow⟩, hemit, hnofin,
      rfl, rfl⟩
    omega
  -- the cursor is not behind `snd_nxt`, so it has not moved
  rename_i hcmp
  have heq : m = n := by
    rw [h.nxt] at hcmp
    rcases hbound with heq | hbound
    · exact heq
    · omega
  rw [heq] at hemit
  exact ⟨n, _, _, rfl, h, hemit, hnofin, rfl, rfl⟩

/-! ### Acknowledgements -/

section

variable (hack : ack < 4294967296) (hnxt : seqLt pcb.sndNxt ack = false)
  (huna : seqLt pcb.sndUna ack = true)

include hack hnxt huna

/-- An acknowledgement that passes both checks is a position between
`snd_una` and `snd_nxt`. -/
theorem Flow.ack_position :
    u < u + sub32 ack pcb.sndUna ∧ u + sub32 ack pcb.sndUna ≤ n ∧
      ack = (b + (u + sub32 ack pcb.sndUna)) % 4294967296 := by
  obtain ⟨hle, hsent, hnear⟩ := h.bounds
  rw [seqLt, decide_eq_false_iff_not, h.nxt, sub32] at hnxt
  rw [seqLt, decide_eq_true_eq, h.una, sub32] at huna
  rw [h.una, sub32]
  omega

/-- An acknowledgement drops the bytes before it. -/
theorem Flow.advance :
    Flow b A (u + sub32 ack pcb.sndUna) n fin
      { pcb with
        txb := pcb.txb.drop (min (sub32 ack pcb.sndUna) pcb.txb.length), sndUna := ack } := by
  obtain ⟨hpos, hle, hnum⟩ := h.ack_position hack hnxt huna
  have hlen := h.length_txb
  have hlow := h.low
  have hbase := h.una
  generalize sub32 ack pcb.sndUna = t at hpos hle hnum ⊢
  have hdrop : pcb.txb.drop (min t pcb.txb.length) = A.drop (u + t) := by
    by_cases ht : t ≤ pcb.txb.length
    · rw [Nat.min_eq_left ht, h.buf, drop_drop]
    · -- only the FIN lies behind the buffer
      rw [Nat.min_eq_right (by omega), drop_length, drop_of_length_le (by omega)]
  refine ⟨hnum, h.nxt, hle, h.sent_le, hdrop, ?_, ?_⟩
  · rw [length_drop]
    exact le_trans (Nat.sub_le ..) h.small
  · show ack + (pcb.txb.drop (min t pcb.txb.length)).length < 4294967296
    rw [length_drop]
    omega

end

end

/-- What a call did to the sending half: it moved the positions and sent
segments without FIN. -/
structure Moved (b : Nat) (A : List UInt8) (u n : Nat) (fin : Bool) (u' n' : Nat)
    (r : Pcb × List Segment) : Prop where
  flow : Flow b A u' n' fin r.1
  le : u ≤ u'
  emitted : Emitted b A u n n' r.2
  noFin : ∀ s ∈ r.2, s.flags.fin = false

/-- The call answers with bare segments, if at all. -/
theorem Flow.still (h : Flow b A u n fin pcb) (hout : ∀ s ∈ out, Bare s) :
    Moved b A u n fin u n (pcb, out) :=
  ⟨h, le_refl u, emitted_of_bare hout, fun s hs => (hout s hs).2⟩

/-- Nothing is sent. -/
theorem Flow.idle (h : Flow b A u n fin pcb) : Moved b A u n fin u n (pcb, []) := h.still bare_nil

/-- An acknowledgement takes its bytes out of the buffer, and the rest may be sent. -/
theorem Flow.ackAdvance (h : Flow b A u n fin pcb) (now : Nat) (hack : ack < 4294967296)
    (hnxt : seqLt pcb.sndNxt ack = false) :
    ∃ u' n' r, tcpAckAdvance now pcb ack = r ∧ Moved b A u n fin u' n' r ∧
      (u' = u ∨ r.1.sndUna = ack) ∧ r.1.state = pcb.state ∧ r.1.active = pcb.active := by
  simp only [tcpAckAdvance]
  split
  · rename_i huna
    split
    · exact ⟨u, n, _, rfl, h.idle, .inl rfl, rfl, rfl⟩
    have hadv := h.advance hack hnxt huna
    -- the timer fields that are reset here do not matter
    have hfire : ∀ {q}, Flow b A (u + sub32 ack pcb.sndUna) n fin q → q.sndUna = ack →
        q.state = pcb.state → q.active = pcb.active →
        ∃ u' n' r, tcpFire now q = r ∧ Moved b A u n fin u' n' r ∧ (u' = u ∨ r.1.sndUna = ack) ∧
          r.1.state = pcb.state ∧ r.1.active = pcb.active := by
      intro q hflow hnum hstate hactive
      obtain ⟨n', w, out, hw, hfire, hemit, hnofin, hstate', hactive'⟩ := hflow.fire
      refine ⟨_, n', _, hw, ⟨hfire, Nat.le_add_right .., ?_, hnofin⟩, .inr ?_, hstate'.trans hstate,
        hactive'.trans hactive⟩
      · exact emitted_nil.trans (Nat.le_add_right ..) hemit
      · rw [hfire.una, ← hflow.una, hnum]
    split
    · exact hfire (hadv.congr rfl rfl rfl) rfl rfl rfl
    · exact hfire hadv rfl rfl rfl
  · exact ⟨u, n, _, rfl, h.idle, .inl rfl, rfl, rfl⟩

/-! ### Arrivals -/

/-- How an arrival changes the state before the closing transitions. -/
def Onward (p q : Pcb) : Prop :=
  (q.active = p.active ∧ (q.state = p.state ∨ (p.state = .established ∧ q.state = .closeWait))) ∨
    (q.active = false ∧ q.state = .closed)

/-- A segment of an open connection. -/
theorem Flow.inputEstablished (h : Flow b A u n fin pcb) (now seq : Nat) (flags : Flags)
    (data : List UInt8) {ack : Nat} (hack : ack < 4294967296) :
    ∃ u' n' r, tcpInputEstablished now pcb seq flags data ack = r ∧ Moved b A u n fin u' n' r ∧
      (u' = u ∨ (flags.ack = true ∧ r.1.sndUna = ack)) ∧ Onward pcb r.1 := by
  unfold tcpInputEstablished
  split
  · exact ⟨u, n, _, rfl, Flow.idle (h.congr rfl rfl rfl), .inl rfl, .inr ⟨rfl, rfl⟩⟩
  split
  · exact ⟨u, n, _, rfl, h.idle, .inl rfl, .inl ⟨rfl, .inl rfl⟩⟩
  split
  · exact ⟨u, n, _, rfl, h.still bare_tcpAck, .inl rfl, .inl ⟨rfl, .inl rfl⟩⟩
  rename_i hnxt
  -- first the acknowledgement, then the payload, which leaves the sending side alone
  generalize hr : (if flags.ack = true then tcpAckAdvance now pcb ack else (pcb, [])) = r
  have hadv : ∃ u' n', Moved b A u n fin u' n' r ∧
      (u' = u ∨ (flags.ack = true ∧ r.1.sndUna = ack)) ∧ r.1.state = pcb.state ∧
      r.1.active = pcb.active := by
    rw [← hr]
    split
    · rename_i hflag
      rw [hflag, Bool.true_and, Bool.not_eq_true] at hnxt
      obtain ⟨u', n', _, rfl, hmoved, hmove, hstate, hactive⟩ := h.ackAdvance now hack hnxt
      exact ⟨u', n', hmoved, hmove.imp_right fun hm => ⟨hflag, hm⟩, hstate, hactive⟩
    · exact ⟨u, n, h.idle, .inl rfl, rfl, rfl⟩
  obtain ⟨u', n', hmoved, hmove, hstate, hactive⟩ := hadv
  have hpay := sameSend_tcpPayload r.1 seq flags data
  refine ⟨u', n', _, rfl, ⟨hmoved.flow.congr hpay.una hpay.nxt hpay.txb, hmoved.le, ?_, ?_⟩, ?_, ?_⟩
  · exact hmoved.emitted.trans hmoved.le (emitted_of_bare hpay.bare)
  · intro s hs
    rcases mem_append.mp hs with hs | hs
    · exact hmoved.noFin s hs
    · exact (hpay.bare s hs).2
  · rw [hpay.una]
    exact hmove
  · refine .inl ⟨hpay.active.trans hactive, ?_⟩
    rw [← hstate]
    exact hpay.state

/-- What the state says about the positions: no FIN was sent before the
connection closes, nothing before it is open, and a FIN that waits for
its acknowledgement is not acknowledged. -/
structure Phase (A : List UInt8) (u n : Nat) (fin : Bool) (pcb : Pcb) : Prop where
  noFin : pcb.state = .synSent ∨ pcb.state = .synRcvd ∨ pcb.state = .established ∨
    pcb.state = .closeWait → fin = false
  fresh : pcb.state = .synSent → A = [] ∧ n = 0
  pending : pcb.active = true → pcb.state = .finWait1 ∨ pcb.state = .lastAck → u < n

variable {A data : List UInt8} {u n b u' n' now : Nat} {fin : Bool} {pcb : Pcb} {c' : Sender}

/-- A state that says nothing about the positions. -/
theorem phase_done (h : pcb.state = .timeWait ∨ pcb.state = .finWait2 ∨ pcb.state = .closed) :
    Phase A u n fin pcb := by
  rcases h with h | h | h
  all_goals
    refine ⟨?_, ?_, ?_⟩
    · simp [h]
    · simp [h]
    · simp [h]

/-- A state without a FIN of this side. -/
theorem phase_open (h : pcb.state = .established ∨ pcb.state = .closeWait ∨ pcb.state = .closed) :
    Phase A u n false pcb := by
  refine ⟨fun _ => rfl, ?_, ?_⟩
  all_goals rcases h with h | h | h <;> simp [h]

/-- What a call did, with the state it ended in. -/
structure Stepped (b : Nat) (A : List UInt8) (u n : Nat) (fin : Bool) (u' n' : Nat) (fin' : Bool)
    (r : Pcb × List Segment) : Prop where
  flow : Flow b A u' n' fin' r.1
  le : u ≤ u'
  emitted : Emitted b A u n n' r.2
  finOut : fin' = (fin || r.2.any fun s => s.flags.fin)
  phase : Phase A u' n' fin' r.1

theorem any_fin_eq_false (h : ∀ s ∈ out, s.flags.fin = false) :
    (out.any fun s => s.flags.fin) = false := by
  rw [any_eq_false]
  intro s hs
  rw [h s hs]
  exact Bool.false_ne_true

/-- The state of the connection fits what was sent. -/
theorem Moved.withPhase {r : Pcb × List Segment} (h : Moved b A u n fin u' n' r)
    (hphase : Phase A u' n' fin r.1) : Stepped b A u n fin u' n' fin r :=
  ⟨h.flow, h.le, h.emitted, by rw [any_fin_eq_false h.noFin, Bool.or_false], hphase⟩

/-- A FIN takes the number `snd_nxt`, and waits for its acknowledgement. -/
theorem Flow.sendFin (h : Flow b A u n false pcb) (huna : q.sndUna = pcb.sndUna)
    (hnxt : q.sndNxt = add32 pcb.sndNxt 1) (htxb : q.txb = pcb.txb) (hseq : s.seq = pcb.sndNxt)
    (hdata : s.data = []) (hfin : s.flags.fin = true)
    (hstate : q.state = .finWait1 ∨ q.state = .lastAck) :
    Stepped b A u n false u (n + 1) true (q, [s]) := by
  have hat : At b A n s := ⟨hseq.trans h.nxt, fun hne => absurd hdata hne, by rw [hdata]; rfl⟩
  refine ⟨⟨huna.trans h.una, ?_, Nat.le_succ_of_le h.le, Nat.succ_le_succ h.sent_le,
    htxb.trans h.buf, ?_, ?_⟩, le_refl u, hat.emitted h.le (fun hbare => ?_) ?_, ?_,
    ⟨?_, ?_, fun _ _ => Nat.lt_succ_of_le h.le⟩⟩
  · rw [hnxt, h.nxt, add32]
    omega
  · rw [htxb]
    exact h.small
  · rw [huna, htxb]
    exact h.low
  · rw [hbare.2] at hfin
    cases hfin
  · rw [hdata, hfin]
    rfl
  · simp [hfin]
  · rcases hstate with hs | hs <;> simp [hs]
  · rcases hstate with hs | hs <;> simp [hs]

/-- The closing transitions of `tcp_input`. A connection that stays in
FIN-WAIT-1 or LAST-ACK has seen no acknowledgement of its FIN. -/
theorem Flow.closing (h : Flow b A u n fin q) {now : Nat} {flags : Flags} {ack : Nat}
    (hopened : q.state ≠ .synSent)
    (hnoFin : q.state = .synRcvd ∨ q.state = .established ∨ q.state = .closeWait → fin = false)
    (hwait : q.active = true → q.state = .finWait1 → flags.ack = false → u < n)
    (hlast : q.active = true → q.state = .lastAck → ¬ (flags.ack = true ∧ ack = q.sndNxt) → u < n) :
    ∃ n' fin', Stepped b A u n fin u n' fin' (tcpClosing now q flags ack) := by
  -- a transition that only changes the state and the timer
  have hquiet : ∀ {q' : Pcb} {out : List Segment}, q'.sndUna = q.sndUna → q'.sndNxt = q.sndNxt →
      q'.txb = q.txb → (∀ s ∈ out, Bare s) → Phase A u n fin q' →
      ∃ n' fin', Stepped b A u n fin u n' fin' (q', out) := by
    intro q' out huna hnxt htxb hout hphase
    exact ⟨n, fin, ((h.congr huna hnxt htxb).still hout).withPhase hphase⟩
  unfold tcpClosing
  split
  · exact hquiet rfl rfl rfl bare_tcpAck (phase_done (.inl rfl))
  split
  · exact hquiet rfl rfl rfl bare_nil (phase_done (.inr (.inl rfl)))
  rename_i hnoAck
  split
  · exact hquiet rfl rfl rfl bare_tcpAck (phase_done (.inl rfl))
  split
  · -- CLOSE-WAIT: the FIN of this side
    rename_i hclose
    obtain rfl := hnoFin (.inr (.inr hclose))
    exact ⟨n + 1, true, h.sendFin rfl rfl rfl rfl rfl rfl (.inr rfl)⟩
  · split
    · exact hquiet rfl rfl rfl bare_nil
        ⟨fun hs => hnoFin (hs.resolve_left hopened), fun hs => absurd hs hopened, nofun⟩
    rename_i hnotLast
    refine hquiet rfl rfl rfl bare_nil
      ⟨fun hs => hnoFin (hs.resolve_left hopened), fun hs => absurd hs hopened, ?_⟩
    intro hactive hstate
    rcases hstate with hstate | hstate
    · exact hwait hactive hstate (Bool.eq_false_iff.mpr fun ha => hnoAck ⟨hstate, ha⟩)
    · exact hlast hactive hstate fun ha => hnotLast ⟨hstate, ha⟩

/-- A step after segments were sent. -/
theorem Stepped.after {u'' n'' : Nat} {fin' : Bool} {out' : List Segment} {p : Pcb}
    (h : Stepped b A u' n' fin u'' n'' fin' (q, out')) (hmoved : Moved b A u n fin u' n' (p, out)) :
    Stepped b A u n fin u'' n'' fin' (q, out ++ out') := by
  refine ⟨h.flow, le_trans hmoved.le h.le, hmoved.emitted.trans hmoved.le h.emitted, ?_, h.phase⟩
  rw [h.finOut, any_append, any_fin_eq_false hmoved.noFin, Bool.false_or]

/-- An arrival behind the handshake: `tcp_input_established`, then the
closing transitions. -/
theorem Flow.inputOpen (h : Flow b A u n fin pcb) (hphase : Phase A u n fin pcb) {now : Nat}
    {s : Segment} (hack : s.ack < 4294967296) (hstate : pcb.state ≠ .synSent)
    {r : Pcb × List Segment} (hr : tcpInputEstablished now pcb s.seq s.flags s.data s.ack = r) :
    ∃ u' n' fin', Stepped b A u n fin u' n' fin' ((tcpClosing now r.1 s.flags s.ack).1,
      r.2 ++ (tcpClosing now r.1 s.flags s.ack).2) := by
  obtain ⟨u', n', _, rfl, hmoved, hmove, honward⟩ :=
    h.inputEstablished now s.seq s.flags s.data hack
  rw [hr] at hmoved hmove honward
  have hn := hmoved.emitted.le
  -- a state that is neither ESTABLISHED nor CLOSE-WAIT was there before
  have hback : r.1.active = true → r.1.state ≠ .closeWait → r.1.state ≠ .closed →
      pcb.active = true ∧ pcb.state = r.1.state := by
    intro hactive hne hopen
    rcases honward with ⟨ha, hs | ⟨-, hs⟩⟩ | ⟨-, hs⟩
    · exact ⟨ha ▸ hactive, hs.symm⟩
    · exact absurd hs hne
    · exact absurd hs hopen
  have hclosing : ∃ n'' fin', Stepped b A u' n' fin u' n'' fin'
      (tcpClosing now r.1 s.flags s.ack) := by
    refine hmoved.flow.closing ?_ ?_ ?_ ?_
    · rcases honward with ⟨-, hs | ⟨-, hs⟩⟩ | ⟨-, hs⟩
      · exact hs ▸ hstate
      · rw [hs]
        nofun
      · rw [hs]
        nofun
    · intro hopen
      rcases honward with ⟨-, hs | ⟨hest, -⟩⟩ | ⟨-, hs⟩
      · exact hphase.noFin (.inr (hs ▸ hopen))
      · exact hphase.noFin (.inr (.inr (.inl hest)))
      · rw [hs] at hopen
        simp at hopen
    · intro hactive hwait hno
      obtain ⟨hactive', hstate'⟩ := hback hactive (by rw [hwait]; nofun) (by rw [hwait]; nofun)
      have hpend := hphase.pending hactive' (.inl (hstate'.trans hwait))
      rcases hmove with rfl | ⟨hflag, -⟩
      · exact lt_of_lt_of_le hpend hn
      · rw [hno] at hflag
        cases hflag
    · intro hactive hlast hno
      obtain ⟨hactive', hstate'⟩ := hback hactive (by rw [hlast]; nofun) (by rw [hlast]; nofun)
      have hpend := hphase.pending hactive' (.inr (hstate'.trans hlast))
      rcases hmove with rfl | ⟨hflag, huna⟩
      · exact lt_of_lt_of_le hpend hn
      -- the acknowledgement is not the one of the FIN
      refine lt_of_le_of_ne hmoved.flow.le fun heq => hno ⟨hflag, ?_⟩
      rw [← huna, hmoved.flow.una, hmoved.flow.nxt, heq]
  obtain ⟨n'', fin', hstepped⟩ := hclosing
  exact ⟨u', n'', fin', hstepped.after hmoved⟩

/-- The ACK that ends the passive open. -/
theorem Flow.inputAccepted (h : Flow b A u n false pcb) {now : Nat} {s : Segment}
    (hack : s.ack < 4294967296) (hstate : pcb.state = .established) :
    ∃ u' n', Stepped b A u n false u' n' false
      (tcpInputEstablished now pcb s.seq s.flags s.data s.ack) := by
  obtain ⟨u', n', r, hr, hmoved, -, honward⟩ := h.inputEstablished now s.seq s.flags s.data hack
  rw [hr]
  have hopen : r.1.state = .established ∨ r.1.state = .closeWait ∨ r.1.state = .closed := by
    rcases honward with ⟨-, hs | ⟨-, hs⟩⟩ | ⟨-, hs⟩
    · exact .inl (hs.trans hstate)
    · exact .inr (.inl hs)
    · exact .inr (.inr hs)
  exact ⟨u', n', hmoved.withPhase (phase_open hopen)⟩

/-- An arrival behind the active open. -/
theorem Flow.input (h : Flow b A u n fin pcb) (hphase : Phase A u n fin pcb) {now : Nat}
    {s : Segment} (hack : s.ack < 4294967296) (hstate : pcb.state ≠ .synSent) :
    ∃ u' n' fin', Stepped b A u n fin u' n' fin' (tcpInput now pcb s) := by
  -- the new window does not matter
  have hwnd : ∀ w, Flow b A u n fin { pcb with sndWnd := w } := fun w => h.congr rfl rfl rfl
  have hwndPhase : ∀ w, Phase A u n fin { pcb with sndWnd := w } := fun w =>
    ⟨hphase.noFin, hphase.fresh, hphase.pending⟩
  simp only [tcpInput]
  split
  · exact ⟨u, n, fin, h.idle.withPhase hphase⟩
  split
  · rename_i hsyn
    exact absurd hsyn hstate
  · rename_i hsyn
    split
    · obtain rfl := hphase.noFin (.inr (.inl hsyn))
      have hopen : Flow b A u n false { pcb with
          sndWnd := if s.wnd ≠ 0 then s.wnd else tcpMss, state := .established, retry := 0,
          tmo := 0 } := h.congr rfl rfl rfl
      obtain ⟨u', n', hstepped⟩ := hopen.inputAccepted hack rfl
      exact ⟨u', n', false, hstepped⟩
    · exact ⟨u, n, fin, (hwnd _).idle.withPhase (hwndPhase _)⟩
  · exact (hwnd (if s.wnd ≠ 0 then s.wnd else tcpMss)).inputOpen (hwndPhase _) hack hstate rfl

/-! ### The other calls -/

/-- `tcp_send` puts the accepted bytes behind the buffer. -/
theorem Flow.accept (h : Flow b A u n fin pcb) (hfin : fin = false)
    (hroom : pcb.txb.length + data.length ≤ tcpSndBuf)
    (hlow : pcb.sndUna + pcb.txb.length + data.length < 4294967296) :
    Flow b (A ++ data) u n fin { pcb with txb := pcb.txb ++ data } := by
  have hle : u ≤ A.length := by
    have := h.sent_le
    rw [hfin] at this
    exact le_trans h.le this
  refine ⟨h.una, h.nxt, h.le, ?_, ?_, ?_, ?_⟩
  · rw [length_append]
    exact le_trans h.sent_le (by omega)
  · rw [drop_append_of_le_length hle, h.buf]
  · rw [length_append]
    exact hroom
  · show pcb.sndUna + (pcb.txb ++ data).length < 4294967296
    rw [length_append]
    omega

/-- The retransmission sends the stream from position `k` on again. -/
theorem resend_emitted (pcb : Pcb) (fuel k : Nat) {bytes : List UInt8} (hbytes : bytes = A.drop k) :
    ∀ s ∈ tcpResend pcb fuel ((b + k) % 4294967296) bytes, s.flags.fin = false ∧
      ∃ j, k ≤ j ∧ At b A j s ∧ j + s.data.length ≤ A.length := by
  induction fuel generalizing k bytes with
  | zero => nofun
  | succ fuel ih =>
    intro s hs
    cases bytes with
    | nil => cases hs
    | cons x xs =>
      have hlen : (x :: xs).length = A.length - k := by rw [hbytes, length_drop]
      have hpos : 0 < (x :: xs).length := Nat.succ_pos _
      simp only [tcpResend] at hs
      generalize hseg : min (x :: xs).length tcpMss = seg at hs
      rcases mem_cons.mp hs with rfl | hs
      · obtain ⟨hat, hlen⟩ := at_take
          (s := tcpEmit pcb ((b + k) % 4294967296) pcb.rcvNxt { ack := true } ((x :: xs).take seg))
          rfl (congrArg (take seg) hbytes) (by omega)
        exact ⟨rfl, k, le_refl k, hat, by omega⟩
      · have hcursor : add32 ((b + k) % 4294967296) seg = (b + (k + seg)) % 4294967296 := by
          rw [add32]
          omega
        rw [hcursor] at hs
        have hrest : (x :: xs).drop seg = A.drop (k + seg) := by rw [hbytes, drop_drop]
        obtain ⟨hfin, j, hj, hat⟩ := ih (k + seg) hrest s hs
        exact ⟨hfin, j, by omega, hat⟩

section

variable (h : Flow b A u n fin pcb)

include h

/-- A retransmission of a buffer that was sent before. -/
theorem Flow.resend (hall : pcb.txb.length ≤ n - u) {fuel : Nat} :
    Emitted b A u n n (tcpResend pcb fuel pcb.sndUna pcb.txb) ∧
      ∀ s ∈ tcpResend pcb fuel pcb.sndUna pcb.txb, s.flags.fin = false := by
  have hlen := h.length_txb
  have hle := h.le
  have hseg := resend_emitted (b := b) pcb fuel u h.buf
  rw [← h.una] at hseg
  refine ⟨⟨le_refl n, fun s hs => ?_, .inl rfl⟩, fun s hs => (hseg s hs).1⟩
  obtain ⟨hfin, k, hk, hat, hend⟩ := hseg s hs
  refine .inr ⟨k, hk, hat, ?_⟩
  rw [hfin]
  show k + s.data.length + 0 ≤ n
  omega

section

variable (hphase : Phase A u n fin pcb) (huna : q.sndUna = pcb.sndUna)
  (hnxt : q.sndNxt = pcb.sndNxt) (htxb : q.txb = pcb.txb) (hstate : q.state = pcb.state)

include hphase huna hnxt htxb hstate

/-- A call that at most changes the timer, or ends the connection. -/
theorem Flow.quiet (hactive : q.active = true → pcb.active = true) (hout : ∀ s ∈ out, Bare s) :
    Stepped b A u n fin u n fin (q, out) := by
  refine ((h.congr huna hnxt htxb).still hout).withPhase ⟨?_, ?_, ?_⟩
  · rw [hstate]
    exact hphase.noFin
  · rw [hstate]
    exact hphase.fresh
  · rw [hstate]
    exact fun ha => hphase.pending (hactive ha)

/-- A call that gives the connection up. -/
theorem Flow.ended (hdead : q.active = false) : Stepped b A u n fin u n fin (q, []) := by
  refine h.quiet hphase huna hnxt htxb hstate (fun hactive => ?_) bare_nil
  rw [hdead] at hactive
  cases hactive

end

/-- `seq_lt(snd_una, snd_nxt)` compares the positions. -/
theorem Flow.seqLt_iff : seqLt pcb.sndUna pcb.sndNxt = true ↔ u < n := by
  obtain ⟨hle, hsent, hnear⟩ := h.bounds
  rw [h.una, h.nxt]
  exact seqLt_stream (by omega) (by omega)

/-- The distance from `snd_una` to `snd_nxt`. -/
theorem Flow.distance :
    sub32 pcb.sndNxt pcb.sndUna = n - u ∧ n - u ≤ pcb.txb.length + fin.toNat ∧ n ≤ u + 8193 := by
  obtain ⟨hle, hsent, hnear⟩ := h.bounds
  rw [h.una, h.nxt, sub32_stream hle (by omega)]
  exact ⟨rfl, by omega, by omega⟩

section

variable (hphase : Phase A u n fin pcb) (now : Nat)

include hphase

/-- A read sends at most a new window. -/
theorem Flow.recv {len : Nat} : Stepped b A u n fin u n fin (tcpRecv pcb len).2 := by
  simp only [tcpRecv]
  split
  · exact h.idle.withPhase hphase
  refine h.quiet hphase rfl rfl rfl rfl (fun ha => ha) fun s hs => ?_
  split at hs
  · exact bare_tcpAck s hs
  · cases hs

/-- A tick sends again what was sent, if the whole buffer was. -/
theorem Flow.tick
    (hall : pcb.tmo ≠ 0 → seqLt now pcb.tmo = false →
      pcb.txb.length ≤ sub32 pcb.sndNxt pcb.sndUna) :
    Stepped b A u n fin u n fin (tcpTick now pcb) := by
  simp only [tcpTick]
  split
  · exact h.idle.withPhase hphase
  rename_i hdue
  rw [not_or, not_or, Bool.not_eq_false, Bool.not_eq_true] at hdue
  obtain ⟨hactive, htmo, hnow⟩ := hdue
  split
  · split
    · exact h.ended hphase rfl rfl rfl rfl rfl
    refine h.quiet hphase rfl rfl rfl rfl (fun ha => ha) fun s hs => ?_
    rw [mem_singleton.mp hs]
    exact ⟨rfl, rfl⟩
  · split
    · split
      · exact h.ended hphase rfl rfl rfl rfl rfl
      have hsent := hall htmo hnow
      rw [h.distance.1] at hsent
      obtain ⟨hemit, hnofin⟩ := h.resend hsent
      exact Moved.withPhase ⟨h.congr rfl rfl rfl, le_refl u, hemit, hnofin⟩
        ⟨hphase.noFin, hphase.fresh, hphase.pending⟩
    · rename_i hdone
      split
      · -- a FIN that waits for its acknowledgement keeps the first branch open
        rename_i hwait
        exact absurd (h.seqLt_iff.mpr (hphase.pending hactive hwait)) hdone
      · split
        · exact h.ended hphase rfl rfl rfl rfl rfl
        · exact h.idle.withPhase hphase

/-- The tick of a child that waits for its handshake repeats a bare segment. -/
theorem Flow.tickChild : Stepped b A u n fin u n fin (tcpTickChild now pcb) := by
  simp only [tcpTickChild]
  split
  · rename_i hdue
    refine h.quiet hphase rfl rfl rfl rfl (fun _ => hdue.1) fun s hs => ?_
    rw [mem_singleton.mp hs]
    exact ⟨rfl, rfl⟩
  · exact h.idle.withPhase hphase

/-- Closing sends the rest, and a FIN behind it. -/
theorem Flow.close : ∃ n' fin', Stepped b A u n fin u n' fin' (tcpClose now pcb) := by
  unfold tcpClose
  split
  · rename_i hest
    obtain rfl := hphase.noFin (.inr (.inr (.inl hest)))
    exact ⟨n + 1, true, h.sendFin rfl rfl rfl rfl rfl rfl (.inl rfl)⟩
  · split
    · exact ⟨n, fin, Moved.withPhase (Flow.idle (h.congr rfl rfl rfl))
        (phase_done (.inr (.inr rfl)))⟩
    · exact ⟨n, fin, h.idle.withPhase hphase⟩

/-- So does a shutdown of the sending side. -/
theorem Flow.shutdown (rd wr : Bool) :
    ∃ n' fin', Stepped b A u n fin u n' fin' (tcpShutdown now pcb rd wr) := by
  -- closing the receiving direction sets a flag only
  have hrd : ∀ {n' : Nat} {fin' : Bool} {q : Pcb} {out : List Segment},
      Stepped b A u n fin u n' fin' (q, out) →
      Stepped b A u n fin u n' fin' (if rd then { q with finRcvd := true } else q, out) := by
    intro n' fin' q out hs
    split
    · exact ⟨hs.flow.congr rfl rfl rfl, hs.le, hs.emitted, hs.finOut,
        hs.phase.noFin, hs.phase.fresh, hs.phase.pending⟩
    · exact hs
  by_cases hwr : wr = true ∧ (pcb.state = .established ∨ pcb.state = .closeWait)
  · simp only [tcpShutdown, if_pos hwr]
    have hno : fin = false := by
      rcases hwr.2 with hst | hst
      · exact hphase.noFin (.inr (.inr (.inl hst)))
      · exact hphase.noFin (.inr (.inr (.inr hst)))
    subst hno
    refine ⟨n + 1, true, hrd (h.sendFin rfl rfl rfl rfl rfl rfl ?_)⟩
    exact (ite_eq_or_eq ..).imp id id
  · simp only [tcpShutdown, if_neg hwr]
    exact ⟨n, fin, hrd (h.idle.withPhase hphase)⟩

end

end

/-! ### Runs -/

/-- The invariant of a run. -/
structure Sending (c : Sender) : Prop where
  flow : Flow c.base c.accepted c.acked c.sent c.finOut c.pcb
  phase : Phase c.accepted c.acked c.sent c.finOut c.pcb
  numbered : ∀ s ∈ c.out, s.data ≠ [] → ∃ k, At c.base c.accepted k s

/-- The maximum over a list, when an element reaches it. -/
theorem foldl_max_eq {α : Type} {f : α → Nat} {l : List α} {m N : Nat} (hm : m ≤ N)
    (hle : ∀ a ∈ l, f a ≤ N) (hreach : N = m ∨ ∃ a ∈ l, f a = N) :
    l.foldl (fun m a => max m (f a)) m = N := by
  induction l generalizing m with
  | nil =>
    rcases hreach with heq | ⟨a, ha, -⟩
    · exact heq.symm
    · cases ha
  | cons a l ih =>
    have ha := hle a mem_cons_self
    refine ih (Nat.max_le.mpr ⟨hm, ha⟩) (fun x hx => hle x (mem_cons_of_mem a hx)) ?_
    rcases hreach with rfl | ⟨x, hx, hfx⟩
    · exact .inl (Nat.max_eq_left ha).symm
    rcases mem_cons.mp hx with rfl | hx
    · exact .inl ((Nat.max_eq_right (hfx ▸ hm)).trans hfx).symm
    · exact .inr ⟨x, hx, hfx⟩

/-- Bytes that follow do not change what a segment carries. -/
theorem At.append {k : Nat} (h : At b A k s) (hne : s.data ≠ []) (data : List UInt8) :
    At b (A ++ data) k s := by
  have hroom := h.room hne
  refine ⟨h.seq, fun _ => ?_, ?_⟩
  · rw [length_append]
    omega
  · rw [drop_append_of_le_length (by omega), take_append_of_le_length]
    · exact h.data
    · rw [length_drop]
      omega

section Next
variable {c : Sender} {data : List UInt8} {r : Pcb × List Segment} {u n : Nat} {fin : Bool}

/-- The history that is read off a call agrees with the positions. -/
theorem Sending.next (h : Sending c)
    (hstep : Stepped c.base (c.accepted ++ data) c.acked c.sent c.finOut u n fin r)
    (hnear : n < c.acked + 4294967296) :
    Sending (c.next data r) := by
  have hpos : ∀ k, c.acked ≤ k → k < c.acked + 4294967296 →
      c.position ((c.base + k) % 4294967296) = k := by
    intro k hk hlt
    rw [Sender.position, h.flow.una, sub32_stream hk hlt]
    exact Nat.add_sub_cancel' hk
  have hacked : (c.next data r).acked = u := by
    show c.position r.1.sndUna = u
    rw [hstep.flow.una]
    have := hstep.flow.le
    exact hpos u hstep.le (by omega)
  have hend : ∀ s ∈ r.2, ¬ Bare s → ∀ k, c.acked ≤ k → s.seq = (c.base + k) % 4294967296 →
      k ≤ n → c.segEnd s = k + s.data.length + s.flags.fin.toNat := by
    intro s _ hbare k hk hseq hle
    rw [Sender.segEnd, if_neg hbare, hseq, hpos k hk (by omega)]
  -- the ghost counter is the largest end of a segment, which the step has reached
  have hsent : (c.next data r).sent = n := by
    refine foldl_max_eq hstep.emitted.le (fun s hs => ?_) ?_
    · by_cases hbare : Bare s
      · rw [Sender.segEnd, if_pos hbare]
        exact Nat.zero_le n
      rcases hstep.emitted.each s hs with hb | ⟨k, hk, hat, hle⟩
      · exact absurd hb hbare
      · rw [hend s hs hbare k hk hat.seq (by omega)]
        exact hle
    · refine hstep.emitted.reached.imp_right ?_
      rintro ⟨s, hs, hbare, k, hk, hseq, heq⟩
      exact ⟨s, hs, (hend s hs hbare k hk hseq (by omega)).trans heq⟩
  have hfin : (c.next data r).finOut = fin := hstep.finOut.symm
  refine ⟨?_, ?_, ?_⟩
  · rw [hacked, hsent, hfin]
    exact hstep.flow
  · rw [hacked, hsent, hfin]
    exact hstep.phase
  · intro s hs hne
    rcases mem_append.mp hs with hs | hs
    · obtain ⟨k, hat⟩ := h.numbered s hs hne
      exact ⟨k, hat.append hne data⟩
    · rcases hstep.emitted.each s hs with hbare | ⟨k, -, hat, -⟩
      · exact absurd hbare.1 hne
      · exact ⟨k, hat⟩

/-- A call that accepts nothing. -/
theorem Sending.nextNil (h : Sending c)
    (hstep : Stepped c.base c.accepted c.acked c.sent c.finOut u n fin r) :
    Sending (c.next [] r) := by
  have hlen := h.flow.length_txb
  have hsmall : c.pcb.txb.length ≤ 8192 := h.flow.small
  have hle := hstep.flow.sent_le
  have hfin : fin.toNat ≤ 1 := Bool.toNat_le fin
  rw [← append_nil c.accepted] at hstep
  exact h.next hstep (by omega)

end Next

/-- A connection that has accepted and sent nothing. -/
theorem sending_fresh (hbase : c.base < 4294967296) (huna : c.pcb.sndUna = c.base)
    (hnxt : c.pcb.sndNxt = c.base) (htxb : c.pcb.txb = []) (haccepted : c.accepted = [])
    (hacked : c.acked = 0) (hsent : c.sent = 0) (hfin : c.finOut = false)
    (hstate : ¬ (c.pcb.state = .finWait1 ∨ c.pcb.state = .lastAck))
    (hout : ∀ s ∈ c.out, s.data = []) : Sending c := by
  have hmod : c.base = (c.base + 0) % 4294967296 := (Nat.mod_eq_of_lt hbase).symm
  refine ⟨⟨?_, ?_, ?_, ?_, ?_, ?_, ?_⟩,
    ⟨fun _ => hfin, fun _ => ⟨haccepted, hsent⟩, fun _ hs => absurd hs hstate⟩,
    fun s hs hne => absurd (hout s hs) hne⟩
  · rw [hacked, huna]
    exact hmod
  · rw [hsent, hnxt]
    exact hmod
  · rw [hacked]
    exact Nat.zero_le _
  · rw [hsent]
    exact Nat.zero_le _
  · rw [htxb, haccepted, drop_nil]
  · rw [htxb]
    exact Nat.zero_le _
  · rw [htxb, huna]
    exact hbase

/-- The invariant holds at the start. -/
theorem sending_start (h : SenderStart c) : Sending c := by
  have hlt : ∀ iss, add32 iss 1 < 4294967296 := fun iss => Nat.mod_lt _ (by decide)
  cases h with
  | connect now iss pcb =>
    exact sending_fresh (hlt iss) rfl rfl rfl rfl rfl rfl rfl nofun (forall_mem_singleton.mpr rfl)
  | accept now iss seq =>
    exact sending_fresh (hlt iss) rfl rfl rfl rfl rfl rfl rfl nofun (forall_mem_singleton.mpr rfl)

/-- The history after an arrival. -/
theorem sendStep_arrive (hstep : sendStep c (.arrive now s) = some c') :
    s.ack < 4294967296 ∧
      c' = if c.pcb.state = .synSent ∧ (tcpInput now c.pcb s).1.state ≠ .synSent then
          { c.next [] (tcpInput now c.pcb s) with
            base := (tcpInput now c.pcb s).1.sndUna, acked := 0 }
        else c.next [] (tcpInput now c.pcb s) := by
  obtain ⟨o, ho, rfl⟩ := Option.map_eq_some_iff.mp hstep
  obtain ⟨⟨-, hack, -⟩, ho⟩ := Option.ite_none_right_eq_some.mp ho
  cases ho
  refine ⟨hack, ?_⟩
  simp only [Event.segments, ne_eq, cons_ne_nil, not_false_eq_true, true_and]

/-- An arrival in SYN-SENT keeps the invariant. The SYN|ACK starts the
stream at its number. -/
theorem Sending.synSent (h : Sending c) (hstate : c.pcb.state = .synSent)
    (hstep : sendStep c (.arrive now s) = some c') : Sending c' := by
  obtain ⟨hack, rfl⟩ := sendStep_arrive hstep
  obtain ⟨hempty, hzero⟩ := h.phase.fresh hstate
  have hno := h.phase.noFin (.inl hstate)
  rcases tcpInput_waiting now (.inl hstate) with
    ⟨w, hr⟩ | ⟨q, out, hr, -, -, huna, hnxt, htxb, hopen, -, -, -, hbare⟩
  · rw [hr, if_neg fun hne => hne.2 hstate]
    exact h.nextNil (h.flow.quiet h.phase rfl rfl rfl rfl (fun ha => ha) bare_nil)
  · rw [hr]
    have hne : q.state ≠ .synSent := by
      rcases hopen with hs | hs <;> rw [hs] <;> nofun
    rw [if_pos ⟨hstate, hne⟩]
    refine sending_fresh ?_ rfl ?_ ?_ ?_ rfl ?_ ?_ ?_ fun t ht => ?_
    · rw [huna]
      exact hack
    · exact hnxt.trans huna.symm
    · show q.txb = []
      rw [htxb, h.flow.buf, hempty, drop_nil]
    · show c.accepted ++ [] = []
      rw [hempty, append_nil]
    · refine foldl_max_eq (le_of_eq hzero) (fun t ht => ?_) (.inl hzero.symm)
      rw [Sender.segEnd, if_pos (hbare t ht)]
    · show (c.finOut || out.any fun t => t.flags.fin) = false
      rw [hno, any_fin_eq_false fun t ht => (hbare t ht).2]
      rfl
    · show ¬ (q.state = .finWait1 ∨ q.state = .lastAck)
      rcases hopen with hs | hs <;> rw [hs] <;> nofun
    · rcases mem_append.mp ht with ht | ht
      · -- nothing was accepted, so nothing was sent
        by_contra hdata
        obtain ⟨k, hat⟩ := h.numbered t ht hdata
        have hroom := hat.room hdata
        rw [hempty, length_nil] at hroom
        exact hdata (length_eq_zero_iff.mp (by omega))
      · exact (hbare t ht).1

/-- `tcp_send` below the end of the sequence space. -/
theorem Sending.send (h : Sending c)
    (hlow : c.pcb.sndUna + c.pcb.txb.length + data.length < 4294967296)
    (hstep : sendStep c (.send now data) = some c') : Sending c' := by
  cases hstep
  show Sending (c.next (if (tcpSend now c.pcb data).1.isSome then data else [])
    (tcpSend now c.pcb data).2)
  by_cases hrefused : c.pcb.state ≠ .established ∨ data.length = 0
  · rw [tcpSend, if_pos hrefused]
    exact h.nextNil (h.flow.idle.withPhase h.phase)
  by_cases hfull : tcpSndBuf - c.pcb.txb.length < data.length
  · rw [tcpSend, if_neg hrefused, if_pos hfull]
    exact h.nextNil (h.flow.idle.withPhase h.phase)
  simp only [tcpSend, if_neg hrefused, if_neg hfull, Option.isSome_some, if_true]
  rw [not_or, not_not] at hrefused
  have hest := hrefused.1
  have hfin := h.phase.noFin (.inr (.inr (.inl hest)))
  obtain ⟨n, q, out, hfire, hflow, hemit, hnofin, hstate, -⟩ :=
    (h.flow.accept hfin (by omega) hlow).fire
  rw [hfire]
  -- the connection stays ESTABLISHED
  have hphase : Phase (c.accepted ++ data) c.acked n c.finOut q := by
    rw [hfin]
    exact phase_open (.inl (hstate.trans hest))
  have hmoved : Moved c.base (c.accepted ++ data) c.acked c.sent c.finOut c.acked n (q, out) :=
    ⟨hflow, le_rfl, hemit, hnofin⟩
  have hnear := hflow.distance.2.2
  exact h.next (hmoved.withPhase hphase) (by omega)

/-- Every event keeps the invariant. -/
theorem Sending.step {e : Event} (h : Sending c) (hgood : Steady c e)
    (hstep : sendStep c e = some c') : Sending c' := by
  cases e with
  | arrive now s =>
    by_cases hstate : c.pcb.state = .synSent
    · exact h.synSent hstate hstep
    obtain ⟨hack, rfl⟩ := sendStep_arrive hstep
    obtain ⟨u, n, fin, hs⟩ := h.flow.input h.phase hack hstate
    rw [if_neg fun hsent => hstate hsent.1]
    exact h.nextNil hs
  | send now data => exact h.send hgood hstep
  | recv len =>
    cases hstep
    exact h.nextNil (h.flow.recv h.phase)
  | close now =>
    cases hstep
    obtain ⟨n, fin, hs⟩ := h.flow.close h.phase now
    exact h.nextNil hs
  | shutdown now rd wr =>
    cases hstep
    obtain ⟨n, fin, hs⟩ := h.flow.shutdown h.phase now rd wr
    exact h.nextNil hs
  | tick now =>
    cases hstep
    exact h.nextNil (h.flow.tick h.phase now hgood)
  | tickChild now =>
    cases hstep
    exact h.nextNil (h.flow.tickChild h.phase now)
  | free =>
    cases hstep
    exact h.nextNil (h.flow.ended h.phase rfl rfl rfl rfl rfl)

/-- Sending takes nothing out of the buffer. -/
theorem tcpFire_txb (now : Nat) (pcb : Pcb) : (tcpFire now pcb).1.txb = pcb.txb := by
  simp only [tcpFire]
  split_ifs <;> rfl

theorem tcpClosing_txb (now : Nat) (pcb : Pcb) (flags : Flags) (ack : Nat) :
    (tcpClosing now pcb flags ack).1.txb = pcb.txb := by
  unfold tcpClosing
  split_ifs <;> rfl

/-- The bytes that an acknowledgement leaves. -/
theorem tcpAckAdvance_txb (now : Nat) (pcb : Pcb) (ack : Nat) :
    (tcpAckAdvance now pcb ack).1.txb =
      if seqLt pcb.sndUna ack then pcb.txb.drop (min (sub32 ack pcb.sndUna) pcb.txb.length)
      else pcb.txb := by
  simp only [tcpAckAdvance]
  split
  · split
    · rename_i hzero
      rw [hzero, drop_zero]
    · rw [tcpFire_txb]
      split <;> rfl
  · rfl

/-- An acknowledgement of everything sent drops every sent byte. -/
theorem Sending.emptied (h : Sending c) (now : Nat) (hs : CoversAll c s) :
    (tcpInput now c.pcb s).1.txb = c.accepted.drop c.sent := by
  obtain ⟨hactive, ⟨hlisten, hsent, hrcvd⟩, hrst, hsyn, hflag, hnum⟩ := hs
  have hlt : s.ack < 4294967296 := by
    rw [hnum]
    exact Nat.mod_lt _ (by decide)
  have hnxt : seqLt c.pcb.sndNxt s.ack = false := by
    rw [hnum, add32, h.flow.nxt, seqLt, decide_eq_false_iff_not, sub32]
    omega
  have hdrop : (tcpAckAdvance now { c.pcb with sndWnd := if s.wnd ≠ 0 then s.wnd else tcpMss }
      s.ack).1.txb = c.accepted.drop c.sent := by
    rw [tcpAckAdvance_txb]
    show (if seqLt c.pcb.sndUna s.ack then
      c.pcb.txb.drop (min (sub32 s.ack c.pcb.sndUna) c.pcb.txb.length) else c.pcb.txb) = _
    have hack : s.ack = c.pcb.sndNxt := hnum.trans h.flow.nxt.symm
    split
    · rename_i huna
      refine (h.flow.advance hlt hnxt huna).buf.trans ?_
      rw [hack, h.flow.distance.1, Nat.add_sub_cancel' h.flow.le]
    -- nothing is outstanding
    rename_i huna
    rw [hack, h.flow.seqLt_iff] at huna
    rw [h.flow.buf, le_antisymm h.flow.le (not_lt.mp huna)]
  simp only [tcpInput]
  split
  · rename_i hgone
    rcases hgone with hgone | hgone
    · rw [hactive] at hgone
      cases hgone
    · exact absurd hgone hlisten
  · rw [tcpClosing_txb]
    simp only [tcpInputEstablished, hrst, hsyn, hflag, hnxt, Bool.and_false, Bool.false_eq_true,
      if_false, if_true]
    rw [(sameSend_tcpPayload ..).txb]
    exact hdrop

/-- The invariant gives the property. -/
theorem Sending.sendBuffer (h : Sending c) : SendBuffer c where
  una := h.flow.una
  held := h.flow.buf
  between := by
    rw [h.flow.distance.1]
    exact h.flow.distance.2.1
  numbered s hs hne := by
    obtain ⟨k, hat⟩ := h.numbered s hs hne
    exact ⟨k, hat.seq, hat.room hne, hat.data⟩
  emptied now s hs := h.emptied now hs

/-- In every run whose events meet `Steady`, every state meets the
contract of the send buffer. -/
theorem sendBuffer_of_steady {c₀ c : Sender} (hstart : SenderStart c₀) (events : List Event)
    (hgood : Along sendStep Steady c₀ events) (hrun : run sendStep c₀ events = some c) :
    SendBuffer c :=
  (run_invariant_of_along (fun _ _ _ h hg hs => h.step hg hs) events c₀ c (sending_start hstart)
    hgood hrun).sendBuffer

/-- A segment of the peer that only acknowledges. -/
def pureAck (ack : Nat) : Segment := ⟨1, ack, { ack := true }, 4096, []⟩

/-- A passive open with the initial number `iss`, whose peer has sent
nothing. -/
def acceptedAt (iss : Nat) : Sender :=
  ⟨(tcpAcceptChild 0 iss 0).1, add32 iss 1, [], 0, 0, false, (tcpAcceptChild 0 iss 0).2⟩

/-- Two bytes are sent, the first of them is acknowledged, the timer runs
out and the connection is closed. -/
theorem sendBuffer_of_steady_sample :
    ∃ c, run sendStep (acceptedAt 6) [.arrive 0 (pureAck 7), .send 0 [5, 9], .arrive 0 (pureAck 8),
        .tick 1000, .close 1000] = some c ∧
      c.pcb.txb = [9] ∧ c.sent = 3 ∧ SendBuffer c := by
  refine exists_of_any (P := fun c => c.pcb.txb = [9] ∧ c.sent = 3) (by decide +kernel) ?_
  rintro c hrun ⟨htxb, hsent⟩
  exact ⟨htxb, hsent, sendBuffer_of_steady (.accept 0 6 0) _ (by decide +kernel) hrun⟩

/-- A run to an open connection whose buffer keeps bytes when everything
sent is acknowledged breaks the contract. -/
theorem exists_not_sendBuffer {c₀ : Sender} {events : List Event}
    (hend : (run sendStep c₀ events).any (fun c => decide (c.pcb.active = true ∧
      c.pcb.state = .established ∧
      (tcpInput 0 c.pcb (pureAck (add32 c.base c.sent))).1.txb ≠ c.accepted.drop c.sent)) = true) :
    ∃ c, run sendStep c₀ events = some c ∧ ¬ SendBuffer c := by
  refine exists_of_any hend ?_
  rintro c hrun ⟨hactive, hstate, hkept⟩ h
  refine hkept (h.emptied 0 _ ⟨hactive, ?_, rfl, rfl, rfl, rfl⟩)
  rw [hstate]
  exact ⟨nofun, nofun, nofun⟩

/-- A write that reaches the end of the sequence space: the peer's
acknowledgement of both bytes is dropped. -/
theorem not_sendBuffer_wrap :
    ∃ c, run sendStep (acceptedAt 4294967293) [.arrive 0 (pureAck 4294967294), .send 0 [5, 9]]
      = some c ∧ ¬ SendBuffer c :=
  exists_not_sendBuffer (by decide +kernel)

-- A window of one byte holds the third byte back, the timer sends it all the same.
example :
    ∃ c, run sendStep (acceptedAt 6) [.arrive 0 { pureAck 7 with wnd := 1 }, .send 0 [5, 9, 4],
        .tick 1000] = some c ∧ ¬ SendBuffer c :=
  exists_not_sendBuffer (by decide +kernel)

end CoreZ.Proofs.Net
