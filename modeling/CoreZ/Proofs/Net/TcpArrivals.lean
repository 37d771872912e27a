import CoreZ.Proofs.Net.TcpFire

/-!
# `CoreZ.Proofs.Net.TcpArrivals`: which segments move a connection

`tcp_input` behind the handshake is `tcp_input_established` and then the
closing transitions. `heard` is the control block between the two, and
`heard_cases` says what the first part can have done.

A segment outside the receive window should change nothing. The payload is
checked against the window, but a reset, a FIN without payload and the closing
transitions are not (`surface_tcpInput_iff`).

The transitions should wait for the acknowledgement of what was sent. The
source takes any number of a SYN|ACK and any ACK or FIN in FIN-WAIT-1, and
answers the FIN of the peer with its own whether the application has closed or
not. `Checked` has the tests that are missing (`waits_iff_checked`).

Both conditions are read off the segment and the control block before it
arrives. Two of the closing tests look at values that the first part has
changed by then. LAST-ACK compares the acknowledgement with `snd_nxt` after
`tcp_fire` may have moved it (`LastAcked`), and CLOSE-WAIT can be the state
that the payload part has just entered (`TakesFin`).
-/

set_option autoImplicit false

namespace CoreZ.Proofs.Net

open CoreZ.Lib
open CoreZ.Net.Tcp

/-- State, activity and the receiving half of a connection. -/
structure Surface where
  state : TcpState
  active : Bool
  rcvNxt : Nat
  finRcvd : Bool
  rx : Nat → UInt8
  rxHead : Nat
  rxTail : Nat

def surface (p : Pcb) : Surface :=
  ⟨p.state, p.active, p.rcvNxt, p.finRcvd, p.rx, p.rxHead, p.rxTail⟩

variable {now : Nat} {p q : Pcb} {s : Segment}

/-- Sending changes nothing that the application sees. -/
theorem surface_tcpFire : surface (tcpFire now p).1 = surface p := by
  simp only [tcpFire]
  split_ifs <;> rfl

theorem surface_tcpAckAdvance {ack : Nat} : surface (tcpAckAdvance now p ack).1 = surface p := by
  simp only [tcpAckAdvance]
  split_ifs
  · rfl
  · exact surface_tcpFire
  · exact surface_tcpFire
  · rfl

/-- The control block with the window of the segment. -/
def windowed (p : Pcb) (s : Segment) : Pcb :=
  { p with sndWnd := if s.wnd ≠ 0 then s.wnd else tcpMss }

/-- The control block behind `tcp_input_established`. -/
def heard (now : Nat) (p : Pcb) (s : Segment) : Pcb :=
  (tcpInputEstablished now p s.seq s.flags s.data s.ack).1

/-- The segment gets to the payload part: it has no SYN, and acknowledges
nothing behind `snd_nxt`. -/
def Looked (p : Pcb) (s : Segment) : Prop :=
  s.flags.syn = false ∧ (s.flags.ack && seqLt p.sndNxt s.ack) = false

/-- A segment is looked at, or dropped. -/
theorem heard_cases (hrst : s.flags.rst = false) :
    ¬ Looked p s ∧ surface (heard now p s) = surface p ∨
    Looked p s ∧ ∃ q, surface q = surface p ∧
      heard now p s = (tcpPayload q s.seq s.flags s.data).1 := by
  simp only [heard, tcpInputEstablished, hrst, Looked]
  cases s.flags.syn with
  | true => exact .inl ⟨by simp, rfl⟩
  | false =>
    cases s.flags.ack && seqLt p.sndNxt s.ack with
    | true => exact .inl ⟨by simp, rfl⟩
    | false =>
      refine .inr ⟨⟨rfl, rfl⟩, _, ?_, rfl⟩
      split
      · exact surface_tcpAckAdvance
      · rfl

/-- Behind the handshake, `tcp_input` ends with the closing transitions. -/
theorem tcpInput_eq (hactive : p.active = true) (hlisten : p.state ≠ .listen)
    (hsent : p.state ≠ .synSent) (hrcvd : p.state ≠ .synRcvd) :
    (tcpInput now p s).1 = (tcpClosing now (heard now (windowed p s) s) s.flags s.ack).1 := by
  have hopen : ¬ (p.active = false ∨ p.state = .listen) := by simp [hactive, hlisten]
  simp only [tcpInput, if_neg hopen]
  rfl

/-! ### Segments outside the window -/

/-- A number from `rcv_nxt` to the end of the free receive space. -/
def InWindow (p : Pcb) (n : Nat) : Prop := sub32 n p.rcvNxt ≤ tcpRxRoom p

/-- Neither the number of the segment nor one of its bytes is in the
window. -/
def Outside (p : Pcb) (s : Segment) : Prop :=
  ¬ InWindow p s.seq ∧ ∀ k < s.data.length, ¬ InWindow p (add32 s.seq k)

/-- A FIN without payload, which the sequence checks do not look at. -/
def BareFin (p : Pcb) (s : Segment) : Prop := Looked p s ∧ s.flags.fin = true ∧ s.data = []

/-- The acknowledgement of `snd_nxt` that LAST-ACK waits for. `tcp_fire` runs
before the test, and where it moves `snd_nxt` on the test fails. It does so if
bytes are left behind the acknowledged ones, unless the number of their end
wraps. -/
def LastAcked (p : Pcb) (s : Segment) : Prop :=
  s.ack = p.sndNxt ∧ (s.flags.syn = true ∨ seqLt p.sndUna s.ack = false ∨
    p.txb.length ≤ sub32 s.ack p.sndUna ∨
    4294967296 ≤ s.ack + fireEnd (usable s.wnd) (p.txb.length - sub32 s.ack p.sndUna) 0)
  deriving Decidable

/-- The last byte is acknowledged: said with the segment and the block before. -/
theorem heard_sndNxt_iff (hp : InFlight p) (hlt : s.ack < 4294967296)
    (hrst : s.flags.rst = false) (hack : s.flags.ack = true) :
    s.ack = (heard now (windowed p s) s).sndNxt ↔ LastAcked p s := by
  have hw : InFlight (windowed p s) := hp.congr rfl rfl rfl le_rfl
  simp only [heard, tcpInputEstablished, hrst, hack, Bool.false_eq_true, if_false, if_true,
    Bool.true_and, LastAcked]
  split
  · exact ⟨fun h => ⟨h, .inl ‹_›⟩, fun h => h.1⟩
  rename_i hsyn
  rw [Bool.not_eq_true] at hsyn
  split
  · -- a number behind `snd_nxt`
    rename_i hbehind
    have hne : s.ack ≠ p.sndNxt := by
      intro heq
      change seqLt p.sndNxt s.ack = true at hbehind
      have := hp.nxt_lt
      rw [heq, seqLt, decide_eq_true_eq, sub32] at hbehind
      omega
    exact iff_of_false hne fun h => hne h.1
  rename_i hbehind
  simp only [hsyn, Bool.false_eq_true, false_or, (sameSend_tcpPayload ..).nxt]
  have h := hw.ackAdvance_sndNxt_iff now hlt (by simpa using hbehind)
  have husable : usable (windowed p s).sndWnd = usable s.wnd := usable_usable s.wnd
  rw [husable] at h
  exact h

/-- One of the closing transitions applies to the connection as it is before
the segment. -/
def Closes (p : Pcb) (s : Segment) : Prop :=
  p.state = .closeWait ∨ p.state = .finWait1 ∧ (s.flags.fin = true ∨ s.flags.ack = true) ∨
    p.state = .finWait2 ∧ s.flags.fin = true ∨
    p.state = .lastAck ∧ s.flags.ack = true ∧ LastAcked p s

theorem surface_tcpClosing_iff (hactive : q.active = true) :
    surface (tcpClosing now q s.flags s.ack).1 = surface q ↔
      ¬ (q.state = .closeWait ∨ q.state = .finWait1 ∧ (s.flags.fin = true ∨ s.flags.ack = true) ∨
        q.state = .finWait2 ∧ s.flags.fin = true ∨
        q.state = .lastAck ∧ s.flags.ack = true ∧ s.ack = q.sndNxt) := by
  unfold tcpClosing
  split_ifs <;> simp_all [surface]

/-- A payload without a byte in the window is not taken. -/
theorem tcpPayload_outside (hnxt : p.rcvNxt < 4294967296) (hseq : s.seq < 4294967296)
    (hout : Outside p s) (hdata : s.data ≠ []) :
    (tcpPayload p s.seq s.flags s.data).1 = p := by
  obtain ⟨hstart, hbytes⟩ := hout
  unfold tcpPayload
  split
  · simp only
    split
    · rfl
    -- the byte that `rcv_nxt` waits for would be in the payload
    rename_i hlong
    refine absurd ?_ (hbytes (sub32 p.rcvNxt s.seq) (by omega))
    unfold InWindow add32 sub32
    omega
  · split
    · rfl
    rename_i hne
    refine absurd ?_ hstart
    rw [not_and, not_not] at hne
    rw [InWindow, hne hdata, sub32]
    omega

/-- The first part of `tcp_input` on such a segment without RST. -/
theorem surface_heard (hnxt : p.rcvNxt < 4294967296) (hseq : s.seq < 4294967296)
    (hout : Outside p s) (hrst : s.flags.rst = false) :
    (BareFin p s ∧ (heard now p s).rcvNxt ≠ p.rcvNxt) ∨
      (¬ BareFin p s ∧ surface (heard now p s) = surface p) := by
  rcases @heard_cases now p s hrst with ⟨hno, hsame⟩ | ⟨hlook, q, hq, heq⟩
  · exact .inr ⟨fun h => hno h.1, hsame⟩
  have hqnxt : q.rcvNxt = p.rcvNxt := congrArg Surface.rcvNxt hq
  rw [heq]
  by_cases hdata : s.data = []
  · -- no payload: only the FIN counts
    by_cases hfin : s.flags.fin = true
    · refine .inl ⟨⟨hlook, hfin, hdata⟩, ?_⟩
      have hnew : (tcpPayload q s.seq s.flags s.data).1.rcvNxt = add32 p.rcvNxt 1 := by
        simp [tcpPayload, tcpTake, hdata, hfin, hqnxt]
      rw [hnew, add32]
      omega
    · refine .inr ⟨fun h => hfin h.2.1, ?_⟩
      simp [tcpPayload, tcpTake, hdata, hfin, hq]
  · have hsame : Outside q s := by
      have hroom : tcpRxRoom q = tcpRxRoom p :=
        congrArg (fun x : Surface => tcpRcvBuf - (x.rxTail + (65536 - x.rxHead)) % 65536) hq
      unfold Outside InWindow
      rw [hqnxt, hroom]
      exact hout
    rw [tcpPayload_outside (hqnxt ▸ hnxt) hseq hsame hdata]
    exact .inr ⟨fun h => hdata h.2.2, hq⟩

/-- A segment outside the window leaves an open connection alone exactly when
it has no RST, is not a FIN without payload, and no closing transition
applies. `InFlight` holds in every run (`InFlight.sendStep`). -/
theorem surface_tcpInput_iff (hp : InFlight p) (hactive : p.active = true)
    (hlisten : p.state ≠ .listen) (hsent : p.state ≠ .synSent) (hrcvd : p.state ≠ .synRcvd)
    (hnxt : p.rcvNxt < 4294967296) (hs : s.Fits) (hout : Outside p s) :
    surface (tcpInput now p s).1 = surface p ↔
      s.flags.rst = false ∧ ¬ BareFin p s ∧ ¬ Closes p s := by
  rw [tcpInput_eq hactive hlisten hsent hrcvd]
  by_cases hrst : s.flags.rst = true
  · -- the reset ends the connection
    simp [heard, tcpInputEstablished, tcpClosing, hrst, surface, hactive]
  rw [Bool.not_eq_true] at hrst
  have hkeep := (@sameReceive_tcpClosing now (heard now (windowed p s) s) s.flags s.ack).nxt
  rcases @surface_heard now (windowed p s) s hnxt hs.1 hout hrst with
    ⟨hfin, hmoved⟩ | ⟨hno, hsame⟩
  · refine iff_of_false (fun h => ?_) fun h => h.2.1 hfin
    exact hmoved (hkeep.symm.trans (congrArg Surface.rcvNxt h))
  · have hlive : (heard now (windowed p s) s).active = true :=
      (congrArg Surface.active hsame).trans hactive
    have hstate : (heard now (windowed p s) s).state = p.state := congrArg Surface.state hsame
    have hcloses := @surface_tcpClosing_iff now _ s hlive
    rw [hsame, hstate, and_congr_right fun hack => heard_sndNxt_iff hp hs.2.1 hrst hack] at hcloses
    exact hcloses.trans ⟨fun h => ⟨hrst, hno, h⟩, fun h => h.2.2⟩

/-- A connection behind its passive open. -/
def openPcb : Pcb := (tcpInput 0 (tcpAcceptChild 0 6 0).1 (pureAck 7)).1

/-- A reset half the sequence space away. -/
def staleReset : Segment := ⟨2147483648, 0, { rst := true }, 4096, []⟩

theorem surface_tcpInput_iff_reset :
    surface (tcpInput 0 openPcb staleReset).1 = surface openPcb ↔
      staleReset.flags.rst = false ∧ ¬ BareFin openPcb staleReset ∧ ¬ Closes openPcb staleReset :=
  surface_tcpInput_iff ⟨by decide, by decide, by decide, by decide⟩ rfl (by decide) (by decide)
    (by decide) (by decide) (by decide)
    ⟨not_le.mpr (by decide), nofun⟩

/-- The reset ends the connection. -/
theorem not_surface_reset : Outside openPcb staleReset ∧
    surface (tcpInput 0 openPcb staleReset).1 ≠ surface openPcb :=
  ⟨⟨not_le.mpr (by decide), nofun⟩, fun h => absurd (congrArg Surface.active h) (by decide)⟩

/-! ### Transitions -/

/-- A connection, and whether the application has closed its side. -/
structure Client where
  conn : Sender
  closed : Bool

/-- The application closes its side. -/
def isClose : Event → Bool
  | .close _ => true
  | .shutdown _ _ wr => wr
  | _ => false

def clientStep (c : Client) (e : Event) : Option Client :=
  (sendStep c.conn e).map fun d => ⟨d, c.closed || isClose e⟩

/-- The segment acknowledges a FIN that was sent. -/
def CoversFin (c : Sender) (s : Segment) : Prop :=
  s.flags.ack = true ∧ ∃ f ∈ c.out, f.flags.fin = true ∧ seqLt f.seq s.ack = true

/-- What an arrival may do to the state. ESTABLISHED and CLOSE-WAIT are left
for LAST-ACK only if the application has closed its side. -/
def WaitsIn (c : Client) (s : Segment) (q : Pcb) : TcpState → Prop
  | .synSent => q.state = .established →
      s.flags.syn = true ∧ s.flags.ack = true ∧ s.ack = add32 c.conn.pcb.iss 1
  | .finWait1 => q.state = .finWait2 ∨ q.state = .timeWait → CoversFin c.conn s
  | .lastAck => c.conn.pcb.active = true → q.active = false → CoversFin c.conn s
  | .closeWait => c.closed = false → q.state = .closeWait
  | .established => c.closed = false → q.state ≠ .lastAck
  | _ => True

def Waits (c : Client) : Event → Prop
  | .arrive now s => s.Fits → WaitsIn c s (tcpInput now c.conn.pcb s).1 c.conn.pcb.state
  | _ => True

/-- The bytes of the segment before `rcv_nxt`. -/
def overlap (p : Pcb) (s : Segment) : Nat :=
  if seqLt s.seq p.rcvNxt then sub32 p.rcvNxt s.seq else 0

/-- The FIN of the segment is taken: it gets to the payload part, and there is
no payload, or the payload behind the overlap starts at `rcv_nxt` and fits into
the ring. -/
def TakesFin (p : Pcb) (s : Segment) : Prop :=
  s.flags.rst = false ∧ Looked p s ∧ s.flags.fin = true ∧ (s.data = [] ∨
    add32 s.seq (overlap p s) = p.rcvNxt ∧ overlap p s < s.data.length ∧
      s.data.length - overlap p s ≤ tcpRxRoom p)

/-- The tests that would be needed, for an arrival in each state. -/
def CheckedIn (c : Client) (s : Segment) : TcpState → Prop
  | .synSent => s.flags.syn = true → s.flags.ack = true → s.flags.rst = false →
      s.ack = add32 c.conn.pcb.iss 1
  | .finWait1 => s.flags.rst = false → s.flags.fin = true ∨ s.flags.ack = true → CoversFin c.conn s
  | .lastAck => s.flags.rst = true ∨ s.flags.ack = true ∧ LastAcked c.conn.pcb s →
      CoversFin c.conn s
  | .closeWait => c.closed = true
  | .established => c.closed = false → ¬ TakesFin c.conn.pcb s
  | _ => True

def Checked (c : Client) : Event → Prop
  | .arrive _ s => s.Fits → c.conn.pcb.active = true → CheckedIn c s c.conn.pcb.state
  | _ => True

/-- The first part of `tcp_input` ends the connection, or goes at most from
ESTABLISHED to CLOSE-WAIT. -/
theorem heard_state :
    (s.flags.rst = true ∧ (heard now p s).active = false ∧ (heard now p s).state = .closed) ∨
    (s.flags.rst = false ∧ (heard now p s).active = p.active ∧ ((heard now p s).state = p.state ∨
      p.state = .established ∧ (heard now p s).state = .closeWait)) := by
  cases hrst : s.flags.rst with
  | true => simp [heard, tcpInputEstablished, hrst]
  | false =>
    refine .inr ⟨rfl, ?_⟩
    rcases @heard_cases now p s hrst with ⟨-, hsame⟩ | ⟨-, q, hq, heq⟩
    · exact ⟨congrArg Surface.active hsame, .inl (congrArg Surface.state hsame)⟩
    · have hpay := sameSend_tcpPayload q s.seq s.flags s.data
      have hstate : q.state = p.state := congrArg Surface.state hq
      rw [heq, ← hstate, hpay.active]
      exact ⟨congrArg Surface.active hq, hpay.state⟩

/-- The end of `tcp_input_established` enters CLOSE-WAIT with a FIN whose
payload fits. -/
theorem tcpTake_closeWait_iff {flags : Flags} {data : List UInt8}
    (hstate : p.state = .established) :
    (tcpTake p flags data).1.state = .closeWait ↔
      flags.fin = true ∧ data.length ≤ tcpRxRoom p := by
  simp only [tcpTake]
  generalize hq : (if min data.length (tcpRxRoom p) = 0 then p
    else { tcpRxPut p (data.take (min data.length (tcpRxRoom p))) with
      rcvNxt := add32 p.rcvNxt (min data.length (tcpRxRoom p)) }) = q
  have hqstate : q.state = .established := by
    rw [← hq]
    split <;> exact hstate
  have hfits : min data.length (tcpRxRoom p) = data.length ↔ data.length ≤ tcpRxRoom p := by
    omega
  split_ifs <;> simp_all

/-- When a segment closes the receiving side. -/
theorem tcpPayload_closeWait_iff (hstate : p.state = .established) (hseq : s.seq < 4294967296) :
    (tcpPayload p s.seq s.flags s.data).1.state = .closeWait ↔
      s.flags.fin = true ∧ (s.data = [] ∨ add32 s.seq (overlap p s) = p.rcvNxt ∧
        overlap p s < s.data.length ∧ s.data.length - overlap p s ≤ tcpRxRoom p) := by
  by_cases hdata : s.data = []
  · simp [tcpPayload, hdata, tcpTake_closeWait_iff hstate]
  have hpos := List.length_pos_of_ne_nil hdata
  have hzero : add32 s.seq 0 = s.seq := Nat.mod_eq_of_lt hseq
  simp only [tcpPayload, overlap, hdata, ne_eq, not_false_eq_true, true_and, false_or]
  split
  · split
    · rename_i hshort
      simp [hstate, Nat.not_lt.mpr hshort]
    rename_i hlong
    split
    · rename_i hgap
      simp [hstate, hgap]
    · rename_i hgap
      rw [tcpTake_closeWait_iff hstate, List.length_drop]
      simp [not_not.mp hgap, Nat.not_le.mp hlong]
  · split
    · rename_i hgap
      simp [hstate, hzero, hgap]
    · rename_i hgap
      rw [tcpTake_closeWait_iff hstate, hzero]
      simp [not_not.mp hgap, hpos]

/-- ESTABLISHED is left for CLOSE-WAIT exactly when the FIN is taken. -/
theorem heard_closeWait_iff (hstate : p.state = .established) (hseq : s.seq < 4294967296) :
    (heard now (windowed p s) s).state = .closeWait ↔ TakesFin p s := by
  unfold TakesFin
  cases hrst : s.flags.rst with
  | true => simp [heard, tcpInputEstablished, hrst]
  | false =>
    simp only [true_and]
    rcases @heard_cases now (windowed p s) s hrst with ⟨hno, hsame⟩ | ⟨hlook, q, hq, heq⟩
    · have hst : (heard now (windowed p s) s).state = .established :=
        (congrArg Surface.state hsame).trans hstate
      exact iff_of_false (by rw [hst]; decide) fun h => hno h.1
    · have hqstate : q.state = .established := (congrArg Surface.state hq).trans hstate
      have hnxt : q.rcvNxt = p.rcvNxt := congrArg Surface.rcvNxt hq
      have hroom : tcpRxRoom q = tcpRxRoom p :=
        congrArg (fun x : Surface => tcpRcvBuf - (x.rxTail + (65536 - x.rxHead)) % 65536) hq
      have hover : overlap q s = overlap p s := by
        unfold overlap
        rw [hnxt]
      rw [heq, tcpPayload_closeWait_iff hqstate hseq, hover, hnxt, hroom]
      exact ⟨fun h => ⟨hlook, h⟩, fun h => h.2⟩

/-- The condition for one segment. -/
theorem waits_iff {c : Client} (hp : InFlight c.conn.pcb) (hs : s.Fits)
    (hactive : c.conn.pcb.active = true) :
    WaitsIn c s (tcpInput now c.conn.pcb s).1 c.conn.pcb.state ↔
      CheckedIn c s c.conn.pcb.state := by
  have hclosing := @tcpInput_eq now c.conn.pcb s hactive
  unfold tcpClosing at hclosing
  unfold WaitsIn CheckedIn
  have hheard := @heard_state now (windowed c.conn.pcb s) s
  -- what `heard` computes, said with the segment and the block before the step
  have hlast := @heard_sndNxt_iff now c.conn.pcb s hp hs.2.1
  have htakes := @heard_closeWait_iff now c.conn.pcb s
  generalize hst : c.conn.pcb.state = st at hclosing htakes
  change _ ∨ _ ∧ _ = c.conn.pcb.active ∧ (_ = c.conn.pcb.state ∨ c.conn.pcb.state = _ ∧ _) at hheard
  rw [hactive, hst] at hheard
  cases st with
  | synSent =>
    cases hsyn : s.flags.syn <;> cases hack : s.flags.ack <;> cases hrst : s.flags.rst <;>
      simp [tcpInput, tcpInputEstablished, hactive, hst, hsyn, hack, hrst]
  | finWait1 =>
    rw [hclosing (by decide) (by decide) (by decide)]
    rcases hheard with ⟨hrst, -, hst⟩ | ⟨hrst, -, hst | ⟨⟨⟩, -⟩⟩
    · simp [hst, hrst]
    · cases s.flags.fin <;> cases s.flags.ack <;>
        simp [hst, hrst]
  | lastAck =>
    rw [hclosing (by decide) (by decide) (by decide)]
    rcases hheard with ⟨hrst, hdead, hst⟩ | ⟨hrst, hlive, hst | ⟨⟨⟩, -⟩⟩
    · simp [hactive, hst, hrst, hdead]
    · -- `snd_nxt` is read after the acknowledgement has been taken
      have hends : s.flags.ack = true ∧ s.ack = (heard now (windowed c.conn.pcb s) s).sndNxt ↔
          s.flags.ack = true ∧ LastAcked c.conn.pcb s :=
        and_congr_right (hlast hrst)
      rw [← hends]
      by_cases hend : s.flags.ack = true ∧ s.ack = (heard now (windowed c.conn.pcb s) s).sndNxt <;>
        simp [hactive, hst, hrst, hend, hlive]
  | closeWait =>
    rw [hclosing (by decide) (by decide) (by decide)]
    rcases hheard with ⟨-, -, hst⟩ | ⟨-, -, hst | ⟨⟨⟩, -⟩⟩ <;> simp [hst]
  | established =>
    rw [hclosing (by decide) (by decide) (by decide), ← htakes rfl hs.1]
    rcases hheard with ⟨-, -, hst⟩ | ⟨-, -, hst | ⟨-, hst⟩⟩ <;> simp [hst]
  | closed | listen | synRcvd | finWait2 | closing | timeWait => exact Iff.rfl

/-- One event keeps to the rule exactly when it passes the tests. -/
theorem waits_iff_step {c : Client} (hp : InFlight c.conn.pcb) (e : Event) :
    Waits c e ↔ Checked c e := by
  cases e with
  | arrive now s =>
    refine forall_congr' fun hs => ?_
    by_cases hactive : c.conn.pcb.active = true
    · exact (waits_iff hp hs hactive).trans ⟨fun h _ => h, fun h => h hactive⟩
    · refine iff_of_true ?_ fun h => absurd h hactive
      have hsame : tcpInput now c.conn.pcb s = (c.conn.pcb, []) := by simp [tcpInput, hactive]
      rw [hsame]
      cases hstate : c.conn.pcb.state <;> simp [WaitsIn, hactive, hstate]
  | send | recv | close | shutdown | tick | tickChild | free => exact Iff.rfl

/-- A run keeps to the rule exactly when its segments pass the tests. -/
theorem waits_iff_checked {c : Client} (hstart : SenderStart c.conn) (events : List Event) :
    Along clientStep Waits c events ↔ Along clientStep Checked c events := by
  refine Along.iff_of_invariant (I := fun c => InFlight c.conn.pcb) ?_
    (fun c e hp => waits_iff_step hp e)
    events (inFlight_start hstart)
  intro c e c' hp hstep
  obtain ⟨d, hd, rfl⟩ := Option.map_eq_some_iff.mp hstep
  exact hp.sendStep hd

/-- An open connection gets the FIN of the peer. -/
def peerFin : List Event :=
  [.arrive 0 (pureAck 7), .arrive 0 { pureAck 7 with flags := { ack := true, fin := true } }]

/-- A FIN with its last data. -/
theorem waits_iff_checked_fin :
    Along clientStep Waits ⟨acceptedAt 6, false⟩ peerFin ↔
      Along clientStep Checked ⟨acceptedAt 6, false⟩ peerFin :=
  waits_iff_checked (.accept 0 6 0) _

/-- The application never closes, and the FIN of the peer closes its side. -/
theorem not_waits_fin : ¬ Along clientStep Waits ⟨acceptedAt 6, false⟩ peerFin := by
  intro h
  exact (h.2 _ rfl).1 (by decide) rfl (by decide)

end CoreZ.Proofs.Net
