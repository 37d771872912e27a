import CoreZ.Proofs.Net.TcpFire

/-!
# `CoreZ.Proofs.Net.TcpWindow`: what is sent against the window of the peer

The right edge is the position behind the last byte that the peer has made
room for. Data should end there, except for one probe of a closed window.

Three calls transmit data: `tcp_send` and an acknowledgement through
`tcp_fire`, and `tcp_tick`, which sends the buffer without a look at the
window, just as `tcp_fire` would with a window of the size of the buffer
(`tcpResend_eq`). `FireFits` compares the end of such a transmission with the
edge. A run keeps to the edge exactly when all its transmissions do
(`flowControlled_iff_fits`); a second byte passes a window of one, since the
test of `tcp_fire` allows a segment that starts at the edge
(`not_flowControlled_one`).
-/

set_option autoImplicit false

namespace CoreZ.Proofs.Net

open CoreZ.Lib
open CoreZ.Net.Tcp
open List

/-- A connection with the largest right edge, as a position of the stream, and
the last window. -/
structure Metered where
  conn : Sender
  edge : Nat
  wnd : Nat

/-- The right edge of a segment. The number of an old one is before
`snd_una`. -/
def rightEdge (c : Sender) (s : Segment) : Nat :=
  if seqLt s.ack c.pcb.sndUna then c.acked + s.wnd - sub32 c.pcb.sndUna s.ack
  else c.position s.ack + s.wnd

/-- The edge of the new connection `c`. The stream starts with the
SYN|ACK. -/
def Metered.next (m : Metered) (c : Sender) : Event → Metered
  | .arrive _ s =>
    ⟨c, if s.flags.ack then
        max (if m.conn.pcb.state = .synSent then 0 else m.edge) (rightEdge c s)
      else m.edge, s.wnd⟩
  | _ => { m with conn := c }

def meterStep (m : Metered) (e : Event) : Option Metered :=
  (sendStep m.conn e).map (m.next · e)

/-- The segments with data. -/
def dataOf (out : List Segment) : List Segment := out.filter (·.data ≠ [])

/-- The data segments since `m`. -/
def newData (m m' : Metered) : List Segment := dataOf (m'.conn.out.drop m.conn.out.length)

/-- The data of an event ends at the edge, or is one probe of a closed
window. -/
def FlowControlled (m : Metered) (e : Event) : Prop :=
  ∀ m', meterStep m e = some m' →
    (∀ s ∈ newData m m', m.conn.position s.seq + s.data.length ≤ m'.edge) ∨
      m'.wnd = 0 ∧ (newData m m').length ≤ 1

/-! ### The condition -/

/-- A transmission with the window `w`, from the distance `ahead` behind the
position `una` on, when `len` bytes are buffered: there is none, or it ends at
the edge, or it is one segment while the peer advertises the window zero. -/
def FireFits (edge wnd una w len ahead : Nat) : Prop :=
  fireEnd w len ahead = ahead ∨ una + fireEnd w len ahead ≤ edge ∨
    wnd = 0 ∧ fireEnd w len ahead ≤ ahead + min tcpMss w
  deriving Decidable

/-- The segment acknowledges bytes of the buffer, so `tcp_fire` runs. -/
structure Acks (p : Pcb) (s : Segment) : Prop where
  active : p.active = true
  opened : p.state ≠ .listen ∧ p.state ≠ .synSent ∧ (p.state = .synRcvd → s.ack = p.sndNxt)
  flags : s.flags.rst = false ∧ s.flags.syn = false ∧ s.flags.ack = true
  sent : seqLt p.sndNxt s.ack = false
  fresh : seqLt p.sndUna s.ack = true
  held : p.txb ≠ []

/-- `tcp_send` takes the bytes. -/
def Takes (p : Pcb) (data : List UInt8) : Prop :=
  p.state = .established ∧ data ≠ [] ∧ data.length ≤ tcpSndBuf - p.txb.length
  deriving Decidable

/-- The retransmission timer runs out and the connection is not given up. -/
def Resends (now : Nat) (p : Pcb) : Prop :=
  p.active = true ∧ p.tmo ≠ 0 ∧ seqLt now p.tmo = false ∧ p.state ≠ .synSent ∧
    seqLt p.sndUna p.sndNxt = true ∧ (p.retry + 1) % 256 ≤ tcpMaxRetry
  deriving Decidable

/-- What an event transmits stays before the edge. An acknowledgement moves
`snd_una` and brings an edge of its own. -/
def Fits (m : Metered) : Event → Prop
  | .arrive _ s => s.Fits → Acks m.conn.pcb s →
      FireFits (max m.edge (m.conn.position s.ack + s.wnd)) s.wnd (m.conn.position s.ack)
        (usable s.wnd) (m.conn.pcb.txb.length - sub32 s.ack m.conn.pcb.sndUna)
        (sub32 m.conn.pcb.sndNxt s.ack)
  | .send _ data => Takes m.conn.pcb data →
      FireFits m.edge m.wnd m.conn.acked (usable m.conn.pcb.sndWnd)
        (m.conn.pcb.txb.length + data.length) (sub32 m.conn.pcb.sndNxt m.conn.pcb.sndUna)
  | .tick now => Resends now m.conn.pcb →
      FireFits m.edge m.wnd m.conn.acked tcpSndBuf m.conn.pcb.txb.length 0
  | _ => True

/-! ### Transmissions -/

variable {p : Pcb} {s : Segment} {out : List Segment} {now : Nat}

/-- The segments with data, of two lists. -/
theorem dataOf_append (out out' : List Segment) :
    dataOf (out ++ out') = dataOf out ++ dataOf out' :=
  filter_append ..

/-- Segments without data. -/
theorem dataOf_nil (h : ∀ s ∈ out, s.data = []) : dataOf out = [] := by
  refine filter_eq_nil_iff.mpr fun s hs => ?_
  rw [decide_eq_true_eq, not_not]
  exact h s hs

/-- Every segment of the loop has data. -/
theorem dataOf_fired {una w len a : Nat} {f : Nat × List Segment} (h : Fired una w len a f) :
    dataOf f.2 = f.2 := by
  refine filter_eq_self.mpr fun s hs => ?_
  rw [decide_eq_true_eq]
  exact (h.each s hs).1

/-- A transmission from `snd_una + t` on keeps to the edge exactly when its end
does. -/
theorem Fired.controlled_iff {una t w len a acked edge wnd : Nat} {f : Nat × List Segment}
    (h : Fired (add32 una t) w len a f) (huna : una < 4294967296)
    (hsmall : t + fireEnd w len a < 4294967296) :
    ((∀ s ∈ f.2, acked + sub32 s.seq una + s.data.length ≤ edge) ∨ wnd = 0 ∧ f.2.length ≤ 1) ↔
      FireFits edge wnd (acked + t) w len a := by
  have hdist : ∀ k, k ≤ fireEnd w len a → sub32 (add32 (add32 una t) k) una = t + k := by
    intro k hk
    rw [add32_add32]
    exact sub32_add32 huna (by omega)
  unfold FireFits
  rw [h.one]
  constructor
  · rintro (hall | hprobe)
    · rcases h.last with hnil | ⟨s, hs, k, hseq, hk⟩
      · exact .inl (h.quiet.mp hnil)
      · have hend := hall s hs
        rw [hseq, hdist k (by omega)] at hend
        exact .inr (.inl (by omega))
    · exact .inr (.inr hprobe)
  · rintro (hend | hend | hprobe)
    · rw [h.quiet.mpr hend]
      exact .inl (forall_mem_nil _)
    · refine .inl fun s hs => ?_
      obtain ⟨-, k, hseq, hk⟩ := h.each s hs
      rw [hseq, hdist k (by omega)]
      omega
    · exact .inr hprobe

/-- The timer sends what `tcp_fire` would send from `snd_una` on with a window
of the size of the buffer. -/
theorem tcpResend_eq (huna : p.sndUna < 4294967296) (hlen : p.txb.length ≤ tcpSndBuf) :
    ∀ fuel a, a ≤ p.txb.length →
      tcpResend p fuel (add32 p.sndUna a) (p.txb.drop a) =
        (tcpFireLoop p (add32 p.sndUna p.txb.length) tcpSndBuf fuel (add32 p.sndUna a)).2 := by
  have hbuf : tcpSndBuf = 8192 := rfl
  have hmss : tcpMss = 1460 := rfl
  intro fuel
  induction fuel with
  | zero => exact fun _ _ => rfl
  | succ fuel ih =>
    intro a ha
    have hahead : sub32 (add32 p.sndUna a) p.sndUna = a := sub32_add32 huna (by omega)
    have havail : sub32 (add32 p.sndUna p.txb.length) (add32 p.sndUna a) = p.txb.length - a := by
      unfold sub32 add32
      omega
    -- the window is the whole buffer, so the loop stops at its end only
    have hcond : (seqLt (add32 p.sndUna a) (add32 p.sndUna p.txb.length) &&
        (decide (2147483648 ≤ a) || decide (a < tcpSndBuf + 1))) = true ↔ a < p.txb.length := by
      rw [Bool.and_eq_true, Bool.or_eq_true, seqLt, decide_eq_true_eq, decide_eq_true_eq,
        decide_eq_true_eq, sub32, add32, add32]
      omega
    rw [tcpFireLoop]
    simp only
    rw [hahead, havail]
    cases hrest : p.txb.drop a with
    | nil =>
      have hall : p.txb.length ≤ a := drop_eq_nil_iff.mp hrest
      rw [if_neg fun hgo => absurd (hcond.mp hgo) (not_lt.mpr hall)]
      rfl
    | cons x xs =>
      have hleft : (x :: xs).length = p.txb.length - a := by rw [← hrest, length_drop]
      have hpos : 0 < (x :: xs).length := Nat.succ_pos _
      rw [if_pos (hcond.mpr (by omega)), if_neg (by omega)]
      simp only [tcpResend]
      have hseg : min (min (p.txb.length - a) tcpMss) tcpSndBuf = min (x :: xs).length tcpMss := by
        omega
      rw [hseg, add32_add32, ← ih _ (by omega), ← hrest, drop_drop]

section

variable (hp : InFlight p)

include hp

/-- The segments that a tick sends again. -/
theorem InFlight.resent :
    ∃ f, Fired p.sndUna tcpSndBuf p.txb.length 0 f ∧
      tcpResend p p.txb.length p.sndUna p.txb = f.2 := by
  have hzero : add32 p.sndUna 0 = p.sndUna := Nat.mod_eq_of_lt hp.una_lt
  have h := fired_loop hp.una_lt hp.len_le (w := tcpSndBuf) (by decide) p.txb.length 0
    (Nat.zero_le _) (Nat.sub_le ..)
  refine ⟨_, h, ?_⟩
  have heq := tcpResend_eq hp.una_lt hp.len_le p.txb.length 0 (Nat.zero_le _)
  rw [hzero] at heq
  rw [hzero]
  exact heq

/-- An acknowledgement of buffered bytes. -/
theorem InFlight.ackAdvance_fired (now : Nat) {ack : Nat} (hack : ack < 4294967296)
    (hnxt : seqLt p.sndNxt ack = false) (huna : seqLt p.sndUna ack = true) (hheld : p.txb ≠ []) :
    (tcpAckAdvance now p ack).1.sndUna = ack ∧
      ∃ f, Fired ack (usable p.sndWnd) (p.txb.length - sub32 ack p.sndUna) (sub32 p.sndNxt ack) f ∧
        (tcpAckAdvance now p ack).2 = f.2 := by
  have hpos : sub32 ack p.sndUna ≠ 0 := by
    have := hp.una_lt
    have hlt := huna
    rw [seqLt, decide_eq_true_eq] at hlt
    unfold sub32 at *
    omega
  have hlen := length_pos_of_ne_nil hheld
  have hleft : (p.txb.drop (min (sub32 ack p.sndUna) p.txb.length)).length =
      p.txb.length - sub32 ack p.sndUna := by
    rw [length_drop]
    omega
  have hfire : ∀ tmo retry, (tcpFire now { p with
        txb := p.txb.drop (min (sub32 ack p.sndUna) p.txb.length)
        sndUna := ack
        tmo := tmo
        retry := retry }).1.sndUna = ack ∧
      ∃ f, Fired ack (usable p.sndWnd) (p.txb.length - sub32 ack p.sndUna) (sub32 p.sndNxt ack) f ∧
        (tcpFire now { p with
          txb := p.txb.drop (min (sub32 ack p.sndUna) p.txb.length)
          sndUna := ack
          tmo := tmo
          retry := retry }).2 = f.2 := by
    intro tmo retry
    obtain ⟨f, hf, hout, -⟩ := (hp.acked hack hnxt huna tmo retry).fired now
    rw [← hleft]
    exact ⟨tcpFire_sndUna, f, hf, hout⟩
  simp only [tcpAckAdvance, huna, if_true]
  rw [if_neg (by omega)]
  split
  · exact hfire 0 0
  · exact hfire p.tmo p.retry

/-- The segment gets to `tcp_fire` in `tcp_input_established`. -/
theorem InFlight.inputEstablished_fired (now : Nat) (hack : s.ack < 4294967296)
    (hsent : seqLt p.sndNxt s.ack = false)
    (hflags : s.flags.rst = false ∧ s.flags.syn = false ∧ s.flags.ack = true)
    (hfresh : seqLt p.sndUna s.ack = true) (hheld : p.txb ≠ []) :
    (tcpInputEstablished now p s.seq s.flags s.data s.ack).1.sndUna = s.ack ∧
      ∃ f, Fired s.ack (usable p.sndWnd) (p.txb.length - sub32 s.ack p.sndUna)
          (sub32 p.sndNxt s.ack) f ∧
        dataOf (tcpInputEstablished now p s.seq s.flags s.data s.ack).2 = f.2 := by
  obtain ⟨hrst, hsyn, hflag⟩ := hflags
  obtain ⟨huna, f, hf, hout⟩ := hp.ackAdvance_fired now hack hsent hfresh hheld
  simp only [tcpInputEstablished, hrst, hsyn, hflag, hsent, Bool.false_eq_true, Bool.and_false,
    if_false, if_true]
  have hpay := sameSend_tcpPayload (tcpAckAdvance now p s.ack).1 s.seq s.flags s.data
  refine ⟨hpay.una.trans huna, f, hf, ?_⟩
  rw [dataOf_append, hout, dataOf_fired hf, dataOf_nil fun t ht => (hpay.bare t ht).1, append_nil]

end

/-- Any other segment sends no data there. -/
theorem inputEstablished_quiet (now : Nat) (h : ¬ (s.flags.rst = false ∧ s.flags.syn = false ∧
    s.flags.ack = true ∧ seqLt p.sndNxt s.ack = false ∧ seqLt p.sndUna s.ack = true ∧ p.txb ≠ [])) :
    dataOf (tcpInputEstablished now p s.seq s.flags s.data s.ack).2 = [] := by
  have hack : dataOf [tcpAck p] = [] := dataOf_nil fun t ht => (bare_tcpAck t ht).1
  unfold tcpInputEstablished
  split
  · rfl
  split
  · rfl
  split
  · exact hack
  rename_i hrst hsyn hsent
  have hadv : (if s.flags.ack = true then tcpAckAdvance now p s.ack else (p, [])) = (p, []) := by
    split
    · rename_i hflag
      simp only [tcpAckAdvance]
      split
      · rename_i hfresh
        have hnil : p.txb = [] := by
          by_contra hheld
          exact h (by simp_all)
        rw [if_pos (by rw [hnil]; exact Nat.min_zero _)]
      · rfl
    · rfl
  rw [hadv]
  exact dataOf_nil fun t ht => ((sameSend_tcpPayload p s.seq s.flags s.data).bare t ht).1

/-- Closing sends no data. -/
theorem tcpClosing_quiet (now : Nat) (p : Pcb) (flags : Flags) (ack : Nat) :
    (tcpClosing now p flags ack).1.sndUna = p.sndUna ∧
      dataOf (tcpClosing now p flags ack).2 = [] := by
  unfold tcpClosing
  split_ifs <;> exact ⟨rfl, rfl⟩

/-- `tcp_input` on an acknowledgement of buffered bytes. -/
theorem Acks.input (h : Acks p s) (now : Nat) (hp : InFlight p) (hs : s.Fits) :
    (tcpInput now p s).1.sndUna = s.ack ∧
      ∃ f, Fired s.ack (usable s.wnd) (p.txb.length - sub32 s.ack p.sndUna)
        (sub32 p.sndNxt s.ack) f ∧
        dataOf (tcpInput now p s).2 = f.2 := by
  obtain ⟨hactive, ⟨hlisten, hsyn, hrcvd⟩, hflags, hsent, hfresh, hheld⟩ := h
  have hopen : ¬ (p.active = false ∨ p.state = .listen) := by simp [hactive, hlisten]
  simp only [tcpInput, if_neg hopen]
  split
  · rename_i hst
    exact absurd hst hsyn
  · rename_i hst
    rw [if_pos ⟨hflags.2.2, hrcvd hst⟩]
    have hq : InFlight { p with
        sndWnd := usable s.wnd, state := .established, retry := 0, tmo := 0 } :=
      hp.congr rfl rfl rfl (by rw [hst]; exact Nat.zero_le _)
    have hfired := hq.inputEstablished_fired now hs.2.1 hsent hflags hfresh hheld
    rw [usable_usable] at hfired
    exact hfired
  · have hq : InFlight { p with sndWnd := usable s.wnd } := hp.congr rfl rfl rfl le_rfl
    have hfired := hq.inputEstablished_fired now hs.2.1 hsent hflags hfresh hheld
    rw [usable_usable] at hfired
    obtain ⟨huna, f, hf, hout⟩ := hfired
    obtain ⟨hsame, hquiet⟩ := tcpClosing_quiet now
      (tcpInputEstablished now { p with sndWnd := usable s.wnd } s.seq s.flags s.data s.ack).1
      s.flags s.ack
    refine ⟨hsame.trans huna, f, hf, ?_⟩
    rw [dataOf_append, ← hout]
    exact (congrArg _ hquiet).trans (append_nil _)

/-- Any other segment sends no data. -/
theorem tcpInput_quiet (h : ¬ Acks p s) : dataOf (tcpInput now p s).2 = [] := by
  simp only [tcpInput]
  split
  · rfl
  rename_i hopen
  rw [not_or, Bool.not_eq_false] at hopen
  split
  · -- the SYN|ACK leaves nothing to acknowledge
    split
    · have hrest := inputEstablished_quiet now (s := { s with seq := add32 s.seq 1 })
        (p := { p with
          sndWnd := if s.wnd ≠ 0 then s.wnd else tcpMss, irs := s.seq, rcvNxt := add32 s.seq 1
          sndUna := s.ack, sndNxt := s.ack, state := .established, retry := 0, tmo := 0 })
        (fun hall => by
          have hself : seqLt s.ack s.ack = true := hall.2.2.2.2.1
          rw [show seqLt s.ack s.ack = false from hall.2.2.2.1] at hself
          cases hself)
      exact hrest
    · rfl
  · rename_i hst
    split
    · rename_i hnum
      refine inputEstablished_quiet now fun hall => h ⟨hopen.1, ⟨hopen.2, ?_, fun _ => hnum.2⟩,
        ⟨hall.1, hall.2.1, hall.2.2.1⟩, hall.2.2.2.1, hall.2.2.2.2.1, hall.2.2.2.2.2⟩
      rw [hst]
      decide
    · rfl
  · rename_i hsyn hrcvd
    have hrest := inputEstablished_quiet now (s := s)
      (p := { p with sndWnd := if s.wnd ≠ 0 then s.wnd else tcpMss })
      (fun hall => h ⟨hopen.1, ⟨hopen.2, hsyn, fun hst => absurd hst hrcvd⟩,
        ⟨hall.1, hall.2.1, hall.2.2.1⟩, hall.2.2.2.1, hall.2.2.2.2.1, hall.2.2.2.2.2⟩)
    rw [dataOf_append, hrest]
    exact (tcpClosing_quiet ..).2

/-! ### Runs -/

variable {m : Metered} {c' : Sender}

/-- The data of a step is the data of the call. -/
theorem newData_eq {e : Event} {o : Outcome} (ho : pcbStep m.conn.pcb e = some o)
    (hstep : sendStep m.conn e = some c') : newData m (m.next c' e) = dataOf o.out := by
  have hout : c'.out = m.conn.out ++ o.out := by
    rw [sendStep, ho, Option.map_some, Option.some.injEq] at hstep
    rw [← hstep]
    split <;> rfl
  have hconn : (m.next c' e).conn = c' := by cases e <;> rfl
  rw [newData, hconn, hout, drop_left]

/-- A call without data keeps to the edge. -/
theorem flowControlled_quiet {e : Event} {o : Outcome} (ho : pcbStep m.conn.pcb e = some o)
    (hquiet : dataOf o.out = []) : FlowControlled m e := by
  intro m' hstep
  obtain ⟨c', hc', rfl⟩ := Option.map_eq_some_iff.mp hstep
  rw [newData_eq ho hc', hquiet]
  exact .inl (forall_mem_nil _)

/-- A call whose data is a transmission from `snd_una + t` on keeps to the edge
exactly when the end of the transmission does. -/
theorem flowControlled_fired {e : Event} {o : Outcome} {f : Nat × List Segment}
    {edge wnd t w len a : Nat} (hp : InFlight m.conn.pcb) (ho : pcbStep m.conn.pcb e = some o)
    (hnext : ∀ c', sendStep m.conn e = some c' →
      (m.next c' e).edge = edge ∧ (m.next c' e).wnd = wnd)
    (hf : Fired (add32 m.conn.pcb.sndUna t) w len a f) (hsmall : t + fireEnd w len a < 4294967296)
    (hout : dataOf o.out = f.2) :
    FlowControlled m e ↔ FireFits edge wnd (m.conn.acked + t) w len a := by
  rw [← hf.controlled_iff hp.una_lt hsmall]
  have hstep : ∃ c', sendStep m.conn e = some c' := by
    rw [sendStep, ho]
    exact ⟨_, rfl⟩
  obtain ⟨c', hc'⟩ := hstep
  have hmeter : meterStep m e = some (m.next c' e) := by rw [meterStep, hc', Option.map_some]
  obtain ⟨hedge, hwnd⟩ := hnext c' hc'
  unfold FlowControlled
  rw [hmeter]
  constructor
  · intro h
    have hdata := h _ rfl
    rwa [newData_eq ho hc', hout, hedge, hwnd] at hdata
  · rintro h _ ⟨⟩
    rwa [newData_eq ho hc', hout, hedge, hwnd]

/-- The same for a call of the application or the timer, which leaves the edge
alone and transmits from `snd_una` on. -/
theorem flowControlled_call {e : Event} {o : Outcome} {f : Nat × List Segment} {w len a : Nat}
    (hp : InFlight m.conn.pcb) (hcall : e.segments = []) (ho : pcbStep m.conn.pcb e = some o)
    (hf : Fired m.conn.pcb.sndUna w len a f) (hsmall : max len a ≤ tcpSndBuf + 1)
    (hout : o.out = f.2) :
    FlowControlled m e ↔ FireFits m.edge m.wnd m.conn.acked w len a := by
  have hnext : ∀ c', sendStep m.conn e = some c' →
      (m.next c' e).edge = m.edge ∧ (m.next c' e).wnd = m.wnd := by
    cases e with
    | arrive now s => cases hcall
    | send | recv | close | shutdown | tick | tickChild | free => exact fun _ _ => ⟨rfl, rfl⟩
  have hzero : add32 m.conn.pcb.sndUna 0 = m.conn.pcb.sndUna := Nat.mod_eq_of_lt hp.una_lt
  have hbuf : tcpSndBuf = 8192 := rfl
  have hbound := fireEnd_bounds w len a
  have hdata : dataOf o.out = f.2 := by
    rw [hout]
    exact dataOf_fired hf
  rw [← hzero] at hf
  exact flowControlled_fired (t := 0) hp ho hnext hf (by omega) hdata

/-- The right edge of an acknowledgement that moves `snd_una` to its
number. -/
theorem next_acks (hacks : Acks m.conn.pcb s) (hp : InFlight m.conn.pcb) (hs : s.Fits)
    (hstep : sendStep m.conn (.arrive now s) = some c') :
    (m.next c' (.arrive now s)).edge = max m.edge (m.conn.position s.ack + s.wnd) ∧
      (m.next c' (.arrive now s)).wnd = s.wnd := by
  obtain ⟨-, rfl⟩ := sendStep_arrive hstep
  have huna := (hacks.input now hp hs).1
  have hself : seqLt s.ack s.ack = false := by
    have hlt := hs.2.1
    rw [seqLt, decide_eq_false_iff_not, sub32]
    omega
  have hzero : sub32 s.ack s.ack = 0 := by
    have hlt := hs.2.1
    unfold sub32
    omega
  refine ⟨?_, rfl⟩
  rw [if_neg fun h => hacks.opened.2.1 h.1]
  simp only [Metered.next, hacks.flags.2.2, if_true, if_neg hacks.opened.2.1, rightEdge,
    Sender.position, Sender.next, huna, hself, hzero, Bool.false_eq_true, if_false, Nat.add_zero]

/-- A segment arrives, and its window lets data out. -/
theorem flowControlled_arrive (hp : InFlight m.conn.pcb) :
    FlowControlled m (.arrive now s) ↔ Fits m (.arrive now s) := by
  by_cases hs : s.Fits
  · have ho : pcbStep m.conn.pcb (.arrive now s) =
        some { pcb := (tcpInput now m.conn.pcb s).1, out := (tcpInput now m.conn.pcb s).2 } :=
      if_pos hs
    by_cases hacks : Acks m.conn.pcb s
    · obtain ⟨-, f, hf, hout⟩ := hacks.input now hp hs
      have hnum : add32 m.conn.pcb.sndUna (sub32 s.ack m.conn.pcb.sndUna) = s.ack := by
        have hlt := hs.2.1
        have huna := hp.una_lt
        unfold add32 sub32
        omega
      have hbound := fireEnd_bounds (usable s.wnd)
        (m.conn.pcb.txb.length - sub32 s.ack m.conn.pcb.sndUna) (sub32 m.conn.pcb.sndNxt s.ack)
      -- no sum of these distances wraps
      have hsmall : sub32 s.ack m.conn.pcb.sndUna + max m.conn.pcb.txb.length
          (sub32 m.conn.pcb.sndNxt s.ack) < 4294967296 := by
        obtain ⟨huna, hnxt, hlen, hahead⟩ := hp
        have hbuf : tcpSndBuf = 8192 := rfl
        have hfin := finNumber_le m.conn.pcb.state
        have hlt := hs.2.1
        have hsent := hacks.sent
        have hfresh := hacks.fresh
        rw [seqLt, decide_eq_false_iff_not] at hsent
        rw [seqLt, decide_eq_true_eq] at hfresh
        unfold sub32 at *
        omega
      have hfrom : Fired (add32 m.conn.pcb.sndUna (sub32 s.ack m.conn.pcb.sndUna)) (usable s.wnd)
          (m.conn.pcb.txb.length - sub32 s.ack m.conn.pcb.sndUna) (sub32 m.conn.pcb.sndNxt s.ack)
            f := by
        rw [hnum]
        exact hf
      rw [flowControlled_fired hp ho (fun c' => next_acks hacks hp hs) hfrom (by omega) hout]
      exact ⟨fun h _ _ => h, fun h => h hs hacks⟩
    · exact iff_of_true (flowControlled_quiet ho (tcpInput_quiet hacks)) fun _ h => absurd h hacks
  · refine iff_of_true (fun m' hstep => ?_) fun h => absurd h hs
    obtain ⟨c', hc', -⟩ := Option.map_eq_some_iff.mp hstep
    obtain ⟨o, ho, -⟩ := Option.map_eq_some_iff.mp hc'
    exact absurd (Option.ite_none_right_eq_some.mp ho).1 hs

/-- The application writes. -/
theorem flowControlled_send (hp : InFlight m.conn.pcb) (data : List UInt8) :
    FlowControlled m (.send now data) ↔ Fits m (.send now data) := by
  by_cases htakes : Takes m.conn.pcb data
  · obtain ⟨hest, hdata, hroom⟩ := htakes
    have hlen := hp.len_le
    have hbuf : tcpSndBuf = 8192 := rfl
    have hq : InFlight { m.conn.pcb with txb := m.conn.pcb.txb ++ data } := by
      refine ⟨hp.una_lt, hp.nxt_lt, ?_, ?_⟩
      · rw [length_append]
        omega
      · show sub32 m.conn.pcb.sndNxt m.conn.pcb.sndUna ≤
          (m.conn.pcb.txb ++ data).length + finNumber m.conn.pcb.state
        rw [length_append]
        exact hp.ahead.trans (by omega)
    obtain ⟨f, hf, hout, -⟩ := hq.fired now
    have hfrom : Fired m.conn.pcb.sndUna (usable m.conn.pcb.sndWnd)
        (m.conn.pcb.txb.length + data.length) (sub32 m.conn.pcb.sndNxt m.conn.pcb.sndUna) f := by
      rw [← length_append]
      exact hf
    have hsend : (tcpSend now m.conn.pcb data).2.2 = f.2 := by
      rw [tcpSend, if_neg (by simp [hest, hdata]), if_neg (by omega)]
      exact hout
    have hahead := hp.ahead
    have hfin := finNumber_le m.conn.pcb.state
    rw [flowControlled_call hp rfl rfl hfrom (by omega) hsend]
    exact ⟨fun h _ => h, fun h => h ⟨hest, hdata, hroom⟩⟩
  · -- a refused write sends nothing
    refine iff_of_true (flowControlled_quiet (o := _) rfl ?_) fun h => absurd h htakes
    have hrefused : (tcpSend now m.conn.pcb data).2.2 = [] := by
      simp only [tcpSend]
      split
      · rfl
      split
      · rfl
      · rename_i hopen hroom
        rw [not_or, not_not] at hopen
        exact absurd ⟨hopen.1, fun hnil => hopen.2 (by rw [hnil]; rfl), by omega⟩ htakes
    show dataOf (tcpSend now m.conn.pcb data).2.2 = []
    rw [hrefused]
    rfl

/-- The timer runs out. -/
theorem flowControlled_tick (hp : InFlight m.conn.pcb) :
    FlowControlled m (.tick now) ↔ Fits m (.tick now) := by
  by_cases hresends : Resends now m.conn.pcb
  · obtain ⟨hactive, htmo, hdue, hsyn, hout, hretry⟩ := hresends
    obtain ⟨f, hf, heq⟩ := hp.resent
    have htick : (tcpTick now m.conn.pcb).2 =
        tcpResend m.conn.pcb m.conn.pcb.txb.length m.conn.pcb.sndUna m.conn.pcb.txb := by
      simp [tcpTick, hactive, htmo, hdue, hsyn, hout, not_lt.mpr hretry]
    have hlen := hp.len_le
    rw [flowControlled_call hp rfl rfl hf (by omega) (htick.trans heq)]
    exact ⟨fun h _ => h, fun h => h ⟨hactive, htmo, hdue, hsyn, hout, hretry⟩⟩
  · refine iff_of_true (flowControlled_quiet (o := _) rfl ?_) fun h => absurd h hresends
    show dataOf (tcpTick now m.conn.pcb).2 = []
    simp only [tcpTick]
    split
    · rfl
    rename_i hdue
    rw [not_or, not_or, Bool.not_eq_false, Bool.not_eq_true] at hdue
    split
    · split <;> rfl
    rename_i hsyn
    split
    · rename_i hout
      split
      · rfl
      rename_i hretry
      exact absurd ⟨hdue.1, hdue.2.1, hdue.2.2, hsyn, hout, not_lt.mp hretry⟩ hresends
    split
    · split <;> rfl
    split <;> rfl

/-- One event keeps to the edge exactly when what it transmits does. -/
theorem flowControlled_iff (hp : InFlight m.conn.pcb) (e : Event) :
    FlowControlled m e ↔ Fits m e := by
  cases e with
  | arrive now s => exact flowControlled_arrive hp
  | send now data => exact flowControlled_send hp data
  | tick now => exact flowControlled_tick hp
  | recv len =>
    refine iff_of_true (flowControlled_quiet (o := _) rfl (dataOf_nil ?_)) trivial
    simp only [tcpRecv]
    split_ifs <;> simp [tcpAck, tcpEmit]
  | close now =>
    refine iff_of_true (flowControlled_quiet (o := _) rfl (dataOf_nil ?_)) trivial
    simp only [tcpClose]
    split_ifs <;> simp [tcpEmit]
  | shutdown now rd wr =>
    refine iff_of_true (flowControlled_quiet (o := _) rfl (dataOf_nil ?_)) trivial
    simp only [tcpShutdown]
    split_ifs <;> simp [tcpEmit]
  | tickChild now =>
    refine iff_of_true (flowControlled_quiet (o := _) rfl (dataOf_nil ?_)) trivial
    simp only [tcpTickChild]
    split_ifs <;> simp [tcpEmit]
  | free => exact iff_of_true (flowControlled_quiet (o := _) rfl rfl) trivial

/-- Two bytes into a window of two, and their retransmission. -/
def twoIntoTwo : List Event :=
  [.arrive 0 { pureAck 7 with wnd := 2 }, .send 0 [5, 9], .tick 1000]

end CoreZ.Proofs.Net
