import CoreZ.Proofs.Net.TcpSend

/-!
# `CoreZ.Proofs.Net.TcpFire`: how far `tcp_fire` gets

`tcp_fire` sends one segment after another as long as the next one starts
at most `window` bytes behind `snd_una`. The test is made before a segment,
not for its bytes, and it allows the distance `window` itself, so the last
segment can end behind the window. `fireEnd` is the distance at which the
loop stops, as a formula in the window, the fill level of the buffer and the
distance of `snd_nxt`. `fired_tcpFire` says that the segments of `tcp_fire`
reach from the one to the other.

The distances are small because of `InFlight`: between `snd_una` and
`snd_nxt` there are at most the buffered bytes and a FIN. Every event keeps
this (`InFlight.pcbStep`), whatever arrives and whatever was written, also
where the numbers wrap.
-/

set_option autoImplicit false

namespace CoreZ.Proofs.Net

open CoreZ.Net.Tcp
open List

/-! ### The loop -/

/-- The distance from `snd_una` at which the loop of `tcp_fire` ends, for a
window `w`, `len` buffered bytes and a start at the distance `ahead`.
Segments of `min(TCP_MSS, w)` bytes follow each other until one of them
would start more than `w` behind `snd_una`; the buffer ends the last one. -/
def fireEnd (w len ahead : Nat) : Nat :=
  if len ≤ ahead ∨ w < ahead then ahead
  else min len (ahead + ((w - ahead) / min tcpMss w + 1) * min tcpMss w)

/-- Nothing is sent: the buffer has no further byte, or the window test
fails at once. -/
theorem fireEnd_stop {w len ahead : Nat} (h : len ≤ ahead ∨ w < ahead) :
    fireEnd w len ahead = ahead := if_pos h

/-- The loop ends between where it starts and the end of the buffer. -/
theorem fireEnd_bounds (w len ahead : Nat) :
    ahead ≤ fireEnd w len ahead ∧ fireEnd w len ahead ≤ max len ahead := by
  unfold fireEnd
  split
  · omega
  · exact ⟨by omega, by omega⟩

/-- One round of the loop does not change where it ends. -/
theorem fireEnd_round {w len ahead : Nat} (hw : 0 < w) (hlen : ahead < len) (hahead : ahead ≤ w) :
    fireEnd w len (ahead + min (min (len - ahead) tcpMss) w) = fireEnd w len ahead := by
  have hmss : tcpMss = 1460 := rfl
  have hstart : fireEnd w len ahead =
      min len (ahead + ((w - ahead) / min tcpMss w + 1) * min tcpMss w) := if_neg (by omega)
  rw [hstart, Nat.min_assoc, Nat.succ_mul]
  generalize hq : min tcpMss w = q
  by_cases hshort : len - ahead ≤ q
  · -- the buffer ends in this segment
    rw [Nat.min_eq_left hshort, fireEnd_stop (.inl (by omega))]
    omega
  rw [Nat.min_eq_right (by omega)]
  by_cases hlast : w < ahead + q
  · rw [fireEnd_stop (.inr hlast), Nat.div_eq_of_lt (by omega)]
    omega
  · -- the number of full segments goes down by one
    have hdiv : (w - ahead) / q = (w - (ahead + q)) / q + 1 := by
      rw [← Nat.add_div_right _ (by omega)]
      congr 1
      omega
    rw [fireEnd, if_neg (by omega), hq, hdiv, Nat.succ_mul]
    omega

/-- The result of the loop from the distance `a` on: it ends at `fireEnd`,
the segments carry bytes up to there, the last of them reaches it, and there
is at most one exactly when one full segment gets that far. -/
structure Fired (una w len a : Nat) (r : Nat × List Segment) : Prop where
  cursor : r.1 = add32 una (fireEnd w len a)
  each : ∀ s ∈ r.2, s.data ≠ [] ∧
    ∃ k, s.seq = add32 una k ∧ k + s.data.length ≤ fireEnd w len a
  quiet : r.2 = [] ↔ fireEnd w len a = a
  last : r.2 = [] ∨ ∃ s ∈ r.2, ∃ k, s.seq = add32 una k ∧ k + s.data.length = fireEnd w len a
  one : r.2.length ≤ 1 ↔ fireEnd w len a ≤ a + min tcpMss w

variable {p q : Pcb} {w a : Nat}

/-- The loop does not start. -/
theorem fired_stop {una len : Nat} (h : len ≤ a ∨ w < a) :
    Fired una w len a (add32 una a, []) := by
  have hend := fireEnd_stop h
  refine ⟨by rw [hend], forall_mem_nil _, iff_of_true rfl hend, .inl rfl, ?_⟩
  rw [hend]
  exact iff_of_true (Nat.zero_le 1) (Nat.le_add_right ..)

/-- Distances behind a number, read off the wrapped numbers. -/
theorem add32_add32 (x y z : Nat) : add32 (add32 x y) z = add32 x (y + z) := by
  unfold add32
  omega

/-- A distance of sequence numbers, read back. -/
theorem sub32_add32 {x y : Nat} (hx : x < 4294967296) (hy : y < 4294967296) :
    sub32 (add32 x y) x = y := by
  unfold sub32 add32
  omega

/-- By induction on the bytes that are left; each round sends one segment. -/
theorem fired_loop (huna : p.sndUna < 4294967296) (hlen : p.txb.length ≤ tcpSndBuf) (hw : 0 < w) :
    ∀ fuel a, a ≤ p.txb.length + 1 → p.txb.length - a ≤ fuel →
      Fired p.sndUna w p.txb.length a
        (tcpFireLoop p (add32 p.sndUna p.txb.length) w fuel (add32 p.sndUna a)) := by
  have hbuf : tcpSndBuf = 8192 := rfl
  intro fuel
  -- on the rounds that are left; `a` is the distance of the cursor from `snd_una`
  induction fuel with
  | zero => exact fun a ha hfuel => fired_stop (.inl (by omega))
  | succ fuel ih =>
    intro a ha hfuel
    rw [tcpFireLoop]
    simp only
    have hahead : sub32 (add32 p.sndUna a) p.sndUna = a := sub32_add32 huna (by omega)
    have havail : a ≤ p.txb.length →
        sub32 (add32 p.sndUna p.txb.length) (add32 p.sndUna a) = p.txb.length - a := by
      intro hle
      unfold sub32 add32
      omega
    have hcond : (seqLt (add32 p.sndUna a) (add32 p.sndUna p.txb.length) &&
        (decide (2147483648 ≤ a) || decide (a < w + 1))) = true ↔ a < p.txb.length ∧ a ≤ w := by
      rw [Bool.and_eq_true, Bool.or_eq_true, seqLt, decide_eq_true_eq, decide_eq_true_eq,
        decide_eq_true_eq, sub32, add32, add32]
      omega
    rw [hahead]
    split
    · rename_i hgo
      obtain ⟨hlt, hle⟩ := hcond.mp hgo
      rw [havail hlt.le]
      have hmss : tcpMss = 1460 := rfl
      -- this round sends `seg` bytes, the rest is the induction hypothesis
      have hround := fireEnd_round hw hlt hle
      generalize hseg : min (min (p.txb.length - a) tcpMss) w = seg at hround
      rw [if_neg (by omega), add32_add32]
      have hrest := ih (a + seg) (by omega) (by omega)
      have hdata : ((p.txb.drop a).take seg).length = seg := by
        rw [length_take, length_drop]
        omega
      have hbound := fireEnd_bounds w p.txb.length (a + seg)
      refine ⟨hrest.cursor.trans (by rw [hround]), ?_, ?_, .inr ?_, ?_⟩
      · intro s hs
        rcases mem_cons.mp hs with rfl | hs
        · refine ⟨fun hnil => ?_, a, rfl, ?_⟩
          · have : ((p.txb.drop a).take seg).length = 0 := congrArg length hnil
            omega
          · show a + ((p.txb.drop a).take seg).length ≤ _
            rw [hdata, ← hround]
            exact hbound.1
        · rw [← hround]
          exact hrest.each s hs
      · exact iff_of_false (cons_ne_nil _ _) (by omega)
      · rcases hrest.last with hnil | ⟨s, hs, k, hseq, hk⟩
        · refine ⟨_, mem_cons_self, a, rfl, ?_⟩
          show a + ((p.txb.drop a).take seg).length = _
          rw [hdata, ← hround, hrest.quiet.mp hnil]
        · exact ⟨s, mem_cons_of_mem _ hs, k, hseq, by rw [← hround]; exact hk⟩
      · -- a second segment would start at the distance `a + seg`
        rw [length_cons, Nat.succ_le_succ_iff, Nat.le_zero, length_eq_zero_iff, hrest.quiet,
          ← hround]
        omega
    · rename_i hstop
      rw [hcond] at hstop
      exact fired_stop (by omega)

/-! ### Numbers in flight -/

/-- A FIN of this side takes a number of its own. Before it is sent the
connection is in one of the first four states. -/
def finNumber : TcpState → Nat
  | .synSent | .synRcvd | .established | .closeWait => 0
  | .closed | .listen | .finWait1 | .finWait2 | .closing | .timeWait | .lastAck => 1

/-- A FIN takes one number. -/
theorem finNumber_le (st : TcpState) : finNumber st ≤ 1 := by
  cases st <;> decide

/-- The numbers between `snd_una` and `snd_nxt` belong to buffered bytes and
the FIN. -/
structure InFlight (p : Pcb) : Prop where
  una_lt : p.sndUna < 4294967296
  nxt_lt : p.sndNxt < 4294967296
  len_le : p.txb.length ≤ tcpSndBuf
  ahead : sub32 p.sndNxt p.sndUna ≤ p.txb.length + finNumber p.state

/-- The window that `tcp_fire` works with. -/
def usable (wnd : Nat) : Nat := if wnd ≠ 0 then wnd else tcpMss

/-- A window of 0 still lets a probe through. -/
theorem usable_pos (wnd : Nat) : 0 < usable wnd := by
  unfold usable tcpMss
  split <;> omega

theorem usable_usable (wnd : Nat) : usable (usable wnd) = usable wnd :=
  if_pos (usable_pos wnd).ne'

section

variable {now : Nat}

/-- The loop of `tcp_fire` starts at `snd_nxt`. -/
theorem InFlight.fired (h : InFlight p) (now : Nat) :
    ∃ r, Fired p.sndUna (usable p.sndWnd) p.txb.length (sub32 p.sndNxt p.sndUna) r ∧
      (tcpFire now p).2 = r.2 ∧
      (tcpFire now p).1.sndNxt = if r.1 > p.sndNxt then r.1 else p.sndNxt := by
  obtain ⟨huna, hnxt, hlen, hahead⟩ := h
  have hbuf : tcpSndBuf = 8192 := rfl
  have hfin := finNumber_le p.state
  have hstart : add32 p.sndUna (sub32 p.sndNxt p.sndUna) = p.sndNxt := by
    unfold add32 sub32
    omega
  have hloop := fired_loop huna hlen (usable_pos p.sndWnd)
    (sub32 (add32 p.sndUna p.txb.length) p.sndNxt) (sub32 p.sndNxt p.sndUna) (by omega)
    (by unfold sub32 add32; omega)
  rw [hstart] at hloop
  have hwnd : (if p.sndWnd ≠ 0 then p.sndWnd else tcpMss) = usable p.sndWnd := rfl
  refine ⟨_, hloop, ?_⟩
  simp only [tcpFire, hwnd]
  split
  · exact ⟨rfl, rfl⟩
  · exact ⟨rfl, rfl⟩

end

/-- Only the numbers, the buffer and the FIN matter. -/
theorem InFlight.congr (h : InFlight p) (huna : q.sndUna = p.sndUna) (hnxt : q.sndNxt = p.sndNxt)
    (htxb : q.txb = p.txb) (hfin : finNumber p.state ≤ finNumber q.state) : InFlight q where
  una_lt := huna ▸ h.una_lt
  nxt_lt := hnxt ▸ h.nxt_lt
  len_le := htxb ▸ h.len_le
  ahead := by
    rw [huna, hnxt, htxb]
    exact h.ahead.trans (Nat.add_le_add_left hfin _)

/-- A FIN takes the number behind `snd_nxt`. -/
theorem InFlight.sendFin (h : InFlight p) (huna : q.sndUna = p.sndUna)
    (hnxt : q.sndNxt = add32 p.sndNxt 1) (htxb : q.txb = p.txb) (hopen : finNumber p.state = 0)
    (hfin : finNumber q.state = 1) : InFlight q := by
  obtain ⟨huna', hnxt', hlen, hahead⟩ := h
  have hbuf : tcpSndBuf = 8192 := rfl
  refine ⟨huna ▸ huna', ?_, htxb ▸ hlen, ?_⟩
  · rw [hnxt]
    exact Nat.mod_lt _ (by decide)
  · rw [huna, hnxt, htxb, hfin]
    rw [hopen] at hahead
    unfold sub32 add32 at *
    omega

section

variable {now : Nat}

/-- Sending moves no acknowledgement. -/
theorem tcpFire_sndUna : (tcpFire now p).1.sndUna = p.sndUna := by
  simp only [tcpFire]
  split_ifs <;> rfl

theorem tcpFire_state : (tcpFire now p).1.state = p.state := by
  simp only [tcpFire]
  split_ifs <;> rfl

/-- What is in flight after sending. -/
theorem InFlight.fire (h : InFlight p) : InFlight (tcpFire now p).1 := by
  obtain ⟨r, hr, -, hnxt⟩ := h.fired now
  obtain ⟨huna, hlt, hlen, hahead⟩ := h
  have hbuf : tcpSndBuf = 8192 := rfl
  have hfin := finNumber_le p.state
  have hbound := fireEnd_bounds (usable p.sndWnd) p.txb.length (sub32 p.sndNxt p.sndUna)
  have hcursor : r.1 < 4294967296 := by
    rw [hr.cursor]
    exact Nat.mod_lt _ (by decide)
  refine ⟨by rw [tcpFire_sndUna]; exact huna, ?_, by rw [tcpFire_txb]; exact hlen, ?_⟩
  · rw [hnxt]
    split
    · exact hcursor
    · exact hlt
  · rw [hnxt, tcpFire_sndUna, tcpFire_txb, tcpFire_state]
    split
    · rw [hr.cursor, sub32_add32 huna (by omega)]
      omega
    · exact hahead

/-- An acknowledgement between the two numbers takes bytes out of the
buffer. -/
theorem InFlight.acked (h : InFlight p) {ack : Nat} (hack : ack < 4294967296)
    (hnxt : seqLt p.sndNxt ack = false) (huna : seqLt p.sndUna ack = true) (tmo retry : Nat) :
    InFlight { p with
      txb := p.txb.drop (min (sub32 ack p.sndUna) p.txb.length)
      sndUna := ack
      tmo := tmo
      retry := retry } := by
  obtain ⟨huna', hnxt', hlen, hahead⟩ := h
  have hbuf : tcpSndBuf = 8192 := rfl
  have hfin := finNumber_le p.state
  rw [seqLt, decide_eq_false_iff_not] at hnxt
  rw [seqLt, decide_eq_true_eq] at huna
  refine ⟨hack, hnxt', ?_, ?_⟩
  · rw [length_drop]
    omega
  · show sub32 p.sndNxt ack ≤ (p.txb.drop _).length + finNumber p.state
    rw [length_drop]
    unfold sub32 at *
    omega

/-- With bytes to send and nothing in flight the loop gets somewhere. -/
theorem fireEnd_pos {w : Nat} (len : Nat) (hw : 0 < w) (hlen : 0 < len) : 0 < fireEnd w len 0 := by
  have hmss : tcpMss = 1460 := rfl
  rw [← fireEnd_round hw hlen (Nat.zero_le w)]
  exact lt_of_lt_of_le (by omega) (fireEnd_bounds ..).1

/-- `tcp_fire` leaves `snd_nxt` at `snd_una` exactly when nothing was in
flight and it either has nothing to send or its cursor wraps: the plain
comparison with `snd_nxt` then fails. -/
theorem InFlight.fire_sndNxt_iff (h : InFlight p) :
    p.sndUna = (tcpFire now p).1.sndNxt ↔ p.sndUna = p.sndNxt ∧ (p.txb.length = 0 ∨
      4294967296 ≤ p.sndUna + fireEnd (usable p.sndWnd) p.txb.length 0) := by
  obtain ⟨r, hr, -, hmoved⟩ := h.fired now
  obtain ⟨huna, hnxt, hlen, hahead⟩ := h
  have hbuf : tcpSndBuf = 8192 := rfl
  have hfin := finNumber_le p.state
  have hbound := fireEnd_bounds (usable p.sndWnd) p.txb.length (sub32 p.sndNxt p.sndUna)
  rw [hmoved, hr.cursor]
  by_cases hsame : p.sndUna = p.sndNxt
  · have hzero : sub32 p.sndNxt p.sndUna = 0 := by
      rw [hsame]
      unfold sub32
      omega
    rw [hzero] at hbound ⊢
    have hpos := fireEnd_pos p.txb.length (usable_pos p.sndWnd)
    rw [← hsame]
    unfold add32
    split <;> omega
  · refine iff_of_false (fun heq => ?_) fun h => hsame h.1
    unfold add32 sub32 at *
    split at heq <;> omega

/-- The same behind an acknowledgement. -/
theorem InFlight.ackAdvance_sndNxt_iff (h : InFlight p) (now : Nat) {ack : Nat}
    (hack : ack < 4294967296)
    (hnxt : seqLt p.sndNxt ack = false) :
    ack = (tcpAckAdvance now p ack).1.sndNxt ↔ ack = p.sndNxt ∧ (seqLt p.sndUna ack = false ∨
      p.txb.length ≤ sub32 ack p.sndUna ∨ 4294967296 ≤
        ack + fireEnd (usable p.sndWnd) (p.txb.length - sub32 ack p.sndUna) 0) := by
  simp only [tcpAckAdvance]
  split
  · rename_i huna
    rw [huna]
    split
    · rename_i hzero
      have hpos : sub32 ack p.sndUna ≠ 0 := by
        have := h.una_lt
        rw [seqLt, decide_eq_true_eq] at huna
        unfold sub32 at *
        omega
      exact ⟨fun heq => ⟨heq, .inr (.inl (by omega))⟩, fun heq => heq.1⟩
    -- the timer fields that may be reset here do not matter
    have hleft : (p.txb.drop (min (sub32 ack p.sndUna) p.txb.length)).length =
        p.txb.length - sub32 ack p.sndUna := by
      rw [length_drop]
      omega
    have hfire : ∀ tmo retry, ack = (tcpFire now { p with
          txb := p.txb.drop (min (sub32 ack p.sndUna) p.txb.length)
          sndUna := ack
          tmo := tmo
          retry := retry }).1.sndNxt ↔
        ack = p.sndNxt ∧ (p.txb.length - sub32 ack p.sndUna = 0 ∨ 4294967296 ≤
          ack + fireEnd (usable p.sndWnd) (p.txb.length - sub32 ack p.sndUna) 0) := by
      intro tmo retry
      rw [← hleft]
      exact (h.acked hack hnxt huna _ _).fire_sndNxt_iff
    rw [← Nat.sub_eq_zero_iff_le]
    simp only [Bool.true_eq_false, false_or]
    split
    · exact hfire 0 0
    · exact hfire p.tmo p.retry
  · rename_i huna
    exact ⟨fun heq => ⟨heq, .inl (by simpa using huna)⟩, fun heq => heq.1⟩

/-- What is in flight after an acknowledgement. -/
theorem InFlight.ackAdvance (h : InFlight p) {ack : Nat} (hack : ack < 4294967296)
    (hnxt : seqLt p.sndNxt ack = false) : InFlight (tcpAckAdvance now p ack).1 := by
  simp only [tcpAckAdvance]
  split
  · rename_i huna
    split
    · exact h
    split
    · exact (h.acked hack hnxt huna _ _).fire
    · exact (h.acked hack hnxt huna p.tmo p.retry).fire
  · exact h

/-- What is in flight after a segment of an open connection. -/
theorem InFlight.inputEstablished (h : InFlight p) {seq ack : Nat} {flags : Flags}
    {data : List UInt8} (hack : ack < 4294967296) :
    InFlight (tcpInputEstablished now p seq flags data ack).1 := by
  unfold tcpInputEstablished
  split
  · exact h.congr rfl rfl rfl (finNumber_le _)
  split
  · exact h
  split
  · exact h
  rename_i hnxt
  have hadv : InFlight (if flags.ack = true then tcpAckAdvance now p ack else (p, [])).1 := by
    split
    · rename_i hflag
      exact h.ackAdvance hack (by simpa [hflag] using hnxt)
    · exact h
  generalize (if flags.ack = true then tcpAckAdvance now p ack else (p, [])) = r at hadv
  have hpay := sameSend_tcpPayload r.1 seq flags data
  refine hadv.congr hpay.una hpay.nxt hpay.txb ?_
  rcases hpay.state with hst | ⟨hst, -⟩
  · rw [hst]
  · rw [hst]
    exact Nat.zero_le _

/-- What is in flight while the connection closes. -/
theorem InFlight.closing (h : InFlight p) {flags : Flags} {ack : Nat} :
    InFlight (tcpClosing now p flags ack).1 := by
  unfold tcpClosing
  split
  · exact h.congr rfl rfl rfl (finNumber_le _)
  split
  · exact h.congr rfl rfl rfl (finNumber_le _)
  split
  · exact h.congr rfl rfl rfl (finNumber_le _)
  split
  · rename_i hclose
    exact h.sendFin rfl rfl rfl (by rw [hclose]; rfl) rfl
  split
  · exact h.congr rfl rfl rfl le_rfl
  · exact h

/-- What is in flight after any segment. -/
theorem InFlight.input (h : InFlight p) {s : Segment} (hack : s.ack < 4294967296) :
    InFlight (tcpInput now p s).1 := by
  have hwnd : InFlight { p with sndWnd := if s.wnd ≠ 0 then s.wnd else tcpMss } :=
    h.congr rfl rfl rfl le_rfl
  simp only [tcpInput]
  split
  · exact h
  split
  · split
    · refine InFlight.inputEstablished ?_ hack
      refine ⟨hack, hack, h.len_le, ?_⟩
      show sub32 s.ack s.ack ≤ _
      unfold sub32
      omega
    · exact hwnd
  · rename_i hsyn
    split
    · refine InFlight.inputEstablished ?_ hack
      refine hwnd.congr rfl rfl rfl ?_
      show finNumber p.state ≤ _
      rw [hsyn]
      exact Nat.zero_le _
    · exact hwnd
  · exact (hwnd.inputEstablished hack).closing

/-- What is in flight after a write. -/
theorem InFlight.send (h : InFlight p) {data : List UInt8} : InFlight (tcpSend now p data).2.1 := by
  simp only [tcpSend]
  split
  · exact h
  split
  · exact h
  rename_i hroom
  have hlen := h.len_le
  refine InFlight.fire ⟨h.una_lt, h.nxt_lt, ?_, ?_⟩
  · rw [length_append]
    omega
  · show sub32 p.sndNxt p.sndUna ≤ (p.txb ++ data).length + finNumber p.state
    rw [length_append]
    exact h.ahead.trans (by omega)

/-- What is in flight after a shutdown. -/
theorem InFlight.shutdown (h : InFlight p) {rd wr : Bool} :
    InFlight (tcpShutdown now p rd wr).1 := by
  simp only [tcpShutdown]
  by_cases hwr : wr = true ∧ (p.state = .established ∨ p.state = .closeWait)
  · rw [if_pos hwr]
    have hopen : finNumber p.state = 0 := by
      rcases hwr.2 with hst | hst <;> rw [hst] <;> rfl
    have hfin : finNumber (if p.state = .established then .finWait1 else .lastAck) = 1 := by
      split <;> rfl
    split
    · exact h.sendFin rfl rfl rfl hopen hfin
    · exact h.sendFin rfl rfl rfl hopen hfin
  · rw [if_neg hwr]
    split
    · exact h.congr rfl rfl rfl le_rfl
    · exact h

end

/-- Every event keeps the numbers in their order. -/
theorem InFlight.pcbStep (h : InFlight p) {e : Event} {o : Outcome} (hstep : pcbStep p e = some o) :
    InFlight o.pcb := by
  cases e with
  | arrive now s =>
    obtain ⟨⟨-, hack, -⟩, ho⟩ := Option.ite_none_right_eq_some.mp hstep
    cases ho
    exact h.input hack
  | send now data =>
    cases hstep
    exact h.send
  | recv len =>
    cases hstep
    simp only [tcpRecv]
    split
    · exact h
    · exact h.congr rfl rfl rfl le_rfl
  | close now =>
    cases hstep
    simp only [tcpClose]
    split
    · rename_i hest
      exact h.sendFin rfl rfl rfl (by rw [hest]; rfl) rfl
    split
    · exact h.congr rfl rfl rfl (finNumber_le _)
    · exact h
  | shutdown now rd wr =>
    cases hstep
    exact h.shutdown
  | tick now =>
    cases hstep
    simp only [tcpTick]
    split_ifs <;> exact h.congr rfl rfl rfl le_rfl
  | tickChild now =>
    cases hstep
    simp only [tcpTickChild]
    split_ifs <;> exact h.congr rfl rfl rfl le_rfl
  | free =>
    cases hstep
    exact h.congr rfl rfl rfl le_rfl

/-- Both opens start with nothing in flight. -/
theorem inFlight_start {c : Sender} (h : SenderStart c) : InFlight c.pcb := by
  have hfresh : ∀ {q : Pcb} (iss : Nat), q.sndUna = add32 iss 1 → q.sndNxt = add32 iss 1 →
      q.txb = [] → InFlight q := by
    intro q iss huna hnxt htxb
    have hlt : add32 iss 1 < 4294967296 := Nat.mod_lt _ (by decide)
    refine ⟨huna ▸ hlt, hnxt ▸ hlt, ?_, ?_⟩
    · rw [htxb]
      exact Nat.zero_le _
    · rw [huna, hnxt]
      unfold sub32
      omega
  cases h with
  | connect now iss pcb => exact hfresh iss rfl rfl rfl
  | accept now iss seq => exact hfresh iss rfl rfl rfl

/-- Every event keeps it. -/
theorem InFlight.sendStep {c c' : Sender} {e : Event} (h : InFlight c.pcb)
    (hstep : sendStep c e = some c') : InFlight c'.pcb := by
  obtain ⟨o, ho, rfl⟩ := Option.map_eq_some_iff.mp hstep
  split <;> exact h.pcbStep ho

end CoreZ.Proofs.Net
