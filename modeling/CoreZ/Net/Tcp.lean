import CoreZ.Lib.Ring

/-!
# `CoreZ.Net.Tcp`: one TCP connection

The model of `drivers/net/tcp.c` for one protocol control block. A
function of the source that works on `struct TCP_PCB *pcb` becomes a
function from `Pcb` to `Pcb`, and the segments it hands to
`ip_output` are a second result, in the order of the calls.

Sequence numbers are naturals below `2 ^ 32`, with the reduction of
the C arithmetic written out (`add32`, `sub32`). The receive ring
keeps the source's free-running 16-bit counters. The send buffer
`txb[0 .. tx_len)` is the list of its used bytes: no function reads
behind `tx_len`.

Not modelled: the checksum, the header bytes and the port lookup of
`tcp_input` (a segment arrives here as its header fields and payload,
already matched to its control block), and the accept queue of a
listener. `net_now_ms()` is an argument of every function that reads
the clock.
-/

set_option autoImplicit false

namespace CoreZ.Net.Tcp

open CoreZ.Lib

def tcpMss : Nat := 1460
def tcpRcvBuf : Nat := 4096
def tcpSndBuf : Nat := 8192
def tcpInitRto : Nat := 1000
def tcpMaxRetry : Nat := 5

/-- `uint32_t` addition. -/
def add32 (a b : Nat) : Nat := (a + b) % 4294967296

/-- `uint32_t` subtraction, for operands below `2 ^ 32`. -/
def sub32 (a b : Nat) : Nat := (a + (4294967296 - b)) % 4294967296

/-- `seq_lt`: `(int32_t)(a - b) < 0`. -/
def seqLt (a b : Nat) : Bool := decide (2147483648 ≤ sub32 a b)

inductive TcpState where
  | closed
  | listen
  | synSent
  | synRcvd
  | established
  | finWait1
  | finWait2
  | closing
  | timeWait
  | closeWait
  | lastAck
  deriving DecidableEq, Repr

/-- The flag bits of a segment that the source looks at. -/
structure Flags where
  fin : Bool := false
  syn : Bool := false
  rst : Bool := false
  ack : Bool := false
  deriving DecidableEq, Repr

structure Segment where
  seq : Nat
  ack : Nat
  flags : Flags
  wnd : Nat
  data : List UInt8
  deriving DecidableEq, Repr

/-- `struct TCP_PCB`, without the addresses and the accept queue. -/
structure Pcb where
  active : Bool
  state : TcpState
  iss : Nat
  irs : Nat
  sndUna : Nat
  sndNxt : Nat
  rcvNxt : Nat
  sndWnd : Nat
  tmo : Nat
  retry : Nat
  rx : Nat → UInt8
  rxHead : Nat
  rxTail : Nat
  txb : List UInt8
  finSent : Bool
  finRcvd : Bool

/-- `tcp_rx_len`: the fill level, a 16-bit difference of the counters. -/
def tcpRxLen (pcb : Pcb) : Nat := (pcb.rxTail + (65536 - pcb.rxHead)) % 65536

def tcpRxRoom (pcb : Pcb) : Nat := tcpRcvBuf - tcpRxLen pcb

/-- `tcp_emit`: the segment it builds. The window is the free space of
the receive ring. -/
def tcpEmit (pcb : Pcb) (seq ack : Nat) (flags : Flags) (data : List UInt8) : Segment :=
  { seq, ack, flags, wnd := (tcpRcvBuf + (65536 - tcpRxLen pcb)) % 65536, data }

/-- The bare acknowledgement that most paths answer with. -/
def tcpAck (pcb : Pcb) : Segment := tcpEmit pcb pcb.sndNxt pcb.rcvNxt { ack := true } []

def tcpRxPut (pcb : Pcb) (data : List UInt8) : Pcb :=
  { pcb with
      rx := ringPut tcpRcvBuf pcb.rx pcb.rxTail data
      rxTail := (pcb.rxTail + data.length) % 65536 }

/-- The loop of `tcp_fire`. Each round sends at least one byte of the
`limit - cursor` that are left, so this number bounds the rounds. -/
def tcpFireLoop (pcb : Pcb) (limit window : Nat) : Nat → Nat → Nat × List Segment
  | 0, cursor => (cursor, [])
  | fuel + 1, cursor =>
    -- `(int32_t)(cursor - snd_una) < (int32_t)(window + 1)`, both sides as signed numbers
    let ahead := sub32 cursor pcb.sndUna
    if seqLt cursor limit && (decide (2147483648 ≤ ahead) || decide (ahead < window + 1)) then
      let seg := min (min (sub32 limit cursor) tcpMss) window
      if seg = 0 then (cursor, [])
      else
        let out := tcpEmit pcb cursor pcb.rcvNxt { ack := true }
          ((pcb.txb.drop (sub32 cursor pcb.sndUna)).take seg)
        let (cursor', outs) := tcpFireLoop pcb limit window fuel (add32 cursor seg)
        (cursor', out :: outs)
    else (cursor, [])

variable (now : Nat) (pcb : Pcb)

/-- `tcp_fire`: send what the window allows. The comparison of the
cursor with `snd_nxt` is the plain one, as in the source. -/
def tcpFire : Pcb × List Segment :=
  let limit := add32 pcb.sndUna pcb.txb.length
  let window := if pcb.sndWnd ≠ 0 then pcb.sndWnd else tcpMss
  let (cursor, out) := tcpFireLoop pcb limit window (sub32 limit pcb.sndNxt) pcb.sndNxt
  if cursor > pcb.sndNxt then
    ({ pcb with
        sndNxt := cursor
        tmo := add32 now tcpInitRto
        retry := if pcb.retry < tcpMaxRetry then pcb.retry + 1 else pcb.retry }, out)
  else (pcb, out)

/-- A control block from `tcp_pcb_alloc`: zeroed and active. -/
def tcpPcbAlloc : Pcb :=
  { active := true, state := .closed, iss := 0, irs := 0, sndUna := 0, sndNxt := 0, rcvNxt := 0,
    sndWnd := 0, tmo := 0, retry := 0, rx := fun _ => 0, rxHead := 0, rxTail := 0, txb := [],
    finSent := false, finRcvd := false }

/-- `tcp_connect`, with `iss` the value of `tcp_iss()`. -/
def tcpConnect (iss : Nat) (pcb : Pcb) : Pcb × List Segment :=
  let pcb := { pcb with
    iss := iss
    sndUna := add32 iss 1
    sndNxt := add32 iss 1
    rcvNxt := 0
    state := .synSent
    txb := []
    tmo := add32 now tcpInitRto
    retry := 0 }
  (pcb, [tcpEmit pcb iss 0 { syn := true } []])

/-- `tcp_accept_child`: the control block of a passive open, for a SYN
with sequence number `seq`. -/
def tcpAcceptChild (iss seq : Nat) : Pcb × List Segment :=
  let pcb := { tcpPcbAlloc with
    state := .synRcvd
    iss := iss
    irs := seq
    sndUna := add32 iss 1
    sndNxt := add32 iss 1
    rcvNxt := add32 seq 1
    tmo := add32 now tcpInitRto }
  (pcb, [tcpEmit pcb iss pcb.rcvNxt { syn := true, ack := true } []])

/-- `tcp_send`; the result is `none` where the source returns `-1`. -/
def tcpSend (data : List UInt8) : Option Nat × Pcb × List Segment :=
  if pcb.state ≠ .established ∨ data.length = 0 then (none, pcb, [])
  else if tcpSndBuf - pcb.txb.length < data.length then (none, pcb, [])
  else
    let (pcb, out) := tcpFire now { pcb with txb := pcb.txb ++ data }
    (some data.length, pcb, out)

/-- `tcp_recv`: the bytes handed to the caller, `none` where the source
returns `-1`. -/
def tcpRecv (len : Nat) : Option (List UInt8) × Pcb × List Segment :=
  let avail := tcpRxLen pcb
  if avail = 0 then (none, pcb, [])
  else
    let roomBefore := tcpRxRoom pcb
    let n := min avail len
    let bytes := ringList pcb.rx tcpRcvBuf pcb.rxHead n
    let pcb := { pcb with rxHead := (pcb.rxHead + n) % 65536 }
    -- a window update once the room crosses one segment
    let out :=
      if roomBefore < tcpMss ∧ tcpMss ≤ tcpRxRoom pcb ∧ pcb.active then [tcpAck pcb] else []
    (some bytes, pcb, out)

/-- The acknowledgement part of `tcp_input_established`, after the check
against `snd_nxt`. -/
def tcpAckAdvance (ack : Nat) : Pcb × List Segment :=
  if seqLt pcb.sndUna ack then
    let d := min (sub32 ack pcb.sndUna) pcb.txb.length
    if d = 0 then (pcb, [])
    else
      let pcb := { pcb with txb := pcb.txb.drop d, sndUna := ack }
      let pcb := if pcb.sndUna ≥ pcb.sndNxt then { pcb with retry := 0, tmo := 0 } else pcb
      tcpFire now pcb
  else (pcb, [])

/-- The end of `tcp_input_established`: buffer the payload that is in
order, then look at the FIN. `segDlen` is the payload length after
trimming, before the receive buffer cut it. -/
def tcpTake (flags : Flags) (data : List UInt8) : Pcb × List Segment :=
  let segDlen := data.length
  let taken := min segDlen (tcpRxRoom pcb)
  let pcb :=
    if taken = 0 then pcb
    else { tcpRxPut pcb (data.take taken) with rcvNxt := add32 pcb.rcvNxt taken }
  if flags.fin then
    if taken ≠ segDlen then (pcb, [tcpAck pcb])
    else
      let pcb := { pcb with
        finRcvd := true
        state := if pcb.state = .established then .closeWait else pcb.state
        rcvNxt := add32 pcb.rcvNxt 1 }
      (pcb, [tcpAck pcb])
  else if segDlen ≠ 0 then (pcb, [tcpAck pcb])
  else (pcb, [])

/-- The payload part of `tcp_input_established`: bytes before `rcv_nxt`
are cut off, and a payload that then does not start at `rcv_nxt` is
dropped. A segment without payload passes both checks whatever its
sequence number is. -/
def tcpPayload (seq : Nat) (flags : Flags) (data : List UInt8) : Pcb × List Segment :=
  if data ≠ [] ∧ seqLt seq pcb.rcvNxt then
    let past := sub32 pcb.rcvNxt seq
    if data.length ≤ past then (pcb, [tcpAck pcb])
    else if add32 seq past ≠ pcb.rcvNxt then (pcb, [tcpAck pcb])
    else tcpTake pcb flags (data.drop past)
  else if data ≠ [] ∧ seq ≠ pcb.rcvNxt then (pcb, [tcpAck pcb])
  else tcpTake pcb flags data

def tcpInputEstablished (seq : Nat) (flags : Flags) (data : List UInt8) (ack : Nat) : Pcb × List
    Segment :=
  if flags.rst then ({ pcb with state := .closed, active := false }, [])
  else if flags.syn then (pcb, [])
  else if flags.ack && seqLt pcb.sndNxt ack then (pcb, [tcpAck pcb])
  else
    let (pcb, out) := if flags.ack then tcpAckAdvance now pcb ack else (pcb, [])
    let (pcb, out') := tcpPayload pcb seq flags data
    (pcb, out ++ out')

/-- The closing transitions at the end of `tcp_input`. -/
def tcpClosing (flags : Flags) (ack : Nat) : Pcb × List Segment :=
  if pcb.state = .finWait1 ∧ flags.fin then
    ({ pcb with state := .timeWait, tmo := add32 now 2000 }, [tcpAck pcb])
  else if pcb.state = .finWait1 ∧ flags.ack then
    ({ pcb with state := .finWait2, retry := 0, tmo := add32 now tcpInitRto }, [])
  else if pcb.state = .finWait2 ∧ flags.fin then
    ({ pcb with state := .timeWait, tmo := add32 now 2000 }, [tcpAck pcb])
  else if pcb.state = .closeWait then
    ({ pcb with
        state := .lastAck, sndNxt := add32 pcb.sndNxt 1, tmo := add32 now tcpInitRto,
        retry := 0 },
      [tcpEmit pcb pcb.sndNxt pcb.rcvNxt { ack := true, fin := true } []])
  else if pcb.state = .lastAck ∧ flags.ack ∧ ack = pcb.sndNxt then
    ({ pcb with active := false }, [])
  else (pcb, [])

/-- `tcp_input` for a segment of this connection. `pcb_find` skips a
block that is not active, and a listener only opens child blocks
(`tcpAcceptChild`). -/
def tcpInput (s : Segment) : Pcb × List Segment :=
  if pcb.active = false ∨ pcb.state = .listen then (pcb, [])
  else
    let pcb := { pcb with sndWnd := if s.wnd ≠ 0 then s.wnd else tcpMss }
    match pcb.state with
    | .synSent =>
      if s.flags.syn ∧ s.flags.ack then
        let pcb := { pcb with
          irs := s.seq
          rcvNxt := add32 s.seq 1
          sndUna := s.ack
          sndNxt := s.ack
          state := .established
          retry := 0
          tmo := 0 }
        let (pcb', out) := tcpInputEstablished now pcb (add32 s.seq 1) s.flags s.data s.ack
        (pcb', tcpAck pcb :: out)
      else (pcb, [])
    | .synRcvd =>
      if s.flags.ack ∧ s.ack = pcb.sndNxt then
        let pcb := { pcb with state := .established, retry := 0, tmo := 0 }
        tcpInputEstablished now pcb s.seq s.flags s.data s.ack
      else (pcb, [])
    | _ =>
      let (pcb, out) := tcpInputEstablished now pcb s.seq s.flags s.data s.ack
      let (pcb, out') := tcpClosing now pcb s.flags s.ack
      (pcb, out ++ out')

/-- `tcp_close`. -/
def tcpClose : Pcb × List Segment :=
  if pcb.state = .established then
    ({ pcb with
        state := .finWait1, finSent := true, sndNxt := add32 pcb.sndNxt 1,
        tmo := add32 now tcpInitRto, retry := 0 },
      [tcpEmit pcb pcb.sndNxt pcb.rcvNxt { fin := true, ack := true } []])
  else if pcb.state = .synSent ∨ pcb.state = .closed then
    ({ pcb with state := .closed, active := false }, [])
  else (pcb, [])

/-- `tcp_shutdown`, the two bits of `how` as arguments. -/
def tcpShutdown (rd wr : Bool) : Pcb × List Segment :=
  let (pcb, out) :=
    if wr ∧ (pcb.state = .established ∨ pcb.state = .closeWait) then
      ({ pcb with
          finSent := true, sndNxt := add32 pcb.sndNxt 1, tmo := add32 now tcpInitRto, retry := 0,
          state := if pcb.state = .established then .finWait1 else .lastAck },
        [tcpEmit pcb pcb.sndNxt pcb.rcvNxt { fin := true, ack := true } []])
    else (pcb, [])
  (if rd then { pcb with finRcvd := true } else pcb, out)

/-- The retransmission loop of `tcp_tick`: the whole send buffer again,
one segment of at most `TCP_MSS` bytes at a time. -/
def tcpResend (pcb : Pcb) : Nat → Nat → List UInt8 → List Segment
  | 0, _, _ => []
  | _ + 1, _, [] => []
  | fuel + 1, cursor, bytes =>
    let seg := min bytes.length tcpMss
    tcpEmit pcb cursor pcb.rcvNxt { ack := true } (bytes.take seg)
      :: tcpResend pcb fuel (add32 cursor seg) (bytes.drop seg)

/-- `tcp_tick` for one control block that is not a listener. -/
def tcpTick : Pcb × List Segment :=
  if pcb.active = false ∨ pcb.tmo = 0 ∨ seqLt now pcb.tmo then (pcb, [])
  else if pcb.state = .synSent then
    if pcb.retry ≥ tcpMaxRetry then ({ pcb with active := false }, [])
    else
      ({ pcb with retry := 1, tmo := add32 now tcpInitRto },
        [tcpEmit pcb pcb.iss 0 { syn := true } []])
  else if seqLt pcb.sndUna pcb.sndNxt then
    let retry := (pcb.retry + 1) % 256
    if retry > tcpMaxRetry then ({ pcb with retry := retry, active := false }, [])
    else
      ({ pcb with retry := retry, tmo := add32 now (tcpInitRto <<< retry) },
        tcpResend pcb pcb.txb.length pcb.sndUna pcb.txb)
  else if pcb.state = .finWait1 ∨ pcb.state = .lastAck then
    let retry := (pcb.retry + 1) % 256
    if retry > tcpMaxRetry then ({ pcb with retry := retry, active := false }, [])
    else
      ({ pcb with retry := retry, tmo := add32 now (tcpInitRto * retry) },
        [tcpEmit pcb pcb.sndNxt pcb.rcvNxt { ack := true, fin := true } []])
  else if pcb.state = .timeWait then ({ pcb with active := false }, [])
  else (pcb, [])

/-- The part of `tcp_tick` that a listener does for one child of its
accept queue: repeat the SYN|ACK of a half-open connection. -/
def tcpTickChild (c : Pcb) : Pcb × List Segment :=
  if c.active ∧ c.state = .synRcvd ∧ c.retry ≠ 0 ∧ seqLt now c.tmo = false then
    let retry := (c.retry + 1) % 256
    ({ c with
        tmo := add32 now (tcpInitRto * c.retry), retry := retry,
        active := if retry > tcpMaxRetry then false else c.active },
      [tcpEmit c c.iss c.rcvNxt { syn := true, ack := true } []])
  else (c, [])

/-- `tcp_pcb_free`. -/
def tcpPcbFree : Pcb := { pcb with active := false }

/-! ### The calls as one transition function -/

/-- What can happen to a control block after its open: a segment
arrives, the application makes a call, the timer runs, or the socket is
given up. -/
inductive Event where
  | arrive (now : Nat) (s : Segment)
  | send (now : Nat) (data : List UInt8)
  | recv (len : Nat)
  | close (now : Nat)
  | shutdown (now : Nat) (rd wr : Bool)
  | tick (now : Nat)
  | tickChild (now : Nat)
  | free

/-- The header fields of a segment have their width. -/
def Segment.Fits (s : Segment) : Prop := s.seq < 4294967296 ∧ s.ack < 4294967296 ∧ s.wnd < 65536
  deriving Decidable

/-- The segments that an event brings: one for an arrival. -/
def Event.segments : Event → List Segment
  | .arrive _ s => [s]
  | .send _ _ | .recv _ | .close _ | .shutdown _ _ _ | .tick _ | .tickChild _ | .free => []

/-- What an event did: the new control block, the segments sent, the
bytes taken from the application and the bytes handed to it. -/
structure Outcome where
  pcb : Pcb
  out : List Segment
  accepted : List UInt8 := []
  delivered : List UInt8 := []

/-- The control block takes one event. -/
def pcbStep (p : Pcb) : Event → Option Outcome
  | .arrive now s =>
    if s.Fits then some { pcb := (tcpInput now p s).1, out := (tcpInput now p s).2 } else none
  | .send now data =>
    let r := tcpSend now p data
    some { pcb := r.2.1, out := r.2.2, accepted := if r.1.isSome then data else [] }
  | .recv len =>
    let r := tcpRecv p len
    some { pcb := r.2.1, out := r.2.2, delivered := r.1.getD [] }
  | .close now => some { pcb := (tcpClose now p).1, out := (tcpClose now p).2 }
  | .shutdown now rd wr =>
    some { pcb := (tcpShutdown now p rd wr).1, out := (tcpShutdown now p rd wr).2 }
  | .tick now => some { pcb := (tcpTick now p).1, out := (tcpTick now p).2 }
  | .tickChild now => some { pcb := (tcpTickChild now p).1, out := (tcpTickChild now p).2 }
  | .free => some { pcb := tcpPcbFree p, out := [] }

end CoreZ.Net.Tcp
