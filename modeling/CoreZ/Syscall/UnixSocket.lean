import CoreZ.Lib.Ring

/-!
# `CoreZ.Syscall.UnixSocket`: local sockets

The table `u_unix` of `linux_compat_io.c`. A call whose result is `none`
sleeps. A receiver that wakes up does what a new call does, a sender goes on
with `unixSendTurn`.
-/

set_option autoImplicit false

namespace CoreZ.Syscall.UnixSocket

open CoreZ.Lib
open Function

def unixBufSize : Nat := 2048

def linuxEagain : Int := -11
def linuxEfault : Int := -14
def linuxEinval : Int := -22
def linuxEnfile : Int := -23
def linuxEpipe : Int := -32
def linuxEafnosupport : Int := -97
def linuxEnotconn : Int := -107

/-- An index of the table, below `MAX_UNIX_SOCK`. -/
abbrev Slot := Fin 16

/-- An entry of the table. The defaults are the zeros of `memset`, and a
negative `peer` is `none`. -/
structure Socket where
  active : Bool := false
  connected : Bool := false
  nonblock : Bool := false
  peer : Option Slot := some 0
  head : Nat := 0
  tail : Nat := 0
  count : Nat := 0
  buf : Nat → UInt8 := fun _ => 0

abbrev Table := Slot → Socket

variable (u : Table) (idx : Slot)

def unixCloseSlot : Table :=
  update u idx { u idx with active := false, count := 0, head := 0, tail := 0 }

def unixAllocSlot : Option Slot := (List.finRange 16).find? fun i => !(u i).active

/-- `unix_buf_write`, with the number of bytes that fit. -/
def unixBufWrite (s : Socket) (src : List UInt8) : Socket × Nat :=
  let n := min src.length (unixBufSize - s.count)
  ({ s with
      buf := ringPut unixBufSize s.buf s.tail (src.take n)
      tail := (s.tail + n) % unixBufSize
      count := s.count + n }, n)

def unixBufRead (s : Socket) (len : Nat) : Socket × List UInt8 :=
  let n := min len s.count
  ({ s with head := (s.head + n) % unixBufSize, count := s.count - n },
    ringList s.buf unixBufSize s.head n)

def unixPeerAlive : Bool := (u idx).peer.any fun p => (u p).active

/-- A turn of the loop of `unix_send`. -/
def unixSendTurn (p : Slot) (src : List UInt8) : Option (Table × Int) :=
  let w := unixBufWrite (u p) src
  if 0 < w.2 ∨ src = [] then some (update u p w.1, w.2)
  else if (u idx).nonblock then some (u, linuxEagain)
  else none

def unixSend (src : List UInt8) : Option (Table × Int) :=
  if (u idx).connected then
    (u idx).peer.elim (some (u, linuxEnotconn)) fun p =>
      if (u p).active then unixSendTurn u idx p src else some (u, linuxEpipe)
  else some (u, linuxEnotconn)

def unixRecv (len : Nat) : Option (Table × Except Int (List UInt8)) :=
  if (u idx).count ≠ 0 then
    let r := unixBufRead (u idx) len
    some (update u idx r.1, .ok r.2)
  else if len = 0 ∨ unixPeerAlive u idx = false then some (u, .ok [])
  else if (u idx).nonblock then some (u, .error linuxEagain)
  else none

/-- `lc_socket` for a local socket. -/
def lcSocket : Except Int (Slot × Table) :=
  (unixAllocSlot u).elim (.error linuxEnfile) fun i =>
    .ok (i, update u i { active := true, peer := none })

/-- `lc_socketpair`. `ok` is the check of the pointer `d`. -/
def lcSocketpair (a b : Nat) (ok : Bool) : Except Int (Slot × Slot × Table) :=
  if a ≠ 1 then .error linuxEafnosupport
  else if b ≠ 1 ∧ b ≠ 2 then .error linuxEinval
  else if ok = false then .error linuxEfault
  else (unixAllocSlot u).elim (.error linuxEnfile) fun i0 =>
    (unixAllocSlot u).elim (.error linuxEnfile) fun i1 =>
      .ok (i0, i1, update (update u i0 { active := true, connected := true, peer := some i1 }) i1
        { active := true, connected := true, peer := some i0 })

end CoreZ.Syscall.UnixSocket
