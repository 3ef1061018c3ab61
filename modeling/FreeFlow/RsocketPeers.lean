import FreeFlow.Rsocket
import FreeFlow.Runs

/-!
# Two connected sockets

The two processes of a connection, their adapters and the reliable connection
between them. The adapter of a side takes the posted requests in order. It
places a request unit by unit into the memory of the peer, a byte of data or
one of the three words of an `rs_sge`; when all is placed it delivers the
message, which takes a posted receive, and completes the request later. So the
peer may see what is placed before it is told, and a request reads the local
memory up to the moment it is delivered.

A process makes its calls one at a time, in any order, and the adapters act at
any time. `sent` are the bytes that `rsend` has accepted and `got` those that
`rrecv` has returned; `iomaps` counts the entries that were sent of an I/O map,
`closing` says that `rshutdown` was called for writing, and `eof` that the peer's
message about that was polled.
-/

set_option autoImplicit false

namespace FreeFlow.RsocketPeers

open ByteMemory (Memory)
open ByteOrder CircularStream Rsocket Runs

abbrev Side := Bool

structure System where
  host : Side → Host
  sent : Side → List Byte
  got : Side → List Byte
  iomaps : Side → ℕ
  closing : Side → Bool
  eof : Side → Bool

/-- The sizes that `rs_set_qp_size`, `rs_configure` and `rsetsockopt` leave, for a receive
buffer of an even size. -/
structure Sound (p : Endpoint) : Prop where
  sq_ge : rsQpMinSize ≤ p.sqSize
  sq_le : p.sqSize ≤ rsQpMaxSize
  rq_ge : rsQpMinSize ≤ p.rqSize
  rq_le : p.rqSize ≤ rsQpMaxSize
  sbuf_ge : rsSndlowat ≤ p.sbufSize
  rbuf_pos : 0 < p.rbufSize
  rbuf_even : p.rbufSize%2 = 0
  rbuf_lt : p.rbufSize < 2^31
  sbuf_lt : p.sbufSize < 2^31
  rbuf_addr : p.rbuf+p.rbufSize ≤ 2^64
  rkey_lt : p.rkey < 2^32

theorem Sound.size_eq {p : Endpoint} (hp : Sound p) : p.rbufSize = 2*p.half := by
  have heven := hp.rbuf_even
  rw [Endpoint.half]
  omega

theorem Sound.half_pos {p : Endpoint} (hp : Sound p) : 0 < p.half := by
  have hsize := hp.size_eq
  have hpos := hp.rbuf_pos
  omega

def startedHost (p peer : Endpoint) (junk : Memory) : Host where
  rs := rsConnected p (rsFormatConnData peer)
  sbufMem := junk
  ctrlMem := fun _ => ⟨0,0,0⟩
  rbufMem := junk
  targetIomap := junk
  mapped := junk
  sq := []
  placed := 0
  acks := []
  cq := []
  rq := p.rqSize
  refused := false
  stray := false
  ctrl := none

def started (p : Side → Endpoint) (junk : Side → Memory) : System where
  host := fun s => startedHost (p s) (p (!s)) (junk s)
  sent := fun _ => []
  got := fun _ => []
  iomaps := fun _ => 0
  closing := fun _ => false
  eof := fun _ => false

/-! ## The adapters -/

/-- The number of units a request places. -/
def units (wr : SendWr) : ℕ :=
  match wr.src with
  | .none => 0
  | .bytes pieces => (pieces.map Prod.snd).sum
  | .ctrl _ => 3

/-- A word that one host has stored, as the other loads it. -/
def crossing (p peer : Endpoint) (k x : ℕ) : ℕ := load peer.net (store p.net k x)

/-- Word `i` of an `rs_sge`. -/
def placeSge (p peer : Endpoint) (sge old : Sge) : ℕ → Sge
  | 0 => {old with addr := crossing p peer 8 sge.addr}
  | 1 => {old with key := crossing p peer 4 sge.key}
  | _ => {old with length := crossing p peer 4 sge.length}

def setTarget (h : Host) (k : ℕ) (sge : Sge) : Host :=
  {h with rs := {h.rs with targetSgl := Function.update h.rs.targetSgl k sge}}

/-- Unit `i` of a request of `h` is placed in the memory of the peer. -/
def placeUnit (p peer : Endpoint) (h other : Host) (wr : SendWr) (i : ℕ) : Host :=
  match wr.src, wr.dest with
  | .bytes pieces, .region addr key =>
    let byte := h.sbufMem (address pieces i)
    if key = peer.rkey then
      if peer.rbuf ≤ addr+i ∧ addr+i < peer.rbuf+peer.rbufSize
      then {other with rbufMem := Function.update other.rbufMem (addr+i) byte}
      else {other with stray := true}
    else {other with mapped := Function.update other.mapped (addr+i) byte}
  | .bytes pieces, .targetIomap index =>
    {other with targetIomap :=
      Function.update other.targetIomap (sizeofIomap*index+i) (h.sbufMem (address pieces i))}
  | .ctrl slot, .targetSgl k =>
    setTarget other k (placeSge p peer (h.ctrlMem slot) (other.rs.targetSgl k) i)
  | _, _ => other

/-- A host after the delivery of its first request. -/
def afterDeliver (h : Host) (wr : SendWr) (rest : List SendWr) : Host :=
  {h with sq := rest,placed := 0,acks := h.acks++[wr]}

/-- The peer of a host that delivers: a message with immediate data takes a receive. -/
def noticed (other : Host) (wr : SendWr) : Host :=
  if wr.imm then {other with cq := other.cq++[.recv wr.msg],rq := other.rq-1} else other

/-! ## Steps -/

inductive Act
  | send (buf : List Byte) (olen : ℕ)
  | iomap (index : ℕ) (record : List Byte)
  | iowrite (bytes : List Byte) (addr key : ℕ)
  | recv (len : ℕ)
  | credits
  | poll
  | shutdown (how : How)
  | shutdownPost
  | keepalive
  | place
  | deliver
  | complete
  deriving DecidableEq

/-- The hosts of a side and of its peer. -/
def setHosts (w : System) (s : Side) (h other : Host) : System :=
  {w with host := fun t => if t = s then h else other}

def setHost (w : System) (s : Side) (h : Host) : System := setHosts w s h (w.host (!s))

def isClose (msg : ℕ) : Bool :=
  rsMsgOp msg = rsOpCtrl && (rsMsgData msg = rsCtrlDisconnect || rsMsgData msg = rsCtrlShutdown)

/-- The messages that `rs_poll_cq` puts into the ring: those of no other kind. -/
def isData (msg : ℕ) : Bool :=
  rsMsgOp msg ≠ rsOpSgl && rsMsgOp msg ≠ rsOpIomapSgl && rsMsgOp msg ≠ rsOpCtrl &&
    rsMsgOp msg ≠ rsOpWrite

/-- The messages a call of `rs_poll_cq` has handled. -/
def polledMsgs (h h' : Host) : List ℕ :=
  (h.cq.take (h.cq.length-h'.cq.length)).filterMap Wc.recv?

/-- A step of one side. -/
def step (p : Side → Endpoint) (w : System) (a : Side × Act) : Option System :=
  let s := a.1
  let h := w.host s
  let other := w.host (!s)
  match a.2 with
  | .send buf olen =>
    if buf ≠ [] ∧ 0 < olen ∧ olen ≤ rsMaxTransfer ∧ rsCanSend h.rs then
      let h' := rsendBody (p s) h buf olen
      some {setHost w s h' with
        sent := Function.update w.sent s (w.sent s++buf.take (xferSize h.rs buf.length olen))}
    else none
  | .iomap index record =>
    if record.length = sizeofIomap ∧ index < 65536 ∧ rsCanSend h.rs then
      some {setHost w s (rsSendIomap (p s) h index record) with
        iomaps := Function.update w.iomaps s (w.iomaps s+1)}
    else none
  | .iowrite bytes addr key =>
    if bytes ≠ [] ∧ (bytes.length : ℤ) ≤ h.rs.sbufBytesAvail ∧ bytes.length ≤ rsMaxTransfer ∧
        key ≠ (p (!s)).rkey ∧ rsCanSend h.rs then
      some (setHost w s (riowriteBody (p s) h bytes addr key))
    else none
  | .recv len =>
    let out := rrecv (p s) h len
    some {setHost w s out.1 with got := Function.update w.got s (w.got s++out.2)}
  | .credits => some (setHost w s (rsUpdateCredits (p s) h))
  | .poll =>
    let h' := rsPollCq (p s) h
    some {setHost w s h' with
      eof := Function.update w.eof s (w.eof s || (polledMsgs h h').any isClose)}
  | .shutdown how =>
    if h.ctrl = none then
      some {setHost w s (rshutdown h how) with
        closing := Function.update w.closing s (w.closing s || how ≠ .rd)}
    else none
  | .shutdownPost =>
    match h.ctrl with
    | some ctrl =>
      if rsCtrlAvail h.rs ∨ h.rs.state.connected = false
      then some (setHost w s (rshutdownPost (p s) h ctrl)) else none
    | none => none
  | .keepalive => some (setHost w s (tcpSvcSendKeepalive (p s) h))
  | .place =>
    match h.sq with
    | wr::_ =>
      if h.placed < units wr then
        some (setHosts w s {h with placed := h.placed+1}
          (placeUnit (p s) (p (!s)) h other wr h.placed))
      else none
    | [] => none
  | .deliver =>
    match h.sq with
    | wr::rest =>
      if h.placed = units wr ∧ (wr.imm = true → 0 < other.rq) then
        some (setHosts w s (afterDeliver h wr rest) (noticed other wr))
      else none
    | [] => none
  | .complete =>
    match h.acks with
    | wr::rest => some (setHost w s {h with acks := rest,cq := h.cq++[.send wr.msg]})
    | [] => none

def runs (p : Side → Endpoint) : System → List (Side × Act) → Option System := run (step p)

end FreeFlow.RsocketPeers
