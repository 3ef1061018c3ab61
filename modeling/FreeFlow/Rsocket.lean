import FreeFlow.ByteMemory
import FreeFlow.ByteOrder
import FreeFlow.CircularStream
import Mathlib.Algebra.Order.Group.Nat

/-!
# Stream sockets over RDMA

`rsocket.c` of the client's librdmacm. A socket copies what is sent into a
circular send buffer and has the adapter write it into the receive buffer of
its peer. The peer grants its buffer in halves and announces how many messages
it has room for. Control messages have send queue entries of their own and,
since FreeFlow never sends inline, buffers of their own behind the send buffer.

The functions are those of a connected socket of type `SOCK_STREAM`. FreeFlow
sets `sq_inline` to 0, so `rs_create_ep` refuses iWARP devices and
`RS_OPT_MSG_SEND` is never set on a connected socket. `int` counters are
integers, the sequence numbers are reduced modulo their width.
-/

set_option autoImplicit false

namespace FreeFlow.Rsocket

open ByteMemory (Memory put)
open ByteOrder CircularStream

abbrev Byte := BitVec 8

def rsMaxTransfer : ℕ := 65536
def rsSndlowat : ℕ := 2048
def rsQpMinSize : ℕ := 16
def rsQpMaxSize : ℕ := 0xFFFE
def rsQpCtrlSize : ℕ := 4
def rsSglSize : ℕ := 2

def rsOpData : ℕ := 0
def rsOpWrite : ℕ := 2
def rsOpSgl : ℕ := 4
def rsOpIomapSgl : ℕ := 6
def rsOpCtrl : ℕ := 7

def rsCtrlDisconnect : ℕ := 0
def rsCtrlKeepalive : ℕ := 1
def rsCtrlShutdown : ℕ := 2

def rsMsgSet (op data : ℕ) : ℕ := op <<< 29 ||| data
def rsMsgOp (msg : ℕ) : ℕ := msg >>> 29
def rsMsgData (msg : ℕ) : ℕ := msg &&& 0x1FFFFFFF

theorem rsMsgSet_eq (op data : ℕ) (hdata : data < 2^29) : rsMsgSet op data = op*2^29+data := by
  rw [rsMsgSet,← Nat.shiftLeft_add_eq_or_of_lt hdata,Nat.shiftLeft_eq]

theorem rsMsgOp_set (op data : ℕ) (hdata : data < 2^29) : rsMsgOp (rsMsgSet op data) = op := by
  rw [rsMsgOp,rsMsgSet_eq op data hdata,Nat.shiftRight_eq_div_pow]
  omega

theorem rsMsgData_set (op data : ℕ) (hdata : data < 2^29) : rsMsgData (rsMsgSet op data) = data := by
  rw [rsMsgData,show (0x1FFFFFFF : ℕ) = 2^29-1 from rfl,Nat.and_two_pow_sub_one_eq_mod,
    rsMsgSet_eq op data hdata]
  omega

/-- `struct rs_sge`. -/
structure Sge where
  addr : ℕ
  key : ℕ
  length : ℕ
  deriving DecidableEq

/-- `struct rs_msg`. -/
structure RsMsg where
  op : ℕ
  data : ℕ

/-- The bits of `rs_state` that a connected socket uses. -/
structure RsState where
  connected : Bool
  writable : Bool
  readable : Bool
  disconnected : Bool
  deriving DecidableEq

def rsConnectRdwr : RsState := ⟨true,true,true,false⟩

def rsDisconnected : RsState := ⟨false,false,false,true⟩

/-- What is fixed once the endpoint exists: the sizes, where the buffers are, the
key of the receive buffer and the byte order of the host. -/
structure Endpoint where
  sqSize : ℕ
  rqSize : ℕ
  sbufSize : ℕ
  rbufSize : ℕ
  sbuf : ℕ
  rbuf : ℕ
  rkey : ℕ
  net : Bool

def Endpoint.half (p : Endpoint) : ℕ := p.rbufSize/2

structure RSocket where
  ctrlSeqno : ℕ
  ctrlMaxSeqno : ℕ
  sseqNo : ℕ
  sseqComp : ℕ
  rseqNo : ℕ
  rseqComp : ℕ
  remoteSge : ℕ
  remoteSglLength : ℕ
  targetSge : ℕ
  targetSgl : ℕ → Sge
  rbufBytesAvail : ℤ
  rbufFreeOffset : ℕ
  rbufOffset : ℕ
  sbufBytesAvail : ℤ
  ssglAddr : ℕ
  swapSgl : Bool
  state : RsState
  sqeAvail : ℤ
  rmsgHead : ℕ
  rmsgTail : ℕ
  rmsg : ℕ → RsMsg

/-! ## Setting up -/

/-- `rs_alloc` and the end of `rs_init_bufs`. -/
def rsInitBufs (p : Endpoint) : RSocket where
  ctrlSeqno := 0
  ctrlMaxSeqno := rsQpCtrlSize
  sseqNo := 0
  sseqComp := 0
  rseqNo := 0
  rseqComp := p.rqSize/2
  remoteSge := 0
  remoteSglLength := 0
  targetSge := 0
  targetSgl := fun _ => ⟨0,0,0⟩
  rbufBytesAvail := p.half
  rbufFreeOffset := p.half
  rbufOffset := 0
  sbufBytesAvail := p.sbufSize
  ssglAddr := p.sbuf
  swapSgl := false
  state := ⟨false,false,false,false⟩
  sqeAvail := (p.sqSize : ℤ)-rsQpCtrlSize
  rmsgHead := 0
  rmsgTail := 0
  rmsg := fun _ => ⟨0,0⟩

/-- `struct rs_conn_data` as it lies in the private data of a connection request,
with the fields of the stream protocol. -/
structure ConnData where
  version : ℕ
  flagNet : Bool
  credits : List ℕ
  sglLength : List ℕ
  bufAddr : List ℕ
  bufLength : List ℕ
  bufKey : List ℕ
  deriving DecidableEq

def rsFormatConnData (p : Endpoint) : ConnData where
  version := 1
  flagNet := p.net
  credits := store p.net 2 (hton p.net 2 p.rqSize)
  sglLength := store p.net 4 (hton p.net 4 rsSglSize)
  bufAddr := store p.net 8 (hton p.net 8 p.rbuf)
  bufLength := store p.net 4 (hton p.net 4 p.half)
  bufKey := store p.net 4 (hton p.net 4 p.rkey)

def rsSaveConnData (p : Endpoint) (rs : RSocket) (conn : ConnData) : RSocket :=
  {rs with
    remoteSglLength := hton p.net 4 (load p.net conn.sglLength)
    remoteSge := 1
    swapSgl := (p.net && !conn.flagNet) || (!p.net && conn.flagNet)
    targetSgl := Function.update rs.targetSgl 0 ⟨hton p.net 8 (load p.net conn.bufAddr),
      hton p.net 4 (load p.net conn.bufKey),hton p.net 4 (load p.net conn.bufLength)⟩
    sseqComp := hton p.net 2 (load p.net conn.credits)}

/-- The socket after `rs_do_connect` or `raccept`, connected to a peer whose
connection data was checked for its version. -/
def rsConnected (p : Endpoint) (conn : ConnData) : RSocket :=
  {rsSaveConnData p (rsInitBufs p) conn with state := rsConnectRdwr}

/-! ## The adapter's requests and completions -/

/-- The local memory a request reads: pieces of the send buffer, or a control
buffer. -/
inductive Src
  | none
  | bytes (pieces : List (ℕ × ℕ))
  | ctrl (slot : ℕ)

/-- The remote memory a request writes: any region by its key, an entry of
`target_sgl` or an entry of `target_iomap`. -/
inductive Dest
  | none
  | region (addr key : ℕ)
  | targetSgl (slot : ℕ)
  | targetIomap (index : ℕ)

/-- A work request; `imm` says that it is an RDMA write with immediate data. The
message is its identifier and, then, the immediate data. -/
structure SendWr where
  msg : ℕ
  imm : Bool
  src : Src
  dest : Dest

inductive Wc
  | recv (msg : ℕ)
  | send (msg : ℕ)

def Wc.recv? : Wc → Option ℕ
  | .recv msg => some msg
  | .send _ => none

def Wc.send? : Wc → Option ℕ
  | .recv _ => none
  | .send msg => some msg

/-- A process and its adapter. `sq` are the posted requests that are not
delivered, `placed` how much of the first is in the peer's memory, `acks` those
that are delivered without a completion yet, `rq` the number of posted
receives. `refused` records that a request was posted to a full queue, `stray`
that a byte with the key of the receive buffer was placed outside it. `ctrl` is
the message that a call of `rshutdown` has still to post. -/
structure Host where
  rs : RSocket
  sbufMem : Memory
  ctrlMem : ℕ → Sge
  rbufMem : Memory
  targetIomap : Memory
  mapped : Memory
  sq : List SendWr
  placed : ℕ
  acks : List SendWr
  cq : List Wc
  rq : ℕ
  refused : Bool
  stray : Bool
  ctrl : Option ℕ

/-- The requests that hold a send queue entry: an entry is free again when the
completion has been polled. -/
def outMsgs (h : Host) : List ℕ :=
  h.cq.filterMap Wc.send?++(h.acks.map SendWr.msg++h.sq.map SendWr.msg)

def ibvPostSend (p : Endpoint) (h : Host) (wr : SendWr) : Host :=
  if (outMsgs h).length < p.sqSize then {h with sq := h.sq++[wr]} else {h with refused := true}

/-- `rs_post_msg`. -/
def rsPostMsg (p : Endpoint) (h : Host) (msg : ℕ) : Host := ibvPostSend p h ⟨msg,true,.none,.none⟩

/-- `rs_post_write`. -/
def rsPostWrite (p : Endpoint) (h : Host) (src : Src) (data : ℕ) (dest : Dest) : Host :=
  ibvPostSend p h ⟨data,false,src,dest⟩

/-- `rs_post_write_msg`. -/
def rsPostWriteMsg (p : Endpoint) (h : Host) (src : Src) (msg : ℕ) (dest : Dest) : Host :=
  ibvPostSend p h ⟨msg,true,src,dest⟩

/-! ## Sending -/

/-- `rs_can_send`. -/
def rsCanSend (rs : RSocket) : Prop :=
  rs.sqeAvail ≠ 0 ∧ (rsSndlowat : ℤ) ≤ rs.sbufBytesAvail ∧ rs.sseqNo ≠ rs.sseqComp ∧
    (rs.targetSgl rs.targetSge).length ≠ 0

instance (rs : RSocket) : Decidable (rsCanSend rs) := inferInstanceAs (Decidable (_ ∧ _))

def rsSbufLeft (p : Endpoint) (rs : RSocket) : ℕ := p.sbuf+p.sbufSize-rs.ssglAddr

/-- The copy into the send buffer that `rsend`, `rs_send_iomaps` and `riowrite` make,
with the entries of `ssgl` that name the copied bytes. -/
def sbufCopy (p : Endpoint) (h : Host) (bytes : List Byte) : Memory × List (ℕ × ℕ) :=
  let left := rsSbufLeft p h.rs
  if bytes.length ≤ left then
    (put h.sbufMem h.rs.ssglAddr bytes,[(h.rs.ssglAddr,bytes.length)])
  else
    (put (put h.sbufMem h.rs.ssglAddr (bytes.take left)) p.sbuf (bytes.drop left),
      [(h.rs.ssglAddr,left),(p.sbuf,bytes.length-left)])

/-- `ssgl[0].addr` after such a copy. -/
def ssglAfter (p : Endpoint) (rs : RSocket) (n : ℕ) : ℕ :=
  let left := rsSbufLeft p rs
  if n ≤ left then if n < left then rs.ssglAddr+n else p.sbuf else p.sbuf+(n-left)

def advanceSsgl (p : Endpoint) (h : Host) (rs : RSocket) (n : ℕ) : Host :=
  {h with rs := {h.rs with ssglAddr := ssglAfter p rs n}}

/-- `rs_write_data`. -/
def rsWriteData (p : Endpoint) (h : Host) (sgl : List (ℕ × ℕ)) (length : ℕ) : Host :=
  let rs := h.rs
  let target := rs.targetSgl rs.targetSge
  rsPostWriteMsg p {h with rs := {rs with
      sseqNo := (rs.sseqNo+1)%65536
      sqeAvail := rs.sqeAvail-1
      sbufBytesAvail := rs.sbufBytesAvail-length
      targetSgl := Function.update rs.targetSgl rs.targetSge
        {target with addr := target.addr+length,length := target.length-length}
      targetSge := if target.length-length = 0 then
        if rs.targetSge+1 = rsSglSize then 0 else rs.targetSge+1 else rs.targetSge}}
    (.bytes sgl) (rsMsgSet rsOpData length) (.region target.addr target.key)

/-- `xfer_size` and the next `olen` before the clamp that the target makes. -/
def olapSize (rs : RSocket) (left olen : ℕ) : ℕ × ℕ :=
  let xfer := if olen < left then olen else left
  let olen' := if olen < left ∧ olen < rsMaxTransfer then 2*olen else olen
  (if rs.sbufBytesAvail < xfer then rs.sbufBytesAvail.toNat else xfer,olen')

/-- `xfer_size` in `rsend`. -/
def xferSize (rs : RSocket) (left olen : ℕ) : ℕ :=
  min (olapSize rs left olen).1 (rs.targetSgl rs.targetSge).length

/-- The loop body of `rsend` on a socket that can send. -/
def rsendBody (p : Endpoint) (h : Host) (buf : List Byte) (olen : ℕ) : Host :=
  let xfer := xferSize h.rs buf.length olen
  let copied := sbufCopy p h (buf.take xfer)
  advanceSsgl p (rsWriteData p {h with sbufMem := copied.1} copied.2 xfer) h.rs xfer

/-- `sizeof(struct rs_iomap)`. -/
def sizeofIomap : ℕ := 24

/-- `rs_write_iomap`. -/
def rsWriteIomap (p : Endpoint) (h : Host) (index : ℕ) (sgl : List (ℕ × ℕ)) : Host :=
  rsPostWriteMsg p {h with rs := {h.rs with
      sseqNo := (h.rs.sseqNo+1)%65536
      sqeAvail := h.rs.sqeAvail-1
      sbufBytesAvail := h.rs.sbufBytesAvail-sizeofIomap}}
    (.bytes sgl) (rsMsgSet rsOpIomapSgl index) (.targetIomap index)

/-- The loop body of `rs_send_iomaps`, for an entry with the given bytes. -/
def rsSendIomap (p : Endpoint) (h : Host) (index : ℕ) (record : List Byte) : Host :=
  let copied := sbufCopy p h record
  advanceSsgl p (rsWriteIomap p {h with sbufMem := copied.1} index copied.2) h.rs sizeofIomap

/-- `rs_write_direct`. -/
def rsWriteDirect (p : Endpoint) (h : Host) (addr key : ℕ) (sgl : List (ℕ × ℕ)) (length : ℕ) : Host :=
  rsPostWrite p {h with rs := {h.rs with
      sqeAvail := h.rs.sqeAvail-1
      sbufBytesAvail := h.rs.sbufBytesAvail-length}}
    (.bytes sgl) (rsMsgSet rsOpWrite length) (.region addr key)

/-- The copying branches of the loop body of `riowrite`, for bytes whose number it has
computed. -/
def riowriteBody (p : Endpoint) (h : Host) (bytes : List Byte) (addr key : ℕ) : Host :=
  let copied := sbufCopy p h bytes
  advanceSsgl p (rsWriteDirect p {h with sbufMem := copied.1} addr key copied.2 bytes.length) h.rs
    bytes.length

/-! ## Granting -/

/-- A value of type `int` converted to `short`. -/
def toShort (x : ℤ) : ℤ := (x+32768)%65536-32768

def rsCtrlAvail (rs : RSocket) : Prop := rs.ctrlSeqno ≠ rs.ctrlMaxSeqno

instance (rs : RSocket) : Decidable (rsCtrlAvail rs) := inferInstanceAs (Decidable (¬_))

/-- `rs_give_credits`. -/
def rsGiveCredits (p : Endpoint) (rs : RSocket) : Prop :=
  ((p.half : ℤ) ≤ rs.rbufBytesAvail ∨ 0 ≤ toShort (toShort rs.rseqNo-toShort rs.rseqComp)) ∧
    rsCtrlAvail rs ∧ rs.state.connected = true

instance (p : Endpoint) (rs : RSocket) : Decidable (rsGiveCredits p rs) :=
  inferInstanceAs (Decidable (_ ∧ _))

/-- The entry that `rs_send_credits` puts into the control buffer. -/
def grantSge (p : Endpoint) (rs : RSocket) : Sge :=
  if rs.swapSgl then ⟨bswap 8 (p.rbuf+rs.rbufFreeOffset),bswap 4 p.rkey,bswap 4 p.half⟩
  else ⟨p.rbuf+rs.rbufFreeOffset,p.rkey,p.half⟩

/-- `rs_send_credits`. -/
def rsSendCredits (p : Endpoint) (h : Host) : Host :=
  let rs := {h.rs with
    ctrlSeqno := (h.rs.ctrlSeqno+1)%2^32
    rseqComp := (h.rs.rseqNo+p.rqSize/2)%65536}
  let msg := rsMsgSet rsOpSgl (rs.rseqNo+p.rqSize)
  if (p.half : ℤ) ≤ rs.rbufBytesAvail then
    let slot := rs.ctrlSeqno%rsQpCtrlSize
    let free := rs.rbufFreeOffset+p.half
    rsPostWriteMsg p {h with
        ctrlMem := Function.update h.ctrlMem slot (grantSge p rs)
        rs := {rs with
          rbufBytesAvail := rs.rbufBytesAvail-p.half
          rbufFreeOffset := if p.rbufSize ≤ free then 0 else free
          remoteSge := if rs.remoteSge+1 = rs.remoteSglLength then 0 else rs.remoteSge+1}}
      (.ctrl slot) msg (.targetSgl rs.remoteSge)
  else rsPostMsg p {h with rs := rs} msg

/-- `rs_update_credits`. -/
def rsUpdateCredits (p : Endpoint) (h : Host) : Host :=
  if rsGiveCredits p h.rs then rsSendCredits p h else h

/-! ## Receiving -/

def rsHaveRdata (rs : RSocket) : Prop := rs.rmsgHead ≠ rs.rmsgTail

instance (rs : RSocket) : Decidable (rsHaveRdata rs) := inferInstanceAs (Decidable (¬_))

/-- The next index of the ring of `rq_size+1` messages. -/
def nextMsg (p : Endpoint) (i : ℕ) : ℕ := if i+1 = p.rqSize+1 then 0 else i+1

/-- One round of the copying loop of `rrecv`: the socket and the bytes copied. -/
def rrecvRound (p : Endpoint) (mem : Memory) (rs : RSocket) (left : ℕ) : RSocket × List Byte :=
  let entry := rs.rmsg rs.rmsgHead
  let rsize := if left < entry.data then left else entry.data
  let rs' := if left < entry.data
    then {rs with rmsg := Function.update rs.rmsg rs.rmsgHead {entry with data := entry.data-left}}
    else {rs with rseqNo := (rs.rseqNo+1)%65536,rmsgHead := nextMsg p rs.rmsgHead}
  ({rs' with
      rbufOffset := offsetAfter p.rbufSize rs.rbufOffset rsize
      rbufBytesAvail := rs.rbufBytesAvail+rsize},
    readFrom p.rbufSize p.rbuf mem rs.rbufOffset rsize)

/-- The copying loop of `rrecv`. -/
def rrecvLoop (p : Endpoint) (mem : Memory) : ℕ → RSocket → ℕ → RSocket × List Byte
  | 0, rs, _ => (rs,[])
  | fuel+1, rs, left =>
    if left = 0 ∨ ¬rsHaveRdata rs then (rs,[]) else
      let round := rrecvRound p mem rs left
      let rest := rrecvLoop p mem fuel round.1 (left-round.2.length)
      (rest.1,round.2++rest.2)

/-- Every round but the last takes a message from the ring. -/
def rrecvFuel (p : Endpoint) : ℕ := p.rqSize+2

def rrecv (p : Endpoint) (h : Host) (len : ℕ) : Host × List Byte :=
  let out := rrecvLoop p h.rbufMem (rrecvFuel p) h.rs len
  ({h with rs := out.1},out.2)

/-- The loop of `rs_peek`, which keeps its own index and offset. -/
def rsPeekLoop (p : Endpoint) (mem : Memory) (rs : RSocket) : ℕ → ℕ → ℕ → ℕ → List Byte
  | 0, _, _, _ => []
  | fuel+1, head, off, left =>
    if left = 0 ∨ head = rs.rmsgTail then [] else
      let data := (rs.rmsg head).data
      let rsize := if left < data then left else data
      let head' := if left < data then head else nextMsg p head
      readFrom p.rbufSize p.rbuf mem off rsize++
        rsPeekLoop p mem rs fuel head' (offsetAfter p.rbufSize off rsize) (left-rsize)

def rsPeek (p : Endpoint) (h : Host) (len : ℕ) : List Byte :=
  rsPeekLoop p h.rbufMem h.rs (rrecvFuel p) h.rs.rmsgHead h.rs.rbufOffset len

/-! ## Completions -/

/-- What `rs_poll_cq` does with one successful completion, and whether it returns at once. -/
def rsHandle (p : Endpoint) (rs : RSocket) : Wc → RSocket × Bool
  | .recv msg =>
    if rsMsgOp msg = rsOpSgl then ({rs with sseqComp := rsMsgData msg%65536},false)
    else if rsMsgOp msg = rsOpIomapSgl then (rs,false)
    else if rsMsgOp msg = rsOpCtrl then
      if rsMsgData msg = rsCtrlDisconnect then ({rs with state := rsDisconnected},true)
      else if rsMsgData msg = rsCtrlShutdown then
        if rs.state.writable then ({rs with state := {rs.state with readable := false}},false)
        else ({rs with state := rsDisconnected},true)
      else (rs,false)
    else if rsMsgOp msg = rsOpWrite then (rs,false)
    else ({rs with
      rmsg := Function.update rs.rmsg rs.rmsgTail ⟨rsMsgOp msg,rsMsgData msg⟩
      rmsgTail := nextMsg p rs.rmsgTail},false)
  | .send msg =>
    if rsMsgOp msg = rsOpSgl then ({rs with ctrlMaxSeqno := (rs.ctrlMaxSeqno+1)%2^32},false)
    else if rsMsgOp msg = rsOpCtrl then
      ({rs with
        ctrlMaxSeqno := (rs.ctrlMaxSeqno+1)%2^32
        state := if rsMsgData msg = rsCtrlDisconnect then rsDisconnected else rs.state},false)
    else if rsMsgOp msg = rsOpIomapSgl then
      ({rs with sqeAvail := rs.sqeAvail+1,sbufBytesAvail := rs.sbufBytesAvail+sizeofIomap},false)
    else ({rs with sqeAvail := rs.sqeAvail+1,sbufBytesAvail := rs.sbufBytesAvail+rsMsgData msg},false)

/-- The loop of `rs_poll_cq`: the socket, the completions left behind, the number of receives
and whether it returned from inside. -/
def rsPollLoop (p : Endpoint) : RSocket → List Wc → ℕ → RSocket × List Wc × ℕ × Bool
  | rs, [], rcnt => (rs,[],rcnt,false)
  | rs, wc::rest, rcnt =>
    let out := rsHandle p rs wc
    let rcnt' := if wc.recv?.isSome then rcnt+1 else rcnt
    if out.2 then (out.1,rest,rcnt',true) else rsPollLoop p out.1 rest rcnt'

/-- `rs_poll_cq`, which posts a receive for each one it has seen. -/
def rsPollCq (p : Endpoint) (h : Host) : Host :=
  let out := rsPollLoop p h.rs h.cq 0
  {h with
    rs := out.1
    cq := out.2.1
    rq := if out.2.2.2 = false ∧ out.1.state.connected then h.rq+out.2.2.1 else h.rq}

/-! ## Closing -/

inductive How
  | rd
  | wr
  | rdwr
  deriving DecidableEq

/-- `rshutdown` up to the wait for a control entry: the state and the message to post. -/
def rshutdown (h : Host) (how : How) : Host :=
  let state := h.rs.state
  if state.connected then
    match how with
    | .rdwr => {h with
        rs := {h.rs with state := {state with readable := false,writable := false}}
        ctrl := some rsCtrlDisconnect}
    | .wr => {h with
        rs := {h.rs with state := {state with writable := false}}
        ctrl := some (if state.readable then rsCtrlShutdown else rsCtrlDisconnect)}
    | .rd => {h with
        rs := {h.rs with state := {state with readable := false}}
        ctrl := if state.writable then none else some rsCtrlDisconnect}
  else h

/-- A control message that takes a control entry. -/
def postCtrl (h : Host) (post : Host → Host) : Host :=
  if h.rs.state.connected = true ∧ rsCtrlAvail h.rs
  then post {h with rs := {h.rs with ctrlSeqno := (h.rs.ctrlSeqno+1)%2^32}} else h

/-- The rest of `rshutdown`. -/
def rshutdownPost (p : Endpoint) (h : Host) (ctrl : ℕ) : Host :=
  {postCtrl h (fun h => rsPostMsg p h (rsMsgSet rsOpCtrl ctrl)) with ctrl := none}

/-- `tcp_svc_send_keepalive`. -/
def tcpSvcSendKeepalive (p : Endpoint) (h : Host) : Host :=
  postCtrl h fun h => rsPostWrite p h .none (rsMsgSet rsOpCtrl rsCtrlKeepalive) .none

end FreeFlow.Rsocket
