import FreeFlow.LaidOut
import FreeFlow.RsocketPeers
import Mathlib.Algebra.GroupWithZero.Nat

/-!
# The queues of one socket

What a socket knows of its own send queue, send buffer and control buffers. The
requests that are not yet delivered lie one behind the other along four
positions at once: in everything that was ever copied to the send buffer, in
the stream, in the control messages and in the halves granted. A request has a
send queue entry, and its bytes their place in the send buffer, until its
completion is polled.
-/

set_option autoImplicit false

namespace FreeFlow.RsocketQueues

open ByteMemory (Memory put)
open ByteOrder CircularStream LaidOut Rsocket RsocketPeers

/-- The control messages, which do not use the send buffer. -/
def isCtrl (msg : ℕ) : Bool := rsMsgOp msg = rsOpSgl || rsMsgOp msg = rsOpCtrl

/-- The bytes of the send buffer that `rs_poll_cq` gives back for a request. -/
def ringLen (msg : ℕ) : ℕ :=
  if isCtrl msg then 0 else if rsMsgOp msg = rsOpIomapSgl then sizeofIomap else rsMsgData msg

def streamLen (msg : ℕ) : ℕ := if isData msg then rsMsgData msg else 0

def isGrant (wr : SendWr) : Bool :=
  match wr.src with
  | .ctrl _ => true
  | _ => false

structure Pos where
  ring : ℕ
  stream : ℕ
  ctrl : ℕ
  grants : ℕ

def next (pos : Pos) (wr : SendWr) : Pos where
  ring := pos.ring+ringLen wr.msg
  stream := pos.stream+streamLen wr.msg
  ctrl := pos.ctrl+if isCtrl wr.msg then 1 else 0
  grants := pos.grants+if isGrant wr then 1 else 0

/-- The control buffer entry that grants half number `g` to a peer. -/
def storedSge (p peer : Endpoint) (g : ℕ) : Sge :=
  if p.net = peer.net then ⟨p.rbuf+g%2*p.half,p.rkey,p.half⟩
  else ⟨bswap 8 (p.rbuf+g%2*p.half),bswap 4 p.rkey,bswap 4 p.half⟩

/-- The requests a socket posts, at their positions. -/
inductive Posted (p peer : Endpoint) (ring sent : List Byte) (ctrlMem : ℕ → Sge) (pos : Pos) :
    SendWr → Prop
  | data (n : ℕ) (hpos : 0 < n) (hn : n ≤ rsMaxTransfer)
      (hhalf : pos.stream%peer.half+n ≤ peer.half) (hbuf : n ≤ p.sbufSize)
      (hbytes : ∀ i < n, ∃ b, ring[pos.ring+i]? = some b ∧ sent[pos.stream+i]? = some b) :
      Posted p peer ring sent ctrlMem pos ⟨rsMsgSet rsOpData n,true,
        .bytes (pieces p.sbufSize p.sbuf pos.ring n),
        .region (peer.rbuf+pos.stream%peer.rbufSize) peer.rkey⟩
  | iomap (index : ℕ) (hindex : index < 65536) (sgl : List (ℕ × ℕ)) :
      Posted p peer ring sent ctrlMem pos ⟨rsMsgSet rsOpIomapSgl index,true,.bytes sgl,
        .targetIomap index⟩
  | write (n addr key : ℕ) (hn : n ≤ rsMaxTransfer) (hkey : key ≠ peer.rkey)
      (sgl : List (ℕ × ℕ)) :
      Posted p peer ring sent ctrlMem pos ⟨rsMsgSet rsOpWrite n,false,.bytes sgl,.region addr key⟩
  | grant (c : ℕ) (hc : c < 2^29) (hsge : ctrlMem (pos.ctrl%rsQpCtrlSize) = storedSge p peer pos.grants) :
      Posted p peer ring sent ctrlMem pos ⟨rsMsgSet rsOpSgl c,true,.ctrl (pos.ctrl%rsQpCtrlSize),
        .targetSgl (pos.grants%2)⟩
  | credit (c : ℕ) (hc : c < 2^29) :
      Posted p peer ring sent ctrlMem pos ⟨rsMsgSet rsOpSgl c,true,.none,.none⟩
  | ctrl (c : ℕ) (hc : c < 2^29) (imm : Bool) :
      Posted p peer ring sent ctrlMem pos ⟨rsMsgSet rsOpCtrl c,imm,.none,.none⟩

/-- What the send buffer has held so far, the positions of the first request that is not
delivered, and the numbers of control messages and of halves granted. -/
structure Track where
  ring : List Byte
  start : Pos
  ctrl : ℕ
  grants : ℕ

/-- The positions of the next request. -/
def Track.stop (t : Track) (sent : List Byte) : Pos := ⟨t.ring.length,sent.length,t.ctrl+1,t.grants⟩

def ctrlOut (h : Host) : ℕ := (outMsgs h).countP isCtrl

def entriesOut (h : Host) : ℕ := (outMsgs h).countP fun msg => !isCtrl msg

def ringOut (h : Host) : ℕ := ((outMsgs h).map ringLen).sum

structure HostInv (p peer : Endpoint) (t : Track) (h : Host) (sent : List Byte) : Prop where
  laid : Laid next (Posted p peer t.ring sent h.ctrlMem) t.start h.sq (t.stop sent)
  placed : h.sq = [] → h.placed = 0
  placed_le : ∀ wr rest, h.sq = wr::rest → h.placed ≤ units wr
  ctrlNo : h.rs.ctrlSeqno = t.ctrl%2^32
  ctrlMax : h.rs.ctrlMaxSeqno = (t.ctrl+rsQpCtrlSize-ctrlOut h)%2^32
  ctrl_le : ctrlOut h ≤ rsQpCtrlSize
  entries : h.rs.sqeAvail+entriesOut h = (p.sqSize : ℤ)-rsQpCtrlSize
  entries_le : 0 ≤ h.rs.sqeAvail
  bytes : h.rs.sbufBytesAvail+ringOut h = (p.sbufSize : ℤ)
  bytes_le : 0 ≤ h.rs.sbufBytesAvail
  held : Holds p.sbufSize p.sbuf h.sbufMem t.ring (t.ring.length-ringOut h) t.ring.length
  addr : h.rs.ssglAddr = p.sbuf+t.ring.length%p.sbufSize
  swap : h.rs.swapSgl = decide (p.net ≠ peer.net)
  sglLength : h.rs.remoteSglLength = rsSglSize
  receives : h.rq+(h.cq.filterMap Wc.recv?).length ≤ p.rqSize
  accepted : h.refused = false

variable {p peer : Endpoint} {t : Track} {h : Host} {sent : List Byte}

/-! ## Kinds of messages -/

theorem data_lt {n : ℕ} (hn : n ≤ rsMaxTransfer) : n < 2^29 :=
  lt_of_le_of_lt hn (by decide)

theorem index_lt {n : ℕ} (hn : n < 65536) : n < 2^29 := lt_trans hn (by decide)

/-- Whether a message built from an operation and 29 bits of data is of a kind is seen from the
operation. -/
theorem isCtrl_set (op n : ℕ) (hn : n < 2^29) :
    isCtrl (rsMsgSet op n) = (decide (op = rsOpSgl) || decide (op = rsOpCtrl)) := by
  rw [isCtrl,rsMsgOp_set op n hn]

theorem isData_set (op n : ℕ) (hn : n < 2^29) :
    isData (rsMsgSet op n) = (decide (op ≠ rsOpSgl) && decide (op ≠ rsOpIomapSgl) &&
      decide (op ≠ rsOpCtrl) && decide (op ≠ rsOpWrite)) := by
  rw [isData,rsMsgOp_set op n hn]

theorem ringLen_data {n : ℕ} (hn : n < 2^29) : ringLen (rsMsgSet rsOpData n) = n := by
  rw [ringLen,isCtrl_set _ _ hn,rsMsgOp_set _ _ hn,rsMsgData_set _ _ hn]
  rfl

theorem ringLen_write {n : ℕ} (hn : n < 2^29) : ringLen (rsMsgSet rsOpWrite n) = n := by
  rw [ringLen,isCtrl_set _ _ hn,rsMsgOp_set _ _ hn,rsMsgData_set _ _ hn]
  rfl

theorem ringLen_iomap {n : ℕ} (hn : n < 2^29) : ringLen (rsMsgSet rsOpIomapSgl n) = sizeofIomap := by
  rw [ringLen,isCtrl_set _ _ hn,rsMsgOp_set _ _ hn]
  rfl

theorem ringLen_ctrl {msg : ℕ} (h : isCtrl msg = true) : ringLen msg = 0 := if_pos h

theorem streamLen_data {n : ℕ} (hn : n < 2^29) : streamLen (rsMsgSet rsOpData n) = n := by
  rw [streamLen,isData_set _ _ hn,rsMsgData_set _ _ hn]
  rfl

theorem streamLen_other {msg : ℕ} (h : isData msg = false) : streamLen msg = 0 := by
  rw [streamLen,h]
  rfl

/-! ## Walking the queue -/

theorem foldl_ring (xs : List SendWr) (b : Pos) :
    (xs.foldl next b).ring = b.ring+((xs.map SendWr.msg).map ringLen).sum := by
  induction xs generalizing b with
  | nil => rfl
  | cons wr xs ih =>
    rw [List.foldl_cons,ih,List.map_cons,List.map_cons,List.sum_cons,next]
    dsimp only
    omega

theorem foldl_stream (xs : List SendWr) (b : Pos) :
    (xs.foldl next b).stream = b.stream+((xs.map SendWr.msg).map streamLen).sum := by
  induction xs generalizing b with
  | nil => rfl
  | cons wr xs ih =>
    rw [List.foldl_cons,ih,List.map_cons,List.map_cons,List.sum_cons,next]
    dsimp only
    omega

theorem foldl_ctrl (xs : List SendWr) (b : Pos) :
    (xs.foldl next b).ctrl = b.ctrl+(xs.map SendWr.msg).countP isCtrl := by
  induction xs generalizing b with
  | nil => rfl
  | cons wr xs ih =>
    rw [List.foldl_cons,ih,List.map_cons,List.countP_cons,next]
    dsimp only
    omega

theorem foldl_grants (xs : List SendWr) (b : Pos) :
    (xs.foldl next b).grants = b.grants+xs.countP isGrant := by
  induction xs generalizing b with
  | nil => rfl
  | cons wr xs ih =>
    rw [List.foldl_cons,ih,List.countP_cons,next]
    dsimp only
    omega

/-- The bytes of the requests in the queue are among those not given back. -/
theorem HostInv.ring_start (inv : HostInv p peer t h sent) :
    t.start.ring ≤ t.ring.length ∧ t.ring.length ≤ t.start.ring+ringOut h := by
  have hsum : t.ring.length = t.start.ring+((h.sq.map SendWr.msg).map ringLen).sum := by
    rw [← foldl_ring,inv.laid.foldl_eq]
    rfl
  have hout : ((h.sq.map SendWr.msg).map ringLen).sum ≤ ringOut h := by
    simp only [ringOut,outMsgs,List.map_append,List.sum_append]
    omega
  omega

theorem HostInv.stream_start (inv : HostInv p peer t h sent) :
    sent.length = t.start.stream+((h.sq.map SendWr.msg).map streamLen).sum := by
  rw [← foldl_stream,inv.laid.foldl_eq]
  rfl

theorem HostInv.ctrl_start (inv : HostInv p peer t h sent) :
    t.ctrl+1 ≤ t.start.ctrl+ctrlOut h := by
  have hsum : t.ctrl+1 = t.start.ctrl+(h.sq.map SendWr.msg).countP isCtrl := by
    rw [← foldl_ctrl,inv.laid.foldl_eq]
    rfl
  have hout : (h.sq.map SendWr.msg).countP isCtrl ≤ ctrlOut h := by
    simp only [ctrlOut,outMsgs,List.countP_append]
    omega
  omega

/-- A half that is being placed is among those granted. -/
theorem HostInv.grants_lt (inv : HostInv p peer t h sent) {wr : SendWr} {rest : List SendWr}
    (hsq : h.sq = wr::rest) (hgrant : isGrant wr = true) : t.start.grants < t.grants := by
  have hsum : t.grants = t.start.grants+h.sq.countP isGrant := by
    rw [← foldl_grants,inv.laid.foldl_eq]
    rfl
  rw [hsum,hsq,List.countP_cons,hgrant]
  simp

/-! ## Copies into the send buffer -/

theorem put_apply (m : Memory) (a : ℕ) (bytes : List Byte) (i : ℕ) (b : Byte)
    (hb : bytes[i]? = some b) : put m a bytes (a+i) = b := by
  rw [put,if_pos (Nat.le_add_right a i),Nat.add_sub_cancel_left,List.getD_eq_getElem?_getD,hb]
  rfl

theorem put_of_not (m : Memory) (a : ℕ) (bytes : List Byte) (x : ℕ)
    (hx : x < a ∨ a+bytes.length ≤ x) : put m a bytes x = m x := by
  rw [put]
  by_cases ha : a ≤ x
  · rw [if_pos ha,List.getD_eq_default _ _ (by omega)]
  · rw [if_neg ha]

theorem HostInv.left_eq (inv : HostInv p peer t h sent) :
    rsSbufLeft p h.rs = p.sbufSize-t.ring.length%p.sbufSize := by
  rw [rsSbufLeft,inv.addr]
  omega

theorem HostInv.pieces_eq (inv : HostInv p peer t h sent) (bytes : List Byte) :
    (sbufCopy p h bytes).2 = pieces p.sbufSize p.sbuf t.ring.length bytes.length := by
  rw [sbufCopy,inv.left_eq,pieces,inv.addr]
  split <;> rfl

theorem HostInv.ssglAfter_eq (inv : HostInv p peer t h sent) (hp : 0 < p.sbufSize) {n : ℕ}
    (hn : n ≤ p.sbufSize) : ssglAfter p h.rs n = p.sbuf+(t.ring.length+n)%p.sbufSize := by
  have hlt : t.ring.length%p.sbufSize < p.sbufSize := Nat.mod_lt _ hp
  rw [ssglAfter,inv.left_eq,inv.addr,add_mod_of_le hp hn]
  split_ifs <;> omega

/-- The copied bytes are behind those the send buffer holds, which stay. -/
theorem HostInv.copied (inv : HostInv p peer t h sent) (hp : 0 < p.sbufSize) (bytes : List Byte)
    (hroom : (bytes.length : ℤ) ≤ h.rs.sbufBytesAvail) :
    Holds p.sbufSize p.sbuf (sbufCopy p h bytes).1 (t.ring++bytes) (t.ring.length-ringOut h)
      (t.ring.length+bytes.length) := by
  have hbytes := inv.bytes
  have hlt : t.ring.length%p.sbufSize < p.sbufSize := Nat.mod_lt _ hp
  have hmod : ∀ i < bytes.length, (t.ring.length+i)%p.sbufSize =
      if t.ring.length%p.sbufSize+i < p.sbufSize then t.ring.length%p.sbufSize+i
      else t.ring.length%p.sbufSize+i-p.sbufSize := fun i hi => add_mod_of_le hp (by omega)
  refine inv.held.extend bytes (by omega) ?_ ?_
  · intro i b hb
    have hi : i < bytes.length := (List.getElem?_eq_some_iff.mp hb).1
    rw [hmod i hi,sbufCopy,inv.left_eq,inv.addr]
    by_cases hone : bytes.length ≤ p.sbufSize-t.ring.length%p.sbufSize
    · rw [if_pos hone,if_pos (by omega),← Nat.add_assoc]
      exact put_apply _ _ _ i b hb
    · rw [if_neg hone]
      by_cases hfirst : t.ring.length%p.sbufSize+i < p.sbufSize
      · -- the second piece ends before the first one starts
        rw [if_pos hfirst]
        dsimp only
        rw [put_of_not _ _ _ _ (Or.inr (by rw [List.length_drop]; omega)),← Nat.add_assoc]
        exact put_apply _ _ _ i b (by rw [List.getElem?_take_of_lt (by omega)]; exact hb)
      · rw [if_neg hfirst]
        refine put_apply _ _ _ _ b ?_
        rw [List.getElem?_drop,← hb]
        congr 1
        omega
  · intro a ha
    rw [sbufCopy,inv.left_eq,inv.addr]
    by_cases hone : bytes.length ≤ p.sbufSize-t.ring.length%p.sbufSize
    · rw [if_pos hone]
      refine put_of_not _ _ _ _ ?_
      by_contra hin
      have hne := ha (a-(p.sbuf+t.ring.length%p.sbufSize)) (by omega)
      rw [hmod _ (by omega),if_pos (by omega)] at hne
      omega
    · rw [if_neg hone]
      dsimp only
      rw [put_of_not _ _ _ a,put_of_not _ _ _ a]
      · by_contra hin
        rw [List.length_take] at hin
        have hne := ha (a-(p.sbuf+t.ring.length%p.sbufSize)) (by omega)
        rw [hmod _ (by omega),if_pos (by omega)] at hne
        omega
      · by_contra hin
        rw [List.length_drop] at hin
        have hne := ha (a-p.sbuf+(p.sbufSize-t.ring.length%p.sbufSize)) (by omega)
        rw [hmod _ (by omega),if_neg (by omega)] at hne
        omega

/-! ## Posting -/

theorem outMsgs_post (h : Host) (rs : RSocket) (mem : Memory) (ctrlMem : ℕ → Sge) (wr : SendWr) :
    outMsgs {h with rs := rs,sbufMem := mem,ctrlMem := ctrlMem,sq := h.sq++[wr]} =
      outMsgs h++[wr.msg] := by
  simp only [outMsgs,List.map_append,List.map_singleton,List.append_assoc]

theorem outMsgs_length (h : Host) : (outMsgs h).length = entriesOut h+ctrlOut h := by
  rw [entriesOut,ctrlOut,List.length_eq_countP_add_countP isCtrl,Nat.add_comm]
  simp

/-- A socket that can send has a free entry in the send queue. -/
theorem HostInv.free_entry (inv : HostInv p peer t h sent) (hcan : h.rs.sqeAvail ≠ 0) :
    (outMsgs h).length < p.sqSize := by
  have hentries := inv.entries
  have hle := inv.entries_le
  have hctrl := inv.ctrl_le
  rw [outMsgs_length]
  omega

theorem HostInv.ctrl_lt (inv : HostInv p peer t h sent) (havail : rsCtrlAvail h.rs) :
    ctrlOut h < rsQpCtrlSize := by
  have hle := inv.ctrl_le
  by_contra hfull
  have heq : ctrlOut h = rsQpCtrlSize := by omega
  refine havail ?_
  rw [inv.ctrlNo,inv.ctrlMax,heq,Nat.add_sub_cancel]

theorem HostInv.free_ctrl_entry (inv : HostInv p peer t h sent) (havail : rsCtrlAvail h.rs) :
    (outMsgs h).length < p.sqSize := by
  have hentries := inv.entries
  have hle := inv.entries_le
  have hctrl := inv.ctrl_lt havail
  rw [outMsgs_length]
  omega

theorem getElem?_append_some {α : Type*} {xs : List α} {i : ℕ} {b : α} (ys : List α)
    (h : xs[i]? = some b) : (xs++ys)[i]? = some b := by
  rw [List.getElem?_append_left (List.getElem?_eq_some_iff.mp h).1]
  exact h

/-- What is said of a posted request stays true when the stream and the send buffer go on. -/
theorem Posted.append {ring : List Byte} {ctrlMem : ℕ → Sge} {pos : Pos} {wr : SendWr}
    (hp : Posted p peer ring sent ctrlMem pos wr) (bytes more : List Byte) :
    Posted p peer (ring++bytes) (sent++more) ctrlMem pos wr := by
  cases hp with
  | data n hpos hn hhalf hbuf hbytes =>
    refine .data n hpos hn hhalf hbuf fun i hi => ?_
    obtain ⟨b,hring,hsent⟩ := hbytes i hi
    exact ⟨b,getElem?_append_some bytes hring,getElem?_append_some more hsent⟩
  | iomap index hindex sgl => exact .iomap index hindex sgl
  | write n addr key hn hkey sgl => exact .write n addr key hn hkey sgl
  | grant c hc hsge => exact .grant c hc hsge
  | credit c hc => exact .credit c hc
  | ctrl c hc imm => exact .ctrl c hc imm

theorem pieces_sum (n base q k : ℕ) : ((pieces n base q k).map Prod.snd).sum = k := by
  rw [pieces]
  by_cases h : k ≤ n-q%n
  · rw [if_pos h]
    simp
  · rw [if_neg h]
    simp only [List.map_cons,List.map_nil,List.sum_cons,List.sum_nil]
    omega

/-- A request of the stream places its bytes and no more. -/
theorem Posted.units_eq {ring : List Byte} {ctrlMem : ℕ → Sge} {pos : Pos} {wr : SendWr}
    (hp : Posted p peer ring sent ctrlMem pos wr) (hdata : isData wr.msg = true) :
    units wr = streamLen wr.msg := by
  cases hp with
  | data n hpos hn hhalf hbuf hbytes =>
    rw [streamLen_data (data_lt hn)]
    exact pieces_sum _ _ _ _
  | iomap index hindex sgl => exact absurd hdata (by rw [isData_set _ _ (index_lt hindex)]; decide)
  | write n addr key hn hkey sgl => exact absurd hdata (by rw [isData_set _ _ (data_lt hn)]; decide)
  | grant c hc hsge => exact absurd hdata (by rw [isData_set _ _ hc]; decide)
  | credit c hc => exact absurd hdata (by rw [isData_set _ _ hc]; decide)
  | ctrl c hc imm => exact absurd hdata (by rw [isData_set _ _ hc]; decide)

theorem units_grant {wr : SendWr} (hgrant : isGrant wr = true) : units wr = 3 := by
  rw [isGrant] at hgrant
  rw [units]
  split at hgrant
  · rename_i slot hsrc
    rw [hsrc]
  · simp at hgrant

/-- A request is posted for bytes that were copied into the send buffer; `more` are those of
them that belong to the stream. -/
theorem HostInv.postRing (inv : HostInv p peer t h sent) (hp : 0 < p.sbufSize) (bytes more : List Byte)
    (wr : SendWr) (rs : RSocket) (hroom : (bytes.length : ℤ) ≤ h.rs.sbufBytesAvail)
    (hcan : h.rs.sqeAvail ≠ 0) (hctrl : isCtrl wr.msg = false) (hring : ringLen wr.msg = bytes.length)
    (hstream : streamLen wr.msg = more.length) (hgrant : isGrant wr = false)
    (hposted : Posted p peer (t.ring++bytes) (sent++more) h.ctrlMem (t.stop sent) wr)
    (hno : rs.ctrlSeqno = h.rs.ctrlSeqno) (hmax : rs.ctrlMaxSeqno = h.rs.ctrlMaxSeqno)
    (hsqe : rs.sqeAvail = h.rs.sqeAvail-1)
    (havail : rs.sbufBytesAvail = h.rs.sbufBytesAvail-bytes.length)
    (haddr : rs.ssglAddr = ssglAfter p h.rs bytes.length) (hswap : rs.swapSgl = h.rs.swapSgl)
    (hsgl : rs.remoteSglLength = h.rs.remoteSglLength) :
    HostInv p peer {t with ring := t.ring++bytes}
      {h with rs := rs,sbufMem := (sbufCopy p h bytes).1,sq := h.sq++[wr]} (sent++more) := by
  have hbytes := inv.bytes
  have hout := outMsgs_post h rs (sbufCopy p h bytes).1 h.ctrlMem wr
  have hctrlOut : ctrlOut {h with rs := rs,sbufMem := (sbufCopy p h bytes).1,sq := h.sq++[wr]} =
      ctrlOut h := by
    rw [ctrlOut,hout,List.countP_append,List.countP_singleton,hctrl]
    rfl
  have hentries : entriesOut {h with rs := rs,sbufMem := (sbufCopy p h bytes).1,sq := h.sq++[wr]} =
      entriesOut h+1 := by
    rw [entriesOut,hout,List.countP_append,List.countP_singleton,hctrl]
    rfl
  have hringOut : ringOut {h with rs := rs,sbufMem := (sbufCopy p h bytes).1,sq := h.sq++[wr]} =
      ringOut h+bytes.length := by
    rw [ringOut,hout,List.map_append,List.sum_append,List.map_singleton,List.sum_singleton,hring]
    rfl
  have hnext : next (t.stop sent) wr = ({t with ring := t.ring++bytes} : Track).stop (sent++more) := by
    rw [next,hring,hstream,hctrl,hgrant]
    simp [Track.stop]
  constructor
  · rw [← hnext]
    exact (inv.laid.imp fun _ _ _ hok => hok.append bytes more).concat hposted
  · intro hnil
    exact absurd hnil (by simp)
  · intro wr' rest hcons
    cases hsq : h.sq with
    | nil =>
      show h.placed ≤ _
      rw [inv.placed hsq]
      exact Nat.zero_le _
    | cons first others =>
      obtain ⟨rfl,-⟩ : first = wr' ∧ _ := by simpa [hsq] using hcons
      exact inv.placed_le first others hsq
  · exact hno.trans inv.ctrlNo
  · rw [hctrlOut]
    exact hmax.trans inv.ctrlMax
  · rw [hctrlOut]
    exact inv.ctrl_le
  · rw [hentries]
    have := inv.entries
    show rs.sqeAvail+_ = _
    omega
  · have := inv.entries_le
    show 0 ≤ rs.sqeAvail
    omega
  · rw [hringOut]
    show rs.sbufBytesAvail+_ = _
    omega
  · show 0 ≤ rs.sbufBytesAvail
    omega
  · rw [hringOut]
    have hheld := inv.copied hp bytes hroom
    rw [List.length_append]
    exact hheld.mono (by omega) le_rfl
  · show rs.ssglAddr = _
    rw [haddr,inv.ssglAfter_eq hp (by have := inv.bytes; omega),List.length_append]
  · exact hswap.trans inv.swap
  · exact hsgl.trans inv.sglLength
  · exact inv.receives
  · exact inv.accepted

/-- A control message is posted; it may grant a half through a control buffer of its own. The
buffers of the control messages that are still in the queue have other numbers. -/
theorem HostInv.postControl (inv : HostInv p peer t h sent) (wr : SendWr) (rs : RSocket)
    (ctrlMem : ℕ → Sge) (havail : rsCtrlAvail h.rs) (hctrl : isCtrl wr.msg = true)
    (hdata : isData wr.msg = false)
    (hmem : ∀ k, k ≠ (t.ctrl+1)%rsQpCtrlSize → ctrlMem k = h.ctrlMem k)
    (hposted : Posted p peer t.ring sent ctrlMem (t.stop sent) wr)
    (hno : rs.ctrlSeqno = (h.rs.ctrlSeqno+1)%2^32) (hmax : rs.ctrlMaxSeqno = h.rs.ctrlMaxSeqno)
    (hsqe : rs.sqeAvail = h.rs.sqeAvail) (hbytes : rs.sbufBytesAvail = h.rs.sbufBytesAvail)
    (haddr : rs.ssglAddr = h.rs.ssglAddr) (hswap : rs.swapSgl = h.rs.swapSgl)
    (hsgl : rs.remoteSglLength = h.rs.remoteSglLength) :
    HostInv p peer {t with ctrl := t.ctrl+1,grants := t.grants+if isGrant wr then 1 else 0}
      {h with rs := rs,ctrlMem := ctrlMem,sq := h.sq++[wr]} sent := by
  have hlt := inv.ctrl_lt havail
  have hsize : rsQpCtrlSize = 4 := rfl
  have hout := outMsgs_post h rs h.sbufMem ctrlMem wr
  have hctrlOut : ctrlOut {h with rs := rs,ctrlMem := ctrlMem,sq := h.sq++[wr]} = ctrlOut h+1 := by
    rw [ctrlOut,hout,List.countP_append,List.countP_singleton,hctrl]
    rfl
  have hentries : entriesOut {h with rs := rs,ctrlMem := ctrlMem,sq := h.sq++[wr]} = entriesOut h := by
    rw [entriesOut,hout,List.countP_append,List.countP_singleton,hctrl]
    rfl
  have hringOut : ringOut {h with rs := rs,ctrlMem := ctrlMem,sq := h.sq++[wr]} = ringOut h := by
    rw [ringOut,hout,List.map_append,List.sum_append,List.map_singleton,List.sum_singleton,
      ringLen_ctrl hctrl]
    rfl
  have hnext : next (t.stop sent) wr = Track.stop
      {t with ctrl := t.ctrl+1,grants := t.grants+if isGrant wr then 1 else 0} sent := by
    rw [next,ringLen_ctrl hctrl,streamLen_other hdata,hctrl]
    rfl
  constructor
  · rw [← hnext]
    refine Laid.concat (inv.laid.imp_of_measure Pos.ctrl (fun b x => Nat.le_add_right _ _) ?_) hposted
    intro c x _ hstart hstop hok
    have hfirst := inv.ctrl_start
    change t.start.ctrl ≤ c.ctrl at hstart
    cases hok with
    | data n hpos hn hhalf hbuf hbytes => exact .data n hpos hn hhalf hbuf hbytes
    | iomap index hindex sgl => exact .iomap index hindex sgl
    | write n addr key hn hkey sgl => exact .write n addr key hn hkey sgl
    | grant n hn hsge =>
      refine .grant n hn ?_
      show ctrlMem _ = _
      rw [hmem _ ?_]
      · exact hsge
      · have hkind : isCtrl (rsMsgSet rsOpSgl n) = true := by
          rw [isCtrl_set _ _ hn]
          rfl
        simp only [next,Track.stop,hkind,if_true] at hstop
        rw [hsize]
        omega
    | credit n hn => exact .credit n hn
    | ctrl n hn imm => exact .ctrl n hn imm
  · intro hnil
    exact absurd hnil (by simp)
  · intro wr' rest hcons
    cases hsq : h.sq with
    | nil =>
      show h.placed ≤ _
      rw [inv.placed hsq]
      exact Nat.zero_le _
    | cons first others =>
      obtain ⟨rfl,-⟩ : first = wr' ∧ _ := by simpa [hsq] using hcons
      exact inv.placed_le first others hsq
  · show rs.ctrlSeqno = (t.ctrl+1)%2^32
    rw [hno,inv.ctrlNo,Nat.mod_add_mod]
  · rw [hctrlOut]
    show rs.ctrlMaxSeqno = (t.ctrl+1+rsQpCtrlSize-(ctrlOut h+1))%2^32
    rw [hmax,inv.ctrlMax]
    congr 1
    omega
  · rw [hctrlOut]
    exact hlt
  · rw [hentries]
    show rs.sqeAvail+_ = _
    rw [hsqe]
    exact inv.entries
  · show 0 ≤ rs.sqeAvail
    rw [hsqe]
    exact inv.entries_le
  · rw [hringOut]
    show rs.sbufBytesAvail+_ = _
    rw [hbytes]
    exact inv.bytes
  · show 0 ≤ rs.sbufBytesAvail
    rw [hbytes]
    exact inv.bytes_le
  · rw [hringOut]
    exact inv.held
  · exact haddr.trans inv.addr
  · exact hswap.trans inv.swap
  · exact hsgl.trans inv.sglLength
  · exact inv.receives
  · exact inv.accepted

/-! ## Delivery, completion and polling -/

/-- Fields of a host that its invariant does not speak of may change, and a receive may be
taken. -/
theorem HostInv.congr (inv : HostInv p peer t h sent) {h' : Host} (hsq : h'.sq = h.sq)
    (hplaced : h'.placed = h.placed) (hout : outMsgs h' = outMsgs h) (hmem : h'.sbufMem = h.sbufMem)
    (hctrl : h'.ctrlMem = h.ctrlMem) (hrefused : h'.refused = h.refused)
    (hrecv : h'.rq+(h'.cq.filterMap Wc.recv?).length ≤ p.rqSize)
    (hno : h'.rs.ctrlSeqno = h.rs.ctrlSeqno) (hmax : h'.rs.ctrlMaxSeqno = h.rs.ctrlMaxSeqno)
    (hsqe : h'.rs.sqeAvail = h.rs.sqeAvail) (hbytes : h'.rs.sbufBytesAvail = h.rs.sbufBytesAvail)
    (haddr : h'.rs.ssglAddr = h.rs.ssglAddr) (hswap : h'.rs.swapSgl = h.rs.swapSgl)
    (hsgl : h'.rs.remoteSglLength = h.rs.remoteSglLength) : HostInv p peer t h' sent := by
  have hctrlOut : ctrlOut h' = ctrlOut h := by rw [ctrlOut,hout,ctrlOut]
  have hentries : entriesOut h' = entriesOut h := by rw [entriesOut,hout,entriesOut]
  have hringOut : ringOut h' = ringOut h := by rw [ringOut,hout,ringOut]
  constructor
  · rw [hsq,hctrl]
    exact inv.laid
  · rw [hsq,hplaced]
    exact inv.placed
  · rw [hsq,hplaced]
    exact inv.placed_le
  · exact hno.trans inv.ctrlNo
  · rw [hctrlOut]
    exact hmax.trans inv.ctrlMax
  · rw [hctrlOut]
    exact inv.ctrl_le
  · rw [hentries,hsqe]
    exact inv.entries
  · rw [hsqe]
    exact inv.entries_le
  · rw [hringOut,hbytes]
    exact inv.bytes
  · rw [hbytes]
    exact inv.bytes_le
  · rw [hringOut,hmem]
    exact inv.held
  · exact haddr.trans inv.addr
  · exact hswap.trans inv.swap
  · exact hsgl.trans inv.sglLength
  · exact hrecv
  · exact hrefused.trans inv.accepted

theorem HostInv.place (inv : HostInv p peer t h sent) {wr : SendWr} {rest : List SendWr}
    (hsq : h.sq = wr::rest) (hlt : h.placed < units wr) :
    HostInv p peer t {h with placed := h.placed+1} sent := by
  refine {inv with placed := ?_,placed_le := ?_}
  · intro hnil
    exact absurd (hsq.symm.trans hnil) (by simp)
  · intro wr' rest' hcons
    obtain ⟨rfl,-⟩ : wr = wr' ∧ rest = rest' := by simpa [hsq] using hcons
    exact hlt

theorem outMsgs_deliver (h : Host) {wr : SendWr} {rest : List SendWr} (hsq : h.sq = wr::rest) :
    outMsgs (afterDeliver h wr rest) = outMsgs h := by
  simp only [outMsgs,afterDeliver,hsq,List.map_append,List.map_cons,List.map_nil,List.append_assoc,
    List.singleton_append]

theorem HostInv.deliver (inv : HostInv p peer t h sent) {wr : SendWr} {rest : List SendWr}
    (hsq : h.sq = wr::rest) :
    HostInv p peer {t with start := next t.start wr} (afterDeliver h wr rest) sent := by
  have hout := outMsgs_deliver h hsq
  have hctrlOut : ctrlOut (afterDeliver h wr rest) = ctrlOut h := by rw [ctrlOut,hout,ctrlOut]
  have hentries : entriesOut (afterDeliver h wr rest) = entriesOut h := by
    rw [entriesOut,hout,entriesOut]
  have hringOut : ringOut (afterDeliver h wr rest) = ringOut h := by rw [ringOut,hout,ringOut]
  have hlaid := inv.laid
  rw [hsq,laid_cons] at hlaid
  refine {inv with
    laid := hlaid.2
    placed := fun _ => rfl
    placed_le := fun _ _ _ => Nat.zero_le _
    ctrlMax := by rw [hctrlOut]; exact inv.ctrlMax
    ctrl_le := by rw [hctrlOut]; exact inv.ctrl_le
    entries := by rw [hentries]; exact inv.entries
    bytes := by rw [hringOut]; exact inv.bytes
    held := by rw [hringOut]; exact inv.held}

theorem HostInv.complete (inv : HostInv p peer t h sent) {wr : SendWr} {rest : List SendWr}
    (hacks : h.acks = wr::rest) :
    HostInv p peer t {h with acks := rest,cq := h.cq++[.send wr.msg]} sent := by
  refine inv.congr rfl rfl ?_ rfl rfl rfl ?_ rfl rfl rfl rfl rfl rfl rfl
  · simp only [outMsgs,hacks,List.filterMap_append,List.map_cons,List.append_assoc]
    rfl
  · rw [List.filterMap_append,show [Wc.send wr.msg].filterMap Wc.recv? = [] from rfl,List.append_nil]
    exact inv.receives

/-- The peer delivers a message. -/
theorem HostInv.noticed (inv : HostInv p peer t h sent) (wr : SendWr)
    (hrq : wr.imm = true → 0 < h.rq) : HostInv p peer t (noticed h wr) sent := by
  rw [RsocketPeers.noticed]
  by_cases himm : wr.imm = true
  · have := hrq himm
    have hrecv := inv.receives
    rw [if_pos himm]
    refine inv.congr rfl rfl ?_ rfl rfl rfl ?_ rfl rfl rfl rfl rfl rfl rfl
    · simp [outMsgs,Wc.send?]
    · rw [List.filterMap_append,List.length_append]
      show h.rq-1+(_+1) ≤ _
      omega
  · rw [if_neg himm]
    exact inv

theorem outMsgs_poll_send {msg : ℕ} {rest : List Wc} (hcq : h.cq = .send msg::rest) (rs : RSocket) :
    outMsgs h = msg::outMsgs {h with rs := rs,cq := rest} := by
  simp only [outMsgs,hcq,List.filterMap_cons,Wc.send?,List.cons_append]

/-- The completion of a request gives back its entry and its bytes. -/
theorem HostInv.polled_send (inv : HostInv p peer t h sent) {msg : ℕ} {rest : List Wc}
    (hcq : h.cq = .send msg::rest) :
    HostInv p peer t {h with rs := (rsHandle p h.rs (.send msg)).1,cq := rest} sent := by
  have hout := outMsgs_poll_send hcq (rsHandle p h.rs (.send msg)).1
  have hsize : rsQpCtrlSize = 4 := rfl
  set h' := {h with rs := (rsHandle p h.rs (.send msg)).1,cq := rest} with hh'
  have hrecv : h.rq+(rest.filterMap Wc.recv?).length ≤ p.rqSize := by
    have := inv.receives
    rw [hcq] at this
    exact this
  have hctrlOut : ctrlOut h = ctrlOut h'+if isCtrl msg then 1 else 0 := by
    rw [ctrlOut,hout,List.countP_cons,ctrlOut]
  have hentries : entriesOut h = entriesOut h'+if !isCtrl msg then 1 else 0 := by
    rw [entriesOut,hout,List.countP_cons,entriesOut]
  have hringOut : ringOut h = ringLen msg+ringOut h' := by
    rw [ringOut,hout,List.map_cons,List.sum_cons,ringOut]
  have hheld : Holds p.sbufSize p.sbuf h'.sbufMem t.ring (t.ring.length-ringOut h') t.ring.length :=
    inv.held.mono (by omega) le_rfl
  have hmax := inv.ctrlMax
  have hle := inv.ctrl_le
  have hent := inv.entries
  have hentle := inv.entries_le
  have hbytes := inv.bytes
  have hbytesle := inv.bytes_le
  cases hkind : isCtrl msg with
  | true =>
    have hlen : ringLen msg = 0 := ringLen_ctrl hkind
    rw [hkind] at hctrlOut hentries
    simp only [if_true,Bool.not_true,Bool.false_eq_true,if_false] at hctrlOut hentries
    have hrs : h'.rs.ctrlMaxSeqno = (h.rs.ctrlMaxSeqno+1)%2^32 ∧ h'.rs.ctrlSeqno = h.rs.ctrlSeqno ∧
        h'.rs.sqeAvail = h.rs.sqeAvail ∧ h'.rs.sbufBytesAvail = h.rs.sbufBytesAvail ∧
        h'.rs.ssglAddr = h.rs.ssglAddr ∧ h'.rs.swapSgl = h.rs.swapSgl ∧
        h'.rs.remoteSglLength = h.rs.remoteSglLength := by
      rw [hh']
      by_cases hsgl : rsMsgOp msg = rsOpSgl
      · simp [rsHandle,hsgl]
      · have hop : rsMsgOp msg = rsOpCtrl := by simpa [isCtrl,hsgl] using hkind
        simp [rsHandle,hop,rsOpCtrl,rsOpSgl]
    obtain ⟨hm,hno,hsqe,hav,haddr,hswap,hsgl⟩ := hrs
    refine ⟨inv.laid,inv.placed,inv.placed_le,hno.trans inv.ctrlNo,?_,by omega,?_,?_,?_,?_,hheld,
      haddr.trans inv.addr,hswap.trans inv.swap,hsgl.trans inv.sglLength,hrecv,inv.accepted⟩
    · rw [hm,hmax,Nat.mod_add_mod]
      congr 1
      omega
    · rw [hsqe]
      omega
    · rw [hsqe]
      exact hentle
    · rw [hav]
      omega
    · rw [hav]
      exact hbytesle
  | false =>
    rw [hkind] at hctrlOut hentries
    simp only [if_true,Bool.not_false,Bool.false_eq_true,if_false] at hctrlOut hentries
    have hrs : h'.rs.ctrlMaxSeqno = h.rs.ctrlMaxSeqno ∧ h'.rs.ctrlSeqno = h.rs.ctrlSeqno ∧
        h'.rs.sqeAvail = h.rs.sqeAvail+1 ∧
        h'.rs.sbufBytesAvail = h.rs.sbufBytesAvail+ringLen msg ∧
        h'.rs.ssglAddr = h.rs.ssglAddr ∧ h'.rs.swapSgl = h.rs.swapSgl ∧
        h'.rs.remoteSglLength = h.rs.remoteSglLength := by
      rw [hh']
      obtain ⟨hsgl,hctrl⟩ : rsMsgOp msg ≠ rsOpSgl ∧ rsMsgOp msg ≠ rsOpCtrl := by
        simpa [isCtrl] using hkind
      by_cases hiomap : rsMsgOp msg = rsOpIomapSgl
      · simp only [rsHandle,ringLen,hkind,if_neg hsgl,if_neg hctrl,if_pos hiomap,Bool.false_eq_true,
          if_false,and_self]
      · simp only [rsHandle,ringLen,hkind,if_neg hsgl,if_neg hctrl,if_neg hiomap,Bool.false_eq_true,
          if_false,and_self]
    obtain ⟨hm,hno,hsqe,hav,haddr,hswap,hsgl⟩ := hrs
    refine ⟨inv.laid,inv.placed,inv.placed_le,hno.trans inv.ctrlNo,?_,by omega,?_,?_,?_,?_,hheld,
      haddr.trans inv.addr,hswap.trans inv.swap,hsgl.trans inv.sglLength,hrecv,inv.accepted⟩
    · rw [hm,hmax]
      congr 1
      omega
    · rw [hsqe]
      omega
    · rw [hsqe]
      omega
    · rw [hav]
      omega
    · rw [hav]
      omega

end FreeFlow.RsocketQueues
