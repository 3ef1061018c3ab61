import FreeFlow.CreditWindow
import FreeFlow.DoubleBuffer
import FreeFlow.RingQueue
import FreeFlow.RsocketQueues

/-!
# One direction of a connection

What holds between the sender `a` and the receiver `b` of a stream. The messages
on their way from `a` to `b` are one list, whichever of the two queues they are
in. Three groups of facts do not depend on each other's fields: the counting of
messages, the granting of halves and the bytes that have arrived.
-/

set_option autoImplicit false

namespace FreeFlow.RsocketStream

open ByteMemory (Memory)
open ByteOrder CircularStream LaidOut Rsocket RsocketPeers RsocketQueues

/-! ## Messages on their way -/

def recvMsgs (h : Host) : List ℕ := h.cq.filterMap Wc.recv?

def sendMsgs (h : Host) : List ℕ := h.sq.filterMap fun wr => if wr.imm then some wr.msg else none

/-- From `a` to `b`. -/
def wire (a b : Host) : List ℕ := recvMsgs b++sendMsgs a

def credits (msgs : List ℕ) : List ℕ :=
  (msgs.filter fun msg => rsMsgOp msg = rsOpSgl).map rsMsgData

def datas (msgs : List ℕ) : List ℕ := (msgs.filter isData).map rsMsgData

@[simp] theorem credits_append (xs ys : List ℕ) : credits (xs++ys) = credits xs++credits ys := by
  simp [credits]

@[simp] theorem datas_append (xs ys : List ℕ) : datas (xs++ys) = datas xs++datas ys := by
  simp [datas]

theorem credits_cons (msg : ℕ) (msgs : List ℕ) : credits (msg::msgs) =
    if rsMsgOp msg = rsOpSgl then rsMsgData msg::credits msgs else credits msgs := by
  by_cases h : rsMsgOp msg = rsOpSgl <;> simp [credits,h]

theorem datas_cons (msg : ℕ) (msgs : List ℕ) : datas (msg::msgs) =
    if isData msg then rsMsgData msg::datas msgs else datas msgs := by
  cases h : isData msg <;> simp [datas,h]

theorem credits_set (op n : ℕ) (hn : n < 2^29) :
    credits [rsMsgSet op n] = if op = rsOpSgl then [n] else [] := by
  rw [credits_cons,rsMsgOp_set op n hn,rsMsgData_set op n hn]
  rfl

theorem datas_set (op n : ℕ) (hn : n < 2^29) :
    datas [rsMsgSet op n] = if isData (rsMsgSet op n) then [n] else [] := by
  rw [datas_cons,rsMsgData_set op n hn]
  rfl

theorem sendMsgs_post (h : Host) (rs : RSocket) (mem : Memory) (ctrlMem : ℕ → Sge) (wr : SendWr) :
    sendMsgs {h with rs := rs,sbufMem := mem,ctrlMem := ctrlMem,sq := h.sq++[wr]} =
      sendMsgs h++if wr.imm then [wr.msg] else [] := by
  rw [sendMsgs,sendMsgs,List.filterMap_append]
  cases himm : wr.imm <;> simp [himm]

/-- The bytes of the stream that are queued are those of the data messages in the queue. -/
theorem streamLen_sum (sq : List SendWr) {p peer : Endpoint} {ring sent : List Byte}
    {ctrlMem : ℕ → Sge} {b e : Pos} (h : Laid next (Posted p peer ring sent ctrlMem) b sq e) :
    ((sq.map SendWr.msg).map streamLen).sum =
      (datas (sq.filterMap fun wr => if wr.imm then some wr.msg else none)).sum := by
  induction h with
  | nil b => rfl
  | cons hx hxs ih =>
    rw [List.map_cons,List.map_cons,List.sum_cons,ih]
    cases hx with
    | data n hpos hn hhalf hbuf hbytes =>
      have hkind := isData_set rsOpData n (data_lt hn)
      simp only [List.filterMap_cons,if_true,datas_cons,hkind,streamLen_data (data_lt hn)]
      rw [if_pos (by decide),List.sum_cons,rsMsgData_set _ _ (data_lt hn)]
    | iomap index hindex sgl =>
      have hkind : isData (rsMsgSet rsOpIomapSgl index) = false := by
        rw [isData_set _ _ (index_lt hindex)]
        rfl
      simp [datas_cons,hkind,streamLen_other hkind]
    | write n addr key hn hkey sgl =>
      have hkind : isData (rsMsgSet rsOpWrite n) = false := by
        rw [isData_set _ _ (data_lt hn)]
        rfl
      simp [streamLen_other hkind]
    | grant c hc hsge =>
      have hkind : isData (rsMsgSet rsOpSgl c) = false := by
        rw [isData_set _ _ hc]
        rfl
      simp [datas_cons,hkind,streamLen_other hkind]
    | credit c hc =>
      have hkind : isData (rsMsgSet rsOpSgl c) = false := by
        rw [isData_set _ _ hc]
        rfl
      simp [datas_cons,hkind,streamLen_other hkind]
    | ctrl c hc imm =>
      have hkind : isData (rsMsgSet rsOpCtrl c) = false := by
        rw [isData_set _ _ hc]
        rfl
      cases imm <;> simp [datas_cons,hkind,streamLen_other hkind]

/-! ## The three groups -/

/-- Both counters of messages without their bounds, the halves the sender has got and spent, and
the messages in the ring of the receiver. -/
structure Flow where
  window : CreditWindow.State
  arrived : ℕ
  spent : ℕ
  queued : List ℕ

def Flow.buffer (f : Flow) (grants : ℕ) (sent got : List Byte) : DoubleBuffer.State :=
  ⟨grants,f.arrived,f.spent,sent.length,got.length⟩

/-- The ring of messages; its producer is `rmsg_tail`. -/
def msgRing (rs : RSocket) : RingQueue.Queue RsMsg := ⟨rs.rmsg,rs.rmsgTail,rs.rmsgHead⟩

structure Counting (pb : Endpoint) (f : Flow) (a b : Host) (sent got : List Byte) (iomaps : ℕ) :
    Prop where
  window : CreditWindow.Inv pb.rqSize f.window
  sseq : a.rs.sseqNo = f.window.sent%65536
  scomp : a.rs.sseqComp = f.window.credit%65536
  rseq : b.rs.rseqNo = f.window.read%65536
  rcomp : b.rs.rseqComp = (f.window.granted-pb.rqSize+pb.rqSize/2)%65536
  flight : List.Forall₂ (fun m c => m%65536 = c%65536) (credits (wire b a)) f.window.flight
  queue : RingQueue.Holds (fun (m : RsMsg) n => m.data = n) (pb.rqSize+1) (msgRing b.rs) f.queued
  count : f.window.read+f.queued.length+(datas (wire a b)).length+iomaps = f.window.sent
  bytes : got.length+f.queued.sum+(datas (wire a b)).sum = sent.length

/-- An entry of `target_sgl` for so many bytes at an offset of the receive buffer. -/
def Filled (pb : Endpoint) (sge : Sge) (off length : ℕ) : Prop :=
  sge.length = length ∧ (0 < length → sge.addr = pb.rbuf+off ∧ sge.key = pb.rkey)

/-- All of the first request is placed, and it grants a half. -/
def grantPlaced (h : Host) : Bool :=
  match h.sq with
  | wr::_ => isGrant wr && decide (h.placed = 3)
  | [] => false

structure Granting (pb : Endpoint) (tb : Track) (f : Flow) (a b : Host) (sent got : List Byte) :
    Prop where
  buffer : DoubleBuffer.Inv pb.half (f.buffer tb.grants sent got)
  avail : b.rs.rbufBytesAvail = (pb.rbufSize : ℤ)+got.length-(tb.grants*pb.half : ℕ)
  free : b.rs.rbufFreeOffset = tb.grants%2*pb.half
  remote : b.rs.remoteSge = tb.grants%2
  offset : b.rs.rbufOffset%pb.rbufSize = got.length%pb.rbufSize
  offset_le : b.rs.rbufOffset ≤ pb.rbufSize
  sge : a.rs.targetSge = f.spent%2
  current : Filled pb (a.rs.targetSgl (f.spent%2)) (sent.length%pb.rbufSize)
    (DoubleBuffer.left pb.half (f.buffer tb.grants sent got))
  following : Filled pb (a.rs.targetSgl ((f.spent+1)%2)) ((f.spent+1)%2*pb.half)
    (if f.spent+1 < f.arrived then pb.half else 0)
  arrived : f.arrived = tb.start.grants+if grantPlaced b then 1 else 0
  partly : ∀ wr rest, b.sq = wr::rest → isGrant wr = true →
    (1 ≤ b.placed → b.placed < 3 →
      (a.rs.targetSgl (tb.start.grants%2)).addr = pb.rbuf+tb.start.grants%2*pb.half) ∧
    (2 ≤ b.placed → b.placed < 3 → (a.rs.targetSgl (tb.start.grants%2)).key = pb.rkey)

/-- What is placed of the first request when it is one of the stream. -/
def placedData (h : Host) : ℕ :=
  match h.sq with
  | wr::_ => if isData wr.msg then h.placed else 0
  | [] => 0

structure Arriving (pb : Endpoint) (ta : Track) (a b : Host) (sent got : List Byte) : Prop where
  content : Holds pb.rbufSize pb.rbuf b.rbufMem sent got.length (ta.start.stream+placedData a)
  inside : b.stray = false
  initial : got <+: sent

structure Dir (pb : Endpoint) (ta tb : Track) (f : Flow) (a b : Host) (sent got : List Byte)
    (iomaps : ℕ) : Prop where
  counting : Counting pb f a b sent got iomaps
  granting : Granting pb tb f a b sent got
  arriving : Arriving pb ta a b sent got

variable {pa pb : Endpoint} {ta tb : Track} {f : Flow} {a b a' b' : Host} {sent got : List Byte}
  {iomaps : ℕ}

theorem Counting.congr (hc : Counting pb f a b sent got iomaps)
    (hsseq : a'.rs.sseqNo = a.rs.sseqNo) (hscomp : a'.rs.sseqComp = a.rs.sseqComp)
    (hrseq : b'.rs.rseqNo = b.rs.rseqNo) (hrcomp : b'.rs.rseqComp = b.rs.rseqComp)
    (hring : msgRing b'.rs = msgRing b.rs) (hcredits : credits (wire b' a') = credits (wire b a))
    (hdatas : datas (wire a' b') = datas (wire a b)) : Counting pb f a' b' sent got iomaps := by
  refine ⟨hc.window,hsseq.trans hc.sseq,hscomp.trans hc.scomp,hrseq.trans hc.rseq,
    hrcomp.trans hc.rcomp,?_,?_,?_,?_⟩
  · rw [hcredits]
    exact hc.flight
  · rw [hring]
    exact hc.queue
  · rw [hdatas]
    exact hc.count
  · rw [hdatas]
    exact hc.bytes

theorem Granting.congr (hg : Granting pb tb f a b sent got) {tb' : Track}
    (hgrants : tb'.grants = tb.grants) (hstart : tb'.start.grants = tb.start.grants)
    (havail : b'.rs.rbufBytesAvail = b.rs.rbufBytesAvail)
    (hfree : b'.rs.rbufFreeOffset = b.rs.rbufFreeOffset) (hremote : b'.rs.remoteSge = b.rs.remoteSge)
    (hoff : b'.rs.rbufOffset = b.rs.rbufOffset) (hsge : a'.rs.targetSge = a.rs.targetSge)
    (hsgl : a'.rs.targetSgl = a.rs.targetSgl) (hplaced : grantPlaced b' = grantPlaced b)
    (hpartly : ∀ wr rest, b'.sq = wr::rest → isGrant wr = true → 1 ≤ b'.placed →
      b'.placed = b.placed ∧ ∃ rest', b.sq = wr::rest') :
    Granting pb tb' f a' b' sent got := by
  refine ⟨by rw [hgrants]; exact hg.buffer,by rw [hgrants,havail]; exact hg.avail,
    by rw [hgrants,hfree]; exact hg.free,by rw [hgrants,hremote]; exact hg.remote,
    by rw [hoff]; exact hg.offset,by rw [hoff]; exact hg.offset_le,hsge.trans hg.sge,
    by rw [hgrants,hsgl]; exact hg.current,by rw [hsgl]; exact hg.following,
    by rw [hstart,hplaced]; exact hg.arrived,?_⟩
  intro wr rest hsq hgrant
  rw [hstart,hsgl]
  constructor
  · intro h1 h3
    obtain ⟨heq,rest',hsq'⟩ := hpartly wr rest hsq hgrant h1
    exact (hg.partly wr rest' hsq' hgrant).1 (heq ▸ h1) (heq ▸ h3)
  · intro h2 h3
    obtain ⟨heq,rest',hsq'⟩ := hpartly wr rest hsq hgrant (by omega)
    exact (hg.partly wr rest' hsq' hgrant).2 (heq ▸ h2) (heq ▸ h3)

/-- The window of messages is not that of bytes. -/
theorem Granting.congr_flow (hg : Granting pb tb f a b sent got) {f' : Flow}
    (harrived : f'.arrived = f.arrived) (hspent : f'.spent = f.spent) :
    Granting pb tb f' a b sent got := by
  cases f
  cases f'
  cases harrived
  cases hspent
  exact ⟨hg.buffer,hg.avail,hg.free,hg.remote,hg.offset,hg.offset_le,hg.sge,hg.current,hg.following,
    hg.arrived,hg.partly⟩

theorem Arriving.congr (hr : Arriving pb ta a b sent got) {ta' : Track}
    (hmem : b'.rbufMem = b.rbufMem) (hstray : b'.stray = b.stray)
    (hstart : ta'.start.stream = ta.start.stream) (hplaced : placedData a' = placedData a) :
    Arriving pb ta' a' b' sent got :=
  ⟨by rw [hmem,hstart,hplaced]; exact hr.content,hstray.trans hr.inside,hr.initial⟩

/-! ## Posting at the end of a queue -/

theorem placedData_post (hempty : a.sq = [] → a.placed = 0) (rs : RSocket) (mem : Memory)
    (ctrlMem : ℕ → Sge) (wr : SendWr) :
    placedData {a with rs := rs,sbufMem := mem,ctrlMem := ctrlMem,sq := a.sq++[wr]} = placedData a := by
  cases hsq : a.sq with
  | nil => simp [placedData,hsq,hempty hsq]
  | cons first rest => simp [placedData,hsq]

theorem grantPlaced_post (hempty : b.sq = [] → b.placed = 0) (rs : RSocket) (mem : Memory)
    (ctrlMem : ℕ → Sge) (wr : SendWr) :
    grantPlaced {b with rs := rs,sbufMem := mem,ctrlMem := ctrlMem,sq := b.sq++[wr]} =
      grantPlaced b := by
  cases hsq : b.sq with
  | nil => simp [grantPlaced,hsq,hempty hsq]
  | cons first rest => simp [grantPlaced,hsq]

/-- A host with a longer queue has the same first request, or has placed nothing. -/
theorem first_post (hempty : b.sq = [] → b.placed = 0) (wr : SendWr) (first : SendWr)
    (rest : List SendWr) (hsq : b.sq++[wr] = first::rest) (hplaced : 1 ≤ b.placed) :
    ∃ rest', b.sq = first::rest' := by
  cases hb : b.sq with
  | nil =>
    have := hempty hb
    omega
  | cons first' rest' =>
    rw [hb,List.cons_append] at hsq
    exact ⟨rest',by rw [(List.cons.inj hsq).1]⟩

end FreeFlow.RsocketStream
