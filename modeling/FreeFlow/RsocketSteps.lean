import FreeFlow.RsocketStream
import Mathlib.Data.List.Forall2

/-!
# Steps of one end

Each call of a process and each move of its adapter, from one end of a
connection. What it does to the direction in which this end sends and to the
one in which it receives is said separately; most steps leave one of the two
as it is.
-/

set_option autoImplicit false

namespace FreeFlow.RsocketSteps

open ByteMemory (Memory)
open ByteOrder CircularStream LaidOut Rsocket RsocketPeers RsocketQueues RsocketStream

structure End where
  host : Host
  sent : List Byte
  got : List Byte
  iomaps : ℕ

/-- What holds of two connected ends. -/
structure Linked (pa pb : Endpoint) (ta tb : Track) (f g : Flow) (A B : End) : Prop where
  host : HostInv pa pb ta A.host A.sent
  peer : HostInv pb pa tb B.host B.sent
  there : Dir pb ta tb f A.host B.host A.sent B.got A.iomaps
  back : Dir pa tb ta g B.host A.host B.sent A.got B.iomaps

variable {pa pb : Endpoint} {ta tb : Track} {f g : Flow} {a b : Host} {A B : End}
  {sent got : List Byte} {iomaps : ℕ}

theorem Linked.symm (h : Linked pa pb ta tb f g A B) : Linked pb pa tb ta g f B A :=
  ⟨h.peer,h.host,h.back,h.there⟩

/-! ## Posting a request -/

/-- A host after it has posted a request. -/
def posted (h : Host) (rs : RSocket) (mem : Memory) (ctrlMem : ℕ → Sge) (wr : SendWr) : Host :=
  {h with rs := rs,sbufMem := mem,ctrlMem := ctrlMem,sq := h.sq++[wr]}

theorem wire_posted (rs : RSocket) (mem : Memory) (ctrlMem : ℕ → Sge) (wr : SendWr) :
    wire (posted a rs mem ctrlMem wr) b = wire a b++if wr.imm then [wr.msg] else [] := by
  rw [wire,wire,posted,sendMsgs_post,List.append_assoc]

variable {rs : RSocket} {mem : Memory} {ctrlMem : ℕ → Sge} {wr : SendWr}

theorem datas_posted (hdata : isData wr.msg = false) :
    datas (wire (posted a rs mem ctrlMem wr) b) = datas (wire a b) := by
  rw [wire_posted,datas_append]
  cases wr.imm <;> simp [datas,hdata]

theorem credits_posted (hsgl : rsMsgOp wr.msg ≠ rsOpSgl) :
    credits (wire (posted a rs mem ctrlMem wr) b) = credits (wire a b) := by
  rw [wire_posted,credits_append]
  cases wr.imm <;> simp [credits,hsgl]

theorem Granting.posted_there (hg : Granting pb tb f a b sent got)
    (hsge : rs.targetSge = a.rs.targetSge) (hsgl : rs.targetSgl = a.rs.targetSgl) :
    Granting pb tb f (posted a rs mem ctrlMem wr) b sent got :=
  hg.congr rfl rfl rfl rfl rfl rfl hsge hsgl rfl fun _ rest hsq _ _ => ⟨rfl,rest,hsq⟩

theorem Granting.posted_back (hg : Granting pb tb f a b sent got) (hempty : b.sq = [] → b.placed = 0)
    {tb' : Track} (hgrants : tb'.grants = tb.grants) (hstart : tb'.start = tb.start)
    (havail : rs.rbufBytesAvail = b.rs.rbufBytesAvail)
    (hfree : rs.rbufFreeOffset = b.rs.rbufFreeOffset) (hremote : rs.remoteSge = b.rs.remoteSge)
    (hoff : rs.rbufOffset = b.rs.rbufOffset) :
    Granting pb tb' f a (posted b rs mem ctrlMem wr) sent got :=
  hg.congr hgrants (congrArg Pos.grants hstart) havail hfree hremote hoff rfl rfl
    (grantPlaced_post hempty rs mem ctrlMem wr) fun first rest hsq _ hplaced =>
      ⟨rfl,first_post hempty wr first rest hsq hplaced⟩

theorem Arriving.posted_there (hr : Arriving pb ta a b sent got) (hempty : a.sq = [] → a.placed = 0)
    {ta' : Track} (hstart : ta'.start = ta.start) :
    Arriving pb ta' (posted a rs mem ctrlMem wr) b sent got :=
  hr.congr rfl rfl (congrArg Pos.stream hstart) (placedData_post hempty rs mem ctrlMem wr)

theorem Arriving.posted_back (hr : Arriving pb ta a b sent got) :
    Arriving pb ta a (posted b rs mem ctrlMem wr) sent got :=
  hr.congr rfl rfl rfl rfl

/-- What is not data does not concern the stream that is sent. -/
theorem Dir.posted_there (hd : Dir pb ta tb f a b sent got iomaps)
    (hempty : a.sq = [] → a.placed = 0) {ta' : Track} (hstart : ta'.start = ta.start)
    (hdata : isData wr.msg = false) (hsseq : rs.sseqNo = a.rs.sseqNo)
    (hscomp : rs.sseqComp = a.rs.sseqComp) (hsge : rs.targetSge = a.rs.targetSge)
    (hsgl : rs.targetSgl = a.rs.targetSgl) :
    Dir pb ta' tb f (posted a rs mem ctrlMem wr) b sent got iomaps :=
  ⟨hd.counting.congr hsseq hscomp rfl rfl rfl rfl (datas_posted hdata),
    Granting.posted_there hd.granting hsge hsgl,Arriving.posted_there hd.arriving hempty hstart⟩

/-- What announces no credits does not concern the stream that is received. -/
theorem Dir.posted_back (hd : Dir pb ta tb f a b sent got iomaps)
    (hempty : b.sq = [] → b.placed = 0) {tb' : Track} (hgrants : tb'.grants = tb.grants)
    (hstart : tb'.start = tb.start) (hop : rsMsgOp wr.msg ≠ rsOpSgl)
    (hrseq : rs.rseqNo = b.rs.rseqNo) (hrcomp : rs.rseqComp = b.rs.rseqComp)
    (hring : msgRing rs = msgRing b.rs) (havail : rs.rbufBytesAvail = b.rs.rbufBytesAvail)
    (hfree : rs.rbufFreeOffset = b.rs.rbufFreeOffset) (hremote : rs.remoteSge = b.rs.remoteSge)
    (hoff : rs.rbufOffset = b.rs.rbufOffset) :
    Dir pb ta tb' f a (posted b rs mem ctrlMem wr) sent got iomaps :=
  ⟨hd.counting.congr rfl rfl hrseq hrcomp hring (credits_posted hop) rfl,
    Granting.posted_back hd.granting hempty hgrants hstart havail hfree hremote hoff,
    Arriving.posted_back hd.arriving⟩

/-! ## Sending -/

theorem ibvPostSend_of_lt {p : Endpoint} {h : Host} (hlt : (outMsgs h).length < p.sqSize)
    (wr : SendWr) : ibvPostSend p h wr = {h with sq := h.sq++[wr]} := if_pos hlt

theorem xferSize_spec (rs : RSocket) {left olen : ℕ} (hcan : rsCanSend rs) (hleft : 0 < left)
    (hpos : 0 < olen) (hmax : olen ≤ rsMaxTransfer) :
    0 < xferSize rs left olen ∧ xferSize rs left olen ≤ left ∧
      xferSize rs left olen ≤ rsMaxTransfer ∧ (xferSize rs left olen : ℤ) ≤ rs.sbufBytesAvail ∧
      xferSize rs left olen ≤ (rs.targetSgl rs.targetSge).length := by
  obtain ⟨-,hlow,-,htarget⟩ := hcan
  have hsnd : rsSndlowat = 2048 := rfl
  rw [xferSize,olapSize]
  dsimp only
  split_ifs <;> omega

/-- The socket after `rs_write_data` and the step of `ssgl`. -/
def wroteData (p : Endpoint) (rs : RSocket) (n : ℕ) : RSocket :=
  let target := rs.targetSgl rs.targetSge
  {rs with
    sseqNo := (rs.sseqNo+1)%65536
    sqeAvail := rs.sqeAvail-1
    sbufBytesAvail := rs.sbufBytesAvail-n
    targetSgl := Function.update rs.targetSgl rs.targetSge
      {target with addr := target.addr+n,length := target.length-n}
    targetSge := if target.length-n = 0 then
      if rs.targetSge+1 = rsSglSize then 0 else rs.targetSge+1 else rs.targetSge
    ssglAddr := ssglAfter p rs n}

theorem rsendBody_eq (hfree : (outMsgs a).length < pa.sqSize) (buf : List Byte) (olen : ℕ) :
    rsendBody pa a buf olen =
      posted a (wroteData pa a.rs (xferSize a.rs buf.length olen))
        (sbufCopy pa a (buf.take (xferSize a.rs buf.length olen))).1 a.ctrlMem
        ⟨rsMsgSet rsOpData (xferSize a.rs buf.length olen),true,
          .bytes (sbufCopy pa a (buf.take (xferSize a.rs buf.length olen))).2,
          .region (a.rs.targetSgl a.rs.targetSge).addr (a.rs.targetSgl a.rs.targetSge).key⟩ := by
  rw [rsendBody,rsWriteData,rsPostWriteMsg,ibvPostSend_of_lt]
  · rfl
  · exact hfree

/-- The counters after a message of the stream with `n` bytes. -/
def Flow.wrote (f : Flow) (half n : ℕ) (s : DoubleBuffer.State) : Flow :=
  {f with window := CreditWindow.send f.window,spent := (DoubleBuffer.write half n s).spent}

theorem succ_mod_two_ne (n : ℕ) : (n+1)%2 ≠ n%2 := by omega

/-- Bytes are sent into the half that is being filled. A half that is being placed meanwhile has
the other slot. -/
theorem Granting.wrote (hg : Granting pb tb f a b sent got) (hp : Sound pb)
    (hplacing : ∀ wr rest, b.sq = wr::rest → isGrant wr = true → tb.start.grants < tb.grants)
    (bytes : List Byte) (hne : (a.rs.targetSgl a.rs.targetSge).length ≠ 0)
    (hle : bytes.length ≤ (a.rs.targetSgl a.rs.targetSge).length) :
    Granting pb tb (Flow.wrote f pb.half bytes.length (f.buffer tb.grants sent got))
      (posted a (wroteData pa a.rs bytes.length) mem ctrlMem wr) b (sent++bytes) got := by
  have hsize := hp.size_eq
  have hsgl : rsSglSize = 2 := rfl
  have hbuf := hg.buffer
  have hlen : (a.rs.targetSgl a.rs.targetSge).length =
      DoubleBuffer.left pb.half (f.buffer tb.grants sent got) := by
    rw [hg.sge]
    exact hg.current.1
  have hpos : 0 < DoubleBuffer.left pb.half (f.buffer tb.grants sent got) := by omega
  have harrived : f.spent < f.arrived := DoubleBuffer.Inv.lt_arrived hpos
  have hleft : DoubleBuffer.left pb.half (f.buffer tb.grants sent got) =
      (f.spent+1)*pb.half-sent.length := if_pos harrived
  have hgrants : tb.grants ≤ f.spent+2 := hbuf.grants_le
  have hgranted : f.arrived ≤ tb.grants := hbuf.arrived_le
  obtain ⟨haddr,hkey⟩ := hg.current.2 hpos
  have hwrite := hbuf.write hpos (hlen ▸ hle)
  have hstate : (Flow.wrote f pb.half bytes.length (f.buffer tb.grants sent got)).buffer tb.grants
      (sent++bytes) got = DoubleBuffer.write pb.half bytes.length (f.buffer tb.grants sent got) := by
    rw [Flow.buffer,List.length_append]
    rfl
  have hother : (posted a (wroteData pa a.rs bytes.length) mem ctrlMem wr).rs.targetSgl
      ((f.spent+1)%2) = a.rs.targetSgl ((f.spent+1)%2) :=
    Function.update_of_ne (by rw [hg.sge]; exact succ_mod_two_ne f.spent) _ _
  have hslot : (posted a (wroteData pa a.rs bytes.length) mem ctrlMem wr).rs.targetSgl (f.spent%2) =
      ⟨(a.rs.targetSgl (f.spent%2)).addr+bytes.length,(a.rs.targetSgl (f.spent%2)).key,
        (a.rs.targetSgl (f.spent%2)).length-bytes.length⟩ := by
    show Function.update _ _ _ _ = _
    rw [hg.sge,Function.update_self]
  have hpartly : ∀ wr rest, b.sq = wr::rest → isGrant wr = true → 1 ≤ b.placed → b.placed < 3 →
      tb.start.grants%2 = (f.spent+1)%2 := by
    intro first rest hsq hgrant h1 h3
    have hlt := hplacing first rest hsq hgrant
    have harr := hg.arrived
    rw [show grantPlaced b = false by simp [grantPlaced,hsq]; omega] at harr
    simp only [Bool.false_eq_true,if_false] at harr
    omega
  have hspent : (Flow.wrote f pb.half bytes.length (f.buffer tb.grants sent got)).spent =
      if DoubleBuffer.left pb.half (f.buffer tb.grants sent got)-bytes.length = 0 then f.spent+1
      else f.spent := rfl
  have hsge : (posted a (wroteData pa a.rs bytes.length) mem ctrlMem wr).rs.targetSge =
      if DoubleBuffer.left pb.half (f.buffer tb.grants sent got)-bytes.length = 0 then
        if f.spent%2+1 = 2 then 0 else f.spent%2+1 else f.spent%2 := by
    show (if (a.rs.targetSgl a.rs.targetSge).length-bytes.length = 0 then
      if a.rs.targetSge+1 = rsSglSize then 0 else a.rs.targetSge+1 else a.rs.targetSge) = _
    rw [hlen,hg.sge]
    rfl
  refine ⟨by rw [hstate]; exact hwrite,hg.avail,hg.free,hg.remote,hg.offset,hg.offset_le,?_,?_,?_,
    hg.arrived,?_⟩
  · rw [hsge,hspent]
    split_ifs <;> omega
  · rw [hstate,hspent]
    by_cases hfull : DoubleBuffer.left pb.half (f.buffer tb.grants sent got)-bytes.length = 0
    · -- the half is full, and the next byte is the first of the other one
      have hend : (sent++bytes).length = (f.spent+1)*pb.half := by
        rw [List.length_append]
        omega
      have hnext : DoubleBuffer.left pb.half
          (DoubleBuffer.write pb.half bytes.length (f.buffer tb.grants sent got)) =
          if f.spent+1 < f.arrived then pb.half else 0 := by
        have hsucc : (f.spent+1+1)*pb.half = (f.spent+1)*pb.half+pb.half := Nat.succ_mul _ _
        have hlast : (DoubleBuffer.write pb.half bytes.length (f.buffer tb.grants sent got)).spent =
            f.spent+1 := hspent.trans (if_pos hfull)
        rw [List.length_append] at hend
        rw [DoubleBuffer.left,hlast]
        show (if f.spent+1 < f.arrived then (f.spent+1+1)*pb.half-(sent.length+bytes.length) else 0) = _
        rw [hend,hsucc,Nat.add_sub_cancel_left]
      rw [if_pos hfull,hother,hend,hsize,DoubleBuffer.half_offset,hnext]
      exact hg.following
    · rw [if_neg hfull,hslot]
      have hlt : bytes.length < DoubleBuffer.left pb.half (f.buffer tb.grants sent got) := by omega
      have hoff := hbuf.offset_add hlt
      refine ⟨?_,fun _ => ⟨?_,hkey⟩⟩
      · have hlast : (DoubleBuffer.write pb.half bytes.length (f.buffer tb.grants sent got)).spent =
            f.spent := hspent.trans (if_neg hfull)
        rw [DoubleBuffer.left,hlast]
        show (a.rs.targetSgl (f.spent%2)).length-bytes.length =
          if f.spent < f.arrived then (f.spent+1)*pb.half-(sent.length+bytes.length) else 0
        rw [← hg.sge,hlen,if_pos harrived]
        omega
      · show (a.rs.targetSgl (f.spent%2)).addr+bytes.length = _
        rw [haddr,List.length_append,hsize,Nat.add_assoc]
        exact congrArg _ hoff.symm
  · rw [hspent]
    by_cases hfull : DoubleBuffer.left pb.half (f.buffer tb.grants sent got)-bytes.length = 0
    · have hsame : (f.spent+1+1)%2 = f.spent%2 := by omega
      have hlength : (a.rs.targetSgl (f.spent%2)).length-bytes.length = 0 := by
        rw [← hg.sge,hlen]
        exact hfull
      have hnone : ¬f.spent+1+1 < (Flow.wrote f pb.half bytes.length
          (f.buffer tb.grants sent got)).arrived := fun h => absurd (le_trans h hgranted) (by omega)
      rw [if_pos hfull,if_neg hnone,hsame,hslot]
      exact ⟨hlength,fun h => absurd h (by omega)⟩
    · rw [if_neg hfull,hother]
      exact hg.following
  · intro first rest hsq hgrant
    have hold := hg.partly first rest hsq hgrant
    refine ⟨fun h1 h3 => ?_,fun h2 h3 => ?_⟩
    · have hslot' := hpartly first rest hsq hgrant h1 h3
      rw [hslot',hother,← hslot']
      exact hold.1 h1 h3
    · have hslot' := hpartly first rest hsq hgrant (by omega) h3
      rw [hslot',hother,← hslot']
      exact hold.2 h2 h3

theorem HostInv.placed_stream (inv : HostInv pa pb ta a sent) :
    ta.start.stream+placedData a ≤ sent.length := by
  have hstream := inv.stream_start
  have hlaid := inv.laid
  cases hsq : a.sq with
  | nil =>
    rw [placedData,hsq]
    dsimp only
    omega
  | cons first rest =>
    rw [hsq,laid_cons] at hlaid
    have hle := inv.placed_le first rest hsq
    rw [hsq,List.map_cons,List.map_cons,List.sum_cons] at hstream
    rw [placedData,hsq]
    cases hkind : isData first.msg with
    | false =>
      simp only [hkind,Bool.false_eq_true,if_false]
      omega
    | true =>
      have hlen : units first = streamLen first.msg := hlaid.1.units_eq hkind
      simp only [hkind,if_true]
      omega

theorem Counting.wrote (hc : Counting pb f a b sent got iomaps) (bytes : List Byte)
    (hmax : bytes.length ≤ rsMaxTransfer) (hcan : a.rs.sseqNo ≠ a.rs.sseqComp)
    (hwr : wr.imm = true) (hmsg : wr.msg = rsMsgSet rsOpData bytes.length) (s : DoubleBuffer.State) :
    Counting pb (Flow.wrote f pb.half bytes.length s)
      (posted a (wroteData pa a.rs bytes.length) mem ctrlMem wr) b (sent++bytes) got iomaps := by
  have hlt : f.window.sent < f.window.credit := by
    refine lt_of_le_of_ne hc.window.sent_le fun heq => hcan ?_
    rw [hc.sseq,hc.scomp,heq]
  have hdatas : datas (wire (posted a (wroteData pa a.rs bytes.length) mem ctrlMem wr) b) =
      datas (wire a b)++[bytes.length] := by
    rw [wire_posted,datas_append,if_pos hwr,hmsg,datas_set _ _ (data_lt hmax),
      isData_set _ _ (data_lt hmax)]
    rfl
  have hcount := hc.count
  have hbytes := hc.bytes
  refine ⟨hc.window.send hlt,?_,hc.scomp,hc.rseq,hc.rcomp,hc.flight,hc.queue,?_,?_⟩
  · show (a.rs.sseqNo+1)%65536 = (f.window.sent+1)%65536
    rw [hc.sseq,Nat.mod_add_mod]
  · rw [hdatas,List.length_append,List.length_singleton]
    show f.window.read+f.queued.length+_+iomaps = f.window.sent+1
    omega
  · rw [hdatas,List.sum_append,List.sum_singleton,List.length_append]
    show got.length+f.queued.sum+_ = _
    omega

/-- The loop body of `rsend`. -/
theorem Linked.send (h : Linked pa pb ta tb f g A B) (hpa : Sound pa) (hpb : Sound pb)
    {buf : List Byte} {olen : ℕ} (hbuf : buf ≠ []) (hpos : 0 < olen) (hmax : olen ≤ rsMaxTransfer)
    (hcan : rsCanSend A.host.rs) :
    ∃ ta' f', Linked pa pb ta' tb f' g
      {A with host := rsendBody pa A.host buf olen,
              sent := A.sent++buf.take (xferSize A.host.rs buf.length olen)} B := by
  obtain ⟨hxpos,hxbuf,hxmax,hxavail,hxtarget⟩ :=
    xferSize_spec A.host.rs hcan (List.length_pos_of_ne_nil hbuf) hpos hmax
  rw [rsendBody_eq (h.host.free_entry hcan.1)]
  generalize xferSize A.host.rs buf.length olen = n at hxpos hxbuf hxmax hxavail hxtarget
  have hlen : (buf.take n).length = n := by
    rw [List.length_take]
    omega
  generalize buf.take n = bytes at hlen
  subst hlen
  have hsbuf : 0 < pa.sbufSize := lt_of_lt_of_le (by decide) hpa.sbuf_ge
  have hg := h.there.granting
  have hleft : (A.host.rs.targetSgl A.host.rs.targetSge).length =
      DoubleBuffer.left pb.half (f.buffer tb.grants A.sent B.got) := by
    rw [hg.sge]
    exact hg.current.1
  have hleftpos : 0 < DoubleBuffer.left pb.half (f.buffer tb.grants A.sent B.got) := by omega
  obtain ⟨haddr,hkey⟩ := hg.current.2 hleftpos
  have hhalf := hg.buffer.mod_add_left hleftpos
  rw [hg.sge,haddr,hkey,h.host.pieces_eq]
  have hbytes := h.host.bytes
  refine ⟨_,Flow.wrote f pb.half bytes.length (f.buffer tb.grants A.sent B.got),
    h.host.postRing hsbuf bytes bytes _ (wroteData pa A.host.rs bytes.length) hxavail hcan.1
    ?_ ?_ ?_ rfl ?_ rfl rfl rfl rfl rfl rfl rfl,h.peer,⟨?_,?_,?_⟩,?_⟩
  · rw [isCtrl_set _ _ (data_lt hxmax)]
    rfl
  · exact ringLen_data (data_lt hxmax)
  · exact streamLen_data (data_lt hxmax)
  · refine .data bytes.length hxpos hxmax ?_ (by omega) fun i hi => ?_
    · show A.sent.length%pb.half+bytes.length ≤ pb.half
      change A.sent.length%pb.half+_ = _ at hhalf
      omega
    · refine ⟨bytes[i],?_,?_⟩
      · show (ta.ring++bytes)[ta.ring.length+i]? = _
        rw [List.getElem?_append_right (Nat.le_add_right _ _),Nat.add_sub_cancel_left]
        exact List.getElem?_eq_getElem hi
      · show (A.sent++bytes)[A.sent.length+i]? = _
        rw [List.getElem?_append_right (Nat.le_add_right _ _),Nat.add_sub_cancel_left]
        exact List.getElem?_eq_getElem hi
  · exact Counting.wrote h.there.counting bytes hxmax hcan.2.2.1 rfl rfl _
  · exact Granting.wrote hg hpb (fun _ _ hsq => h.peer.grants_lt hsq) bytes hcan.2.2.2 hxtarget
  · have hr := h.there.arriving
    exact Arriving.posted_there ⟨hr.content.append bytes (HostInv.placed_stream h.host),hr.inside,
      hr.initial.trans (List.prefix_append _ _)⟩ h.host.placed rfl
  · refine Dir.posted_back h.back h.host.placed rfl rfl ?_ rfl rfl rfl rfl rfl rfl rfl
    rw [rsMsgOp_set _ _ (data_lt hxmax)]
    decide

/-- The socket after a copy that is not part of the stream. -/
def copiedOut (p : Endpoint) (rs : RSocket) (sseqNo n : ℕ) : RSocket :=
  {rs with
    sseqNo := sseqNo
    sqeAvail := rs.sqeAvail-1
    sbufBytesAvail := rs.sbufBytesAvail-n
    ssglAddr := ssglAfter p rs n}

theorem rsSendIomap_eq (hfree : (outMsgs a).length < pa.sqSize) (index : ℕ) (record : List Byte) :
    rsSendIomap pa a index record =
      posted a (copiedOut pa a.rs ((a.rs.sseqNo+1)%65536) sizeofIomap) (sbufCopy pa a record).1
        a.ctrlMem ⟨rsMsgSet rsOpIomapSgl index,true,.bytes (sbufCopy pa a record).2,
          .targetIomap index⟩ := by
  rw [rsSendIomap,rsWriteIomap,rsPostWriteMsg,ibvPostSend_of_lt]
  · rfl
  · exact hfree

theorem riowriteBody_eq (hfree : (outMsgs a).length < pa.sqSize) (bytes : List Byte) (addr key : ℕ) :
    riowriteBody pa a bytes addr key =
      posted a (copiedOut pa a.rs a.rs.sseqNo bytes.length) (sbufCopy pa a bytes).1 a.ctrlMem
        ⟨rsMsgSet rsOpWrite bytes.length,false,.bytes (sbufCopy pa a bytes).2,
          .region addr key⟩ := by
  rw [riowriteBody,rsWriteDirect,rsPostWrite,ibvPostSend_of_lt]
  · rfl
  · exact hfree

/-- A copy that is not part of the stream leaves the queues in order. -/
theorem HostInv.copiedOut (inv : HostInv pa pb ta a sent) (hp : 0 < pa.sbufSize) (bytes : List Byte)
    (sseqNo : ℕ) (hroom : (bytes.length : ℤ) ≤ a.rs.sbufBytesAvail) (hcan : a.rs.sqeAvail ≠ 0)
    (hctrl : isCtrl wr.msg = false) (hring : ringLen wr.msg = bytes.length)
    (hdata : isData wr.msg = false) (hgrant : isGrant wr = false)
    (hposted : ∀ ring sent ctrlMem pos, Posted pa pb ring sent ctrlMem pos wr) :
    HostInv pa pb {ta with ring := ta.ring++bytes}
      (posted a (copiedOut pa a.rs sseqNo bytes.length) (sbufCopy pa a bytes).1 a.ctrlMem wr) sent := by
  have hpost := inv.postRing hp bytes [] wr (RsocketSteps.copiedOut pa a.rs sseqNo bytes.length) hroom
    hcan hctrl hring (streamLen_other hdata) hgrant (hposted _ _ _ _) rfl rfl rfl rfl rfl rfl rfl
  rw [List.append_nil] at hpost
  exact hpost

theorem Counting.iomap (hc : Counting pb f a b sent got iomaps)
    (hcan : a.rs.sseqNo ≠ a.rs.sseqComp) (n : ℕ) (hdata : isData wr.msg = false) :
    Counting pb {f with window := CreditWindow.send f.window}
      (posted a (copiedOut pa a.rs ((a.rs.sseqNo+1)%65536) n) mem ctrlMem wr) b sent got
      (iomaps+1) := by
  have hlt : f.window.sent < f.window.credit := by
    refine lt_of_le_of_ne hc.window.sent_le fun heq => hcan ?_
    rw [hc.sseq,hc.scomp,heq]
  have hcount := hc.count
  refine ⟨hc.window.send hlt,?_,hc.scomp,hc.rseq,hc.rcomp,hc.flight,hc.queue,?_,?_⟩
  · show (a.rs.sseqNo+1)%65536 = (f.window.sent+1)%65536
    rw [hc.sseq,Nat.mod_add_mod]
  · rw [datas_posted hdata]
    show f.window.read+f.queued.length+_+(iomaps+1) = f.window.sent+1
    omega
  · rw [datas_posted hdata]
    exact hc.bytes

/-- The loop body of `rs_send_iomaps`. -/
theorem Linked.iomap (h : Linked pa pb ta tb f g A B) (hpa : Sound pa) {index : ℕ}
    {record : List Byte} (hlen : record.length = sizeofIomap) (hindex : index < 65536)
    (hcan : rsCanSend A.host.rs) :
    ∃ ta' f', Linked pa pb ta' tb f' g
      {A with host := rsSendIomap pa A.host index record,iomaps := A.iomaps+1} B := by
  have hsbuf : 0 < pa.sbufSize := lt_of_lt_of_le (by decide) hpa.sbuf_ge
  have hroom : (record.length : ℤ) ≤ A.host.rs.sbufBytesAvail := by
    have hlow := hcan.2.1
    have hsnd : rsSndlowat = 2048 := rfl
    have hmap : sizeofIomap = 24 := rfl
    omega
  have hdata : isData (rsMsgSet rsOpIomapSgl index) = false := by
    rw [isData_set _ _ (index_lt hindex)]
    rfl
  rw [rsSendIomap_eq (h.host.free_entry hcan.1),← hlen]
  refine ⟨_,_,HostInv.copiedOut h.host hsbuf record _ hroom hcan.1 ?_ ?_ hdata rfl ?_,h.peer,
    ⟨Counting.iomap h.there.counting hcan.2.2.1 _ hdata,?_,?_⟩,?_⟩
  · rw [isCtrl_set _ _ (index_lt hindex)]
    rfl
  · rw [ringLen_iomap (index_lt hindex),hlen]
  · exact fun _ _ _ _ => .iomap index hindex _
  · exact Granting.posted_there (h.there.granting.congr_flow rfl rfl) rfl rfl
  · exact Arriving.posted_there h.there.arriving h.host.placed rfl
  · refine Dir.posted_back h.back h.host.placed rfl rfl ?_ rfl rfl rfl rfl rfl rfl rfl
    rw [rsMsgOp_set _ _ (index_lt hindex)]
    decide

/-- The loop body of `riowrite`. -/
theorem Linked.iowrite (h : Linked pa pb ta tb f g A B) (hpa : Sound pa) {bytes : List Byte}
    (addr : ℕ) {key : ℕ} (hroom : (bytes.length : ℤ) ≤ A.host.rs.sbufBytesAvail)
    (hmax : bytes.length ≤ rsMaxTransfer) (hkey : key ≠ pb.rkey) (hcan : rsCanSend A.host.rs) :
    ∃ ta', Linked pa pb ta' tb f g {A with host := riowriteBody pa A.host bytes addr key} B := by
  have hsbuf : 0 < pa.sbufSize := lt_of_lt_of_le (by decide) hpa.sbuf_ge
  have hdata : isData (rsMsgSet rsOpWrite bytes.length) = false := by
    rw [isData_set _ _ (data_lt hmax)]
    rfl
  rw [riowriteBody_eq (h.host.free_entry hcan.1)]
  refine ⟨_,HostInv.copiedOut h.host hsbuf bytes _ hroom hcan.1 ?_ (ringLen_write (data_lt hmax)) hdata
    rfl (fun _ _ _ _ => .write _ addr key hmax hkey _),h.peer,
    Dir.posted_there h.there h.host.placed rfl hdata rfl rfl rfl rfl,?_⟩
  · rw [isCtrl_set _ _ (data_lt hmax)]
    rfl
  · refine Dir.posted_back h.back h.host.placed rfl rfl ?_ rfl rfl rfl rfl rfl rfl rfl
    rw [rsMsgOp_set _ _ (data_lt hmax)]
    decide

/-! ## Control messages -/

/-- The number of a control message is taken. -/
def takeCtrl (h : Host) : Host :=
  {h with rs := {h.rs with ctrlSeqno := (h.rs.ctrlSeqno+1)%2^32}}

/-- A control message that grants nothing and announces no credits. -/
theorem Linked.postCtrl (h : Linked pa pb ta tb f g A B) (havail : rsCtrlAvail A.host.rs) {c : ℕ}
    (hc : c < 2^29) (imm : Bool) :
    ∃ ta', Linked pa pb ta' tb f g
      {A with host := ibvPostSend pa (takeCtrl A.host) ⟨rsMsgSet rsOpCtrl c,imm,.none,.none⟩} B := by
  have hdata : isData (rsMsgSet rsOpCtrl c) = false := by
    rw [isData_set _ _ hc]
    rfl
  have hfree : (outMsgs (takeCtrl A.host)).length < pa.sqSize := h.host.free_ctrl_entry havail
  rw [ibvPostSend_of_lt hfree]
  refine ⟨_,h.host.postControl _ (takeCtrl A.host).rs A.host.ctrlMem havail ?_ hdata (fun _ _ => rfl) (.ctrl c hc imm) rfl rfl rfl rfl rfl rfl rfl,h.peer,
    Dir.posted_there h.there h.host.placed rfl hdata rfl rfl rfl rfl,?_⟩
  · rw [isCtrl_set _ _ hc]
    rfl
  · refine Dir.posted_back h.back h.host.placed rfl rfl ?_ rfl rfl rfl rfl rfl rfl rfl
    rw [rsMsgOp_set _ _ hc]
    decide

/-- The socket after the announcement that `rs_send_credits` makes in any case. -/
def announced (p : Endpoint) (rs : RSocket) : RSocket :=
  {rs with
    ctrlSeqno := (rs.ctrlSeqno+1)%2^32
    rseqComp := (rs.rseqNo+p.rqSize/2)%65536}

/-- And after a half was granted with it. -/
def granted (p : Endpoint) (rs : RSocket) : RSocket :=
  {announced p rs with
    rbufBytesAvail := rs.rbufBytesAvail-p.half
    rbufFreeOffset := if p.rbufSize ≤ rs.rbufFreeOffset+p.half then 0 else rs.rbufFreeOffset+p.half
    remoteSge := if rs.remoteSge+1 = rs.remoteSglLength then 0 else rs.remoteSge+1}

theorem rsSendCredits_grant (hfree : (outMsgs a).length < pa.sqSize)
    (hhalf : (pa.half : ℤ) ≤ a.rs.rbufBytesAvail) :
    rsSendCredits pa a = posted a (granted pa a.rs) a.sbufMem
      (Function.update a.ctrlMem ((a.rs.ctrlSeqno+1)%2^32%rsQpCtrlSize) (grantSge pa a.rs))
      ⟨rsMsgSet rsOpSgl (a.rs.rseqNo+pa.rqSize),true,.ctrl ((a.rs.ctrlSeqno+1)%2^32%rsQpCtrlSize),
        .targetSgl a.rs.remoteSge⟩ := by
  rw [rsSendCredits]
  dsimp only
  rw [if_pos hhalf,rsPostWriteMsg,ibvPostSend_of_lt]
  · rfl
  · exact hfree

theorem rsSendCredits_announce (hfree : (outMsgs a).length < pa.sqSize)
    (hhalf : ¬(pa.half : ℤ) ≤ a.rs.rbufBytesAvail) :
    rsSendCredits pa a = posted a (announced pa a.rs) a.sbufMem a.ctrlMem
      ⟨rsMsgSet rsOpSgl (a.rs.rseqNo+pa.rqSize),true,.none,.none⟩ := by
  rw [rsSendCredits]
  dsimp only
  rw [if_neg hhalf,rsPostMsg,ibvPostSend_of_lt]
  · rfl
  · exact hfree

theorem Counting.credit_lt (hc : Counting pb f a b sent got iomaps) (hp : Sound pb) :
    b.rs.rseqNo+pb.rqSize < 2^29 := by
  have hlt : b.rs.rseqNo < 65536 := by
    rw [hc.rseq]
    exact Nat.mod_lt _ (by decide)
  have hle := hp.rq_le
  have hmax : rsQpMaxSize = 0xFFFE := rfl
  omega

theorem Counting.announced (hc : Counting pb f a b sent got iomaps) (hp : Sound pb)
    (himm : wr.imm = true) (hmsg : wr.msg = rsMsgSet rsOpSgl (b.rs.rseqNo+pb.rqSize))
    (hrseq : rs.rseqNo = b.rs.rseqNo) (hrcomp : rs.rseqComp = (b.rs.rseqNo+pb.rqSize/2)%65536)
    (hring : msgRing rs = msgRing b.rs) :
    Counting pb {f with window := CreditWindow.announce pb.rqSize f.window} a
      (posted b rs mem ctrlMem wr) sent got iomaps := by
  have hlt := Counting.credit_lt hc hp
  refine ⟨hc.window.announce,hc.sseq,hc.scomp,hrseq.trans hc.rseq,?_,?_,?_,hc.count,hc.bytes⟩
  · show rs.rseqComp = (f.window.read+pb.rqSize-pb.rqSize+pb.rqSize/2)%65536
    rw [hrcomp,hc.rseq,Nat.mod_add_mod,Nat.add_sub_cancel]
  · rw [wire_posted,credits_append,if_pos himm,hmsg,credits_set _ _ hlt]
    refine List.rel_append hc.flight (.cons ?_ .nil)
    rw [hc.rseq,Nat.mod_add_mod]
  · show RingQueue.Holds _ _ (msgRing rs) _
    rw [hring]
    exact hc.queue

theorem Granting.granted (hg : Granting pb tb f a b sent got) (hp : Sound pb)
    (hempty : b.sq = [] → b.placed = 0) (hhalf : (pb.half : ℤ) ≤ b.rs.rbufBytesAvail)
    (hlength : b.rs.remoteSglLength = rsSglSize) {tb' : Track} (hgrants : tb'.grants = tb.grants+1)
    (hstart : tb'.start = tb.start) :
    Granting pb tb' f a (posted b (granted pb b.rs) mem ctrlMem wr) sent got := by
  have hsize := hp.size_eq
  have hpos := hp.half_pos
  have havail := hg.avail
  have hsucc : (tb.grants+1)*pb.half = tb.grants*pb.half+pb.half := Nat.succ_mul _ _
  have hsgl : rsSglSize = 2 := rfl
  have hfree : tb.grants*pb.half+pb.half ≤ got.length+2*pb.half := by omega
  have hparity : tb.grants%2 = 0 ∧ (tb.grants+1)%2 = 1 ∨ tb.grants%2 = 1 ∧ (tb.grants+1)%2 = 0 := by
    omega
  refine ⟨?_,?_,?_,?_,hg.offset,hg.offset_le,hg.sge,hg.current,hg.following,?_,?_⟩
  · rw [hgrants]
    exact hg.buffer.grant hfree
  · show b.rs.rbufBytesAvail-pb.half = _
    rw [hgrants,hsucc]
    omega
  · show (if pb.rbufSize ≤ b.rs.rbufFreeOffset+pb.half then 0 else b.rs.rbufFreeOffset+pb.half) = _
    rw [hgrants,hg.free,hsize]
    rcases hparity with ⟨h0,h1⟩ | ⟨h0,h1⟩
    · rw [h0,h1,if_neg (by omega)]
      omega
    · rw [h0,h1,if_pos (by omega)]
      omega
  · show (if b.rs.remoteSge+1 = b.rs.remoteSglLength then 0 else b.rs.remoteSge+1) = _
    rw [hgrants,hg.remote,hlength,hsgl]
    split_ifs <;> omega
  · rw [hstart]
    exact hg.arrived.trans (by rw [RsocketSteps.posted,grantPlaced_post hempty])
  · intro first rest hsq hgrant
    rw [hstart]
    refine ⟨fun h1 h3 => ?_,fun h2 h3 => ?_⟩
    · obtain ⟨rest',hold⟩ := first_post hempty wr first rest hsq h1
      exact (hg.partly first rest' hold hgrant).1 h1 h3
    · obtain ⟨rest',hold⟩ := first_post hempty wr first rest hsq (le_trans (by decide) h2)
      exact (hg.partly first rest' hold hgrant).2 h2 h3

/-- `rs_send_credits`, when a control entry is free. -/
theorem Linked.sendCredits (h : Linked pa pb ta tb f g A B) (hpa : Sound pa)
    (havail : rsCtrlAvail A.host.rs) :
    ∃ ta' g', Linked pa pb ta' tb f g' {A with host := rsSendCredits pa A.host} B := by
  have hc := h.back.counting
  have hg := h.back.granting
  have hannounced : Granting pa ta {g with window := CreditWindow.announce pa.rqSize g.window} B.host
      A.host B.sent A.got := hg.congr_flow rfl rfl
  have hlt := Counting.credit_lt hc hpa
  have hfree := h.host.free_ctrl_entry havail
  have hdata : isData (rsMsgSet rsOpSgl (A.host.rs.rseqNo+pa.rqSize)) = false := by
    rw [isData_set _ _ hlt]
    rfl
  have hctrl : isCtrl (rsMsgSet rsOpSgl (A.host.rs.rseqNo+pa.rqSize)) = true := by
    rw [isCtrl_set _ _ hlt]
    rfl
  by_cases hhalf : (pa.half : ℤ) ≤ A.host.rs.rbufBytesAvail
  · have hslot : (A.host.rs.ctrlSeqno+1)%2^32%rsQpCtrlSize = (ta.ctrl+1)%rsQpCtrlSize := by
      have hsize : rsQpCtrlSize = 4 := rfl
      rw [h.host.ctrlNo,hsize]
      omega
    have hsge : grantSge pa A.host.rs = storedSge pa pb ta.grants := by
      rw [grantSge,storedSge,h.host.swap,hg.free]
      by_cases hnet : pa.net = pb.net
      · rw [if_pos hnet,if_neg (by simpa using hnet)]
      · rw [if_neg hnet,if_pos (by simpa using hnet)]
    rw [rsSendCredits_grant hfree hhalf,hslot,hg.remote,hsge]
    refine ⟨_,_,h.host.postControl _ (granted pa A.host.rs) _ havail hctrl hdata
      (fun k hk => Function.update_of_ne hk _ _) (.grant _ hlt (Function.update_self _ _ _))
      rfl rfl rfl rfl rfl rfl rfl,h.peer,
      Dir.posted_there h.there h.host.placed rfl hdata rfl rfl rfl rfl,
      Counting.announced hc hpa rfl rfl rfl rfl rfl,
      ?_,Arriving.posted_back h.back.arriving⟩
    exact Granting.granted hannounced hpa h.host.placed hhalf h.host.sglLength rfl rfl
  · rw [rsSendCredits_announce hfree hhalf]
    refine ⟨_,_,h.host.postControl _ (announced pa A.host.rs) A.host.ctrlMem havail hctrl hdata
      (fun _ _ => rfl) (.credit _ hlt) rfl rfl rfl rfl rfl rfl rfl,h.peer,
      Dir.posted_there h.there h.host.placed rfl hdata rfl rfl rfl rfl,
      Counting.announced hc hpa rfl rfl rfl rfl rfl,
      ?_,Arriving.posted_back h.back.arriving⟩
    exact Granting.posted_back hannounced h.host.placed rfl rfl rfl rfl rfl rfl

/-! ## Receiving -/

theorem period_eq (hp : Sound pb) : RingQueue.period 32 (pb.rqSize+1) = pb.rqSize+1 := by
  have hle := hp.rq_le
  have hmax : rsQpMaxSize = 0xFFFE := rfl
  exact min_eq_right (by omega)

theorem nextMsg_eq (hp : Sound pb) {i : ℕ} (hi : i < pb.rqSize+1) :
    nextMsg pb i = RingQueue.bump 32 (pb.rqSize+1) i := by
  have hle := hp.rq_le
  have hmax : rsQpMaxSize = 0xFFFE := rfl
  rw [nextMsg,RingQueue.bump,Nat.mod_eq_of_lt (by omega)]
  by_cases hlast : i+1 = pb.rqSize+1
  · rw [if_pos hlast,if_pos (by omega)]
  · rw [if_neg hlast,if_neg (by omega)]

theorem Counting.queued_le (hc : Counting pb f a b sent got iomaps) :
    f.queued.length+(datas (wire a b)).length ≤ pb.rqSize := by
  have hcount := hc.count
  have hroom := hc.window.sent_le_read
  omega

/-- The ring is empty exactly when its two indices are equal. -/
theorem Counting.haveRdata_iff (hc : Counting pb f a b sent got iomaps) :
    rsHaveRdata b.rs ↔ f.queued ≠ [] := by
  have hq := hc.queue
  have hle := Counting.queued_le hc
  have htail : b.rs.rmsgHead < pb.rqSize+1 := hq.tail_lt
  have hhead : b.rs.rmsgTail = (b.rs.rmsgHead+f.queued.length)%(pb.rqSize+1) := hq.head_eq
  rw [rsHaveRdata,hhead]
  constructor
  · intro hne hnil
    rw [hnil,List.length_nil,Nat.add_zero,Nat.mod_eq_of_lt htail] at hne
    exact hne rfl
  · intro hne heq
    have hpos := List.length_pos_of_ne_nil hne
    have hdiff := RingQueue.slot_ne (Nat.lt_add_of_pos_right hpos)
      (show b.rs.rmsgHead+f.queued.length < b.rs.rmsgHead+(pb.rqSize+1) by omega)
    rw [Nat.mod_eq_of_lt htail] at hdiff
    exact hdiff heq

/-- The bytes that are read, queued or polled are those that are delivered. -/
theorem Dir.delivered (hd : Dir pb ta tb f a b sent got iomaps) (inv : HostInv pa pb ta a sent) :
    got.length+f.queued.sum+(datas (recvMsgs b)).sum = ta.start.stream := by
  have hbytes := hd.counting.bytes
  have hstream := inv.stream_start
  rw [streamLen_sum a.sq inv.laid] at hstream
  rw [wire,datas_append,List.sum_append] at hbytes
  change _ = ta.start.stream+(datas (sendMsgs a)).sum at hstream
  omega

def setRs (h : Host) (rs : RSocket) : Host := {h with rs := rs}

/-- A socket that differs in what reading changes. -/
def received (rs : RSocket) (rmsg : ℕ → RsMsg) (head seqNo offset : ℕ) (avail : ℤ) : RSocket :=
  {rs with
    rmsg := rmsg
    rmsgHead := head
    rseqNo := seqNo
    rbufOffset := offset
    rbufBytesAvail := avail}

theorem rrecvRound_received (p : Endpoint) (mem : Memory) (rs : RSocket) (left : ℕ) :
    ∃ rmsg head seqNo offset avail,
      (rrecvRound p mem rs left).1 = received rs rmsg head seqNo offset avail := by
  rw [rrecvRound]
  dsimp only
  by_cases hlt : left < (rs.rmsg rs.rmsgHead).data
  · rw [if_pos hlt]
    exact ⟨_,_,_,_,_,rfl⟩
  · rw [if_neg hlt]
    exact ⟨_,_,_,_,_,rfl⟩

theorem rrecvLoop_received (p : Endpoint) (mem : Memory) (fuel : ℕ) (rs : RSocket) (left : ℕ) :
    ∃ rmsg head seqNo offset avail,
      (rrecvLoop p mem fuel rs left).1 = received rs rmsg head seqNo offset avail := by
  induction fuel generalizing rs left with
  | zero => exact ⟨_,_,_,_,_,rfl⟩
  | succ fuel ih =>
    rw [rrecvLoop]
    by_cases hstop : left = 0 ∨ ¬rsHaveRdata rs
    · rw [if_pos hstop]
      exact ⟨_,_,_,_,_,rfl⟩
    · rw [if_neg hstop]
      obtain ⟨_,_,_,_,_,hround⟩ := rrecvRound_received p mem rs left
      obtain ⟨_,_,_,_,_,hrest⟩ := ih (rrecvRound p mem rs left).1
        (left-(rrecvRound p mem rs left).2.length)
      dsimp only
      rw [hrest,hround]
      exact ⟨_,_,_,_,_,rfl⟩

theorem Granting.received (hg : Granting pb tb f a b sent got) (bytes : List Byte)
    (hle : got.length+bytes.length ≤ sent.length) (hsize : bytes.length ≤ pb.rbufSize)
    (rmsg : ℕ → RsMsg) (head seqNo : ℕ) :
    Granting pb tb f a (setRs b (received b.rs rmsg head seqNo
      (offsetAfter pb.rbufSize b.rs.rbufOffset bytes.length) (b.rs.rbufBytesAvail+bytes.length)))
      sent (got++bytes) := by
  have hoff := offsetAfter_le b.rs.rbufOffset bytes.length hsize
  have hold := hg.offset_le
  refine ⟨?_,?_,hg.free,hg.remote,?_,?_,hg.sge,hg.current,hg.following,hg.arrived,hg.partly⟩
  · rw [Flow.buffer,List.length_append]
    exact hg.buffer.read hle
  · show b.rs.rbufBytesAvail+bytes.length = _
    rw [hg.avail,List.length_append]
    push_cast
    omega
  · show offsetAfter pb.rbufSize b.rs.rbufOffset bytes.length%_ = _
    rw [offsetAfter_mod _ _ hold,List.length_append,Nat.add_mod,hg.offset,← Nat.add_mod]
  · show offsetAfter pb.rbufSize b.rs.rbufOffset bytes.length ≤ _
    omega

/-- One round of `rrecv` takes the first message, or a part of it. -/
theorem Dir.round (hd : Dir pb ta tb f a b sent got iomaps) (inv : HostInv pa pb ta a sent)
    (hp : Sound pb) {n : ℕ} {ms : List ℕ} (hq : f.queued = n::ms) (left : ℕ) :
    (rrecvRound pb b.rbufMem b.rs left).2.length = min left n ∧
      ∃ f', f'.queued = (if left < n then (n-left)::ms else ms) ∧
        Dir pb ta tb f' a (setRs b (rrecvRound pb b.rbufMem b.rs left).1) sent
          (got++(rrecvRound pb b.rbufMem b.rs left).2) iomaps := by
  have hc := hd.counting
  have hqueue := hc.queue
  rw [hq] at hqueue
  have hdata : (b.rs.rmsg b.rs.rmsgHead).data = n := hqueue.front
  have hhead : b.rs.rmsgHead < pb.rqSize+1 := hqueue.tail_lt
  have hdelivered := Dir.delivered hd inv
  have hplaced := HostInv.placed_stream inv
  have hroom := hd.granting.buffer.written_le
  have hsize := hp.size_eq
  rw [hq,List.sum_cons] at hdelivered
  have hread : got.length+min left n ≤ ta.start.stream+placedData a := by omega
  have hfit : min left n ≤ pb.rbufSize := by
    change sent.length ≤ got.length+2*pb.half at hroom
    omega
  have hcopy : (rrecvRound pb b.rbufMem b.rs left).2 = (sent.drop got.length).take (min left n) := by
    rw [← hd.arriving.content.readFrom hd.granting.offset_le hd.granting.offset hfit hread,rrecvRound]
    dsimp only
    rw [hdata]
    congr 1
    split_ifs <;> omega
  have hlen : (rrecvRound pb b.rbufMem b.rs left).2.length = min left n := by
    rw [hcopy,List.length_take,List.length_drop]
    omega
  have hinitial : got++(rrecvRound pb b.rbufMem b.rs left).2 <+: sent := by
    obtain ⟨rest,rfl⟩ := hd.arriving.initial
    rw [hcopy,List.drop_left]
    exact (List.prefix_append_right_inj got).mpr (List.take_prefix _ _)
  have hle : got.length+(rrecvRound pb b.rbufMem b.rs left).2.length ≤ sent.length := by omega
  have hcount := hc.count
  have hbytes := hc.bytes
  rw [hq,List.length_cons] at hcount
  rw [hq,List.sum_cons] at hbytes
  refine ⟨hlen,?_⟩
  have harriving : Arriving pb ta a b sent (got++(rrecvRound pb b.rbufMem b.rs left).2) :=
    ⟨hd.arriving.content.mono (by rw [List.length_append]; omega) le_rfl,hd.arriving.inside,hinitial⟩
  have hgranting :=
    Granting.received hd.granting (rrecvRound pb b.rbufMem b.rs left).2 hle (by omega)
  generalize hbs : (rrecvRound pb b.rbufMem b.rs left).2 = bytes at hlen hgranting harriving ⊢
  by_cases hlt : left < n
  · have hrs : (rrecvRound pb b.rbufMem b.rs left).1 = received b.rs
        (Function.update b.rs.rmsg b.rs.rmsgHead
          ⟨(b.rs.rmsg b.rs.rmsgHead).op,(b.rs.rmsg b.rs.rmsgHead).data-left⟩) b.rs.rmsgHead
        b.rs.rseqNo (offsetAfter pb.rbufSize b.rs.rbufOffset bytes.length)
        (b.rs.rbufBytesAvail+bytes.length) := by
      rw [hlen,rrecvRound,hdata,if_pos hlt,if_pos hlt,min_eq_left (le_of_lt hlt)]
      rfl
    rw [hrs,if_pos hlt]
    refine ⟨{f with queued := (n-left)::ms},rfl,⟨hc.window,hc.sseq,hc.scomp,hc.rseq,hc.rcomp,hc.flight,
      ?_,?_,?_⟩,(hgranting _ _ _).congr_flow rfl rfl,harriving.congr rfl rfl rfl rfl⟩
    · exact hqueue.replace (by rw [hdata])
    · rw [List.length_cons]
      exact hcount
    · rw [List.length_append,List.sum_cons,hlen]
      show got.length+min left n+(n-left+ms.sum)+(datas (wire a b)).sum = sent.length
      omega
  · have hrs : (rrecvRound pb b.rbufMem b.rs left).1 = received b.rs b.rs.rmsg
        (nextMsg pb b.rs.rmsgHead) ((b.rs.rseqNo+1)%65536)
        (offsetAfter pb.rbufSize b.rs.rbufOffset bytes.length)
        (b.rs.rbufBytesAvail+bytes.length) := by
      rw [hlen,rrecvRound,hdata,if_neg hlt,if_neg hlt,min_eq_right (Nat.not_lt.mp hlt)]
      rfl
    rw [hrs,if_neg hlt]
    refine ⟨{f with window := CreditWindow.consume f.window,queued := ms},rfl,
      ⟨hc.window.consume (by omega),hc.sseq,hc.scomp,?_,hc.rcomp,hc.flight,?_,?_,?_⟩,
      (hgranting _ _ _).congr_flow rfl rfl,harriving.congr rfl rfl rfl rfl⟩
    · show (b.rs.rseqNo+1)%65536 = (f.window.read+1)%65536
      rw [hc.rseq,Nat.mod_add_mod]
    · rw [← period_eq hp] at hqueue ⊢
      have hpop := hqueue.pop
      rw [RingQueue.pop] at hpop
      show RingQueue.Holds _ _ ⟨b.rs.rmsg,b.rs.rmsgTail,nextMsg pb b.rs.rmsgHead⟩ ms
      rw [nextMsg_eq hp hhead]
      exact hpop
    · show f.window.read+1+ms.length+(datas (wire a b)).length+iomaps = f.window.sent
      omega
    · rw [List.length_append,hlen]
      show got.length+min left n+ms.sum+(datas (wire a b)).sum = sent.length
      omega

/-- The copying loop ends with as many bytes as were asked for, or with an empty ring. -/
theorem Dir.loop (hp : Sound pb) (inv : HostInv pa pb ta a sent) (fuel : ℕ)
    (hd : Dir pb ta tb f a b sent got iomaps) (left : ℕ) (hfuel : left = 0 ∨ f.queued.length < fuel) :
    (rrecvLoop pb b.rbufMem fuel b.rs left).2.length = min left f.queued.sum ∧
      ∃ f', Dir pb ta tb f' a (setRs b (rrecvLoop pb b.rbufMem fuel b.rs left).1) sent
        (got++(rrecvLoop pb b.rbufMem fuel b.rs left).2) iomaps := by
  induction fuel generalizing f b got left with
  | zero =>
    obtain rfl : left = 0 := by omega
    rw [rrecvLoop,List.append_nil]
    exact ⟨(Nat.zero_min _).symm,f,hd⟩
  | succ fuel ih =>
    rw [rrecvLoop]
    by_cases hstop : left = 0 ∨ ¬rsHaveRdata b.rs
    · rw [if_pos hstop,List.append_nil]
      refine ⟨?_,f,hd⟩
      rcases hstop with hzero | hnone
      · rw [hzero]
        exact (Nat.zero_min _).symm
      · rw [(Counting.haveRdata_iff hd.counting).not_left.mp hnone]
        exact (Nat.min_zero _).symm
    · rw [if_neg hstop]
      obtain ⟨hleft,hhave⟩ := not_or.mp hstop
      obtain ⟨n,ms,hq⟩ := List.exists_cons_of_ne_nil
        ((Counting.haveRdata_iff hd.counting).mp (not_not.mp hhave))
      obtain ⟨hlen,f',hq',hround⟩ := Dir.round hd inv hp hq left
      rw [hq,List.length_cons] at hfuel
      -- a message that is not taken whole is the last one
      have hfuel' : left-(rrecvRound pb b.rbufMem b.rs left).2.length = 0 ∨ f'.queued.length < fuel := by
        rw [hlen,hq']
        by_cases hlt : left < n
        · left
          omega
        · right
          rw [if_neg hlt]
          omega
      have hsum : min left n+min (left-min left n) f'.queued.sum = min left (n+ms.sum) := by
        rw [hq']
        by_cases hlt : left < n
        · rw [if_pos hlt,List.sum_cons]
          omega
        · rw [if_neg hlt]
          omega
      obtain ⟨hrest,f'',hdir⟩ := ih hround _ hfuel'
      dsimp only
      refine ⟨?_,f'',?_⟩
      · rw [List.length_append,hlen]
        rw [hlen] at hrest
        rw [show rrecvLoop pb b.rbufMem fuel (rrecvRound pb b.rbufMem b.rs left).1 = rrecvLoop pb
          (setRs b (rrecvRound pb b.rbufMem b.rs left).1).rbufMem fuel
          (setRs b (rrecvRound pb b.rbufMem b.rs left).1).rs from rfl,hrest,hq,List.sum_cons]
        exact hsum
      · rw [← List.append_assoc]
        exact hdir

theorem Dir.received_there (hd : Dir pb ta tb f a b sent got iomaps) (rmsg : ℕ → RsMsg)
    (head seqNo offset : ℕ) (avail : ℤ) :
    Dir pb ta tb f (setRs a (received a.rs rmsg head seqNo offset avail)) b sent got iomaps :=
  ⟨hd.counting.congr rfl rfl rfl rfl rfl rfl rfl,
    hd.granting.congr rfl rfl rfl rfl rfl rfl rfl rfl rfl fun _ rest hsq _ _ => ⟨rfl,rest,hsq⟩,
    hd.arriving.congr rfl rfl rfl rfl⟩

/-- `rrecv` returns what is polled, up to the length asked for. -/
theorem Linked.recv (h : Linked pa pb ta tb f g A B) (hpa : Sound pa) (len : ℕ) :
    (rrecv pa A.host len).2.length = min len g.queued.sum ∧
      ∃ g', Linked pa pb ta tb f g'
        {A with host := (rrecv pa A.host len).1,got := A.got++(rrecv pa A.host len).2} B := by
  have hfuel : g.queued.length < rrecvFuel pa := by
    have hle := Counting.queued_le h.back.counting
    rw [rrecvFuel]
    omega
  obtain ⟨hlen,g',hdir⟩ := Dir.loop hpa h.peer (rrecvFuel pa) h.back len (Or.inr hfuel)
  refine ⟨hlen,g',?_,h.peer,?_,hdir⟩
  · obtain ⟨rmsg,head,seqNo,offset,avail,heq⟩ :=
      rrecvLoop_received pa A.host.rbufMem (rrecvFuel pa) A.host.rs len
    show HostInv pa pb ta (setRs A.host (rrecvLoop pa A.host.rbufMem (rrecvFuel pa) A.host.rs len).1) _
    rw [heq]
    exact h.host.congr rfl rfl rfl rfl rfl rfl h.host.receives rfl rfl rfl rfl rfl rfl rfl
  · obtain ⟨rmsg,head,seqNo,offset,avail,heq⟩ :=
      rrecvLoop_received pa A.host.rbufMem (rrecvFuel pa) A.host.rs len
    show Dir pb ta tb f (setRs A.host (rrecvLoop pa A.host.rbufMem (rrecvFuel pa) A.host.rs len).1)
      _ _ _ _
    rw [heq]
    exact Dir.received_there h.there rmsg head seqNo offset avail

end FreeFlow.RsocketSteps
