import FreeFlow.RsocketConnection

/-!
# The end of a stream

A side that has called `rshutdown` for writing puts one last message behind all
its data. A side that does not call `rshutdown` for reading finds its socket no
longer readable only because it has polled such a message of its peer.
-/

set_option autoImplicit false

namespace FreeFlow.RsocketClosing

open ByteMemory (Memory)
open ByteOrder CircularStream LaidOut Rsocket RsocketPeers RsocketQueues RsocketStream RsocketSteps
  RsocketAdapter RsocketConnection Runs

/-- A message that ends the connection when its own completion is polled. -/
def isDisconnect (msg : ℕ) : Bool := rsMsgOp msg = rsOpCtrl && rsMsgData msg = rsCtrlDisconnect

/-- What holds of a side that may close its stream: of its state, the message it has still to post,
the messages on their way to the peer, and whether the peer has polled the last one. -/
structure Leaving (state : RsState) (ctrl : Option ℕ) (msgs : List ℕ) (closing eof : Bool) : Prop where
  writable : state.connected = true → state.writable = false → closing = true
  pending : ctrl ≠ none → closing = true
  posted : ∀ msg ∈ msgs, isClose msg = true → closing = true
  seen : eof = true → closing = true
  last : ∀ before msg after, msgs = before++msg::after → isClose msg = true → datas after = []
  done : eof = true → datas msgs = []

/-- What holds of a side that does not close its own reading. -/
structure Reading (state : RsState) (ctrl : Option ℕ) (out : List ℕ) (eof : Bool) : Prop where
  readable : state.readable = false → eof = true
  pending : ctrl = some rsCtrlDisconnect → eof = true
  posted : ∀ msg ∈ out, isDisconnect msg = true → eof = true

variable {state : RsState} {ctrl : Option ℕ} {msgs out : List ℕ} {closing eof : Bool}

/-! ## The side that closes -/

theorem datas_tail {msg : ℕ} {rest : List ℕ} (h : datas (msg::rest) = []) : datas rest = [] := by
  rw [datas_cons] at h
  by_cases hkind : isData msg = true
  · rw [if_pos hkind] at h
    exact absurd h (by simp)
  · rwa [if_neg hkind] at h

/-- A message that is not of the stream is posted. -/
theorem Leaving.post (h : Leaving state ctrl msgs closing eof) (more : List ℕ)
    (hdata : datas more = []) (hclose : ∀ msg ∈ more, isClose msg = true → closing = true) :
    Leaving state ctrl (msgs++more) closing eof := by
  refine ⟨h.writable,h.pending,?_,h.seen,?_,?_⟩
  · intro msg hmem
    rcases List.mem_append.mp hmem with hold | hnew
    · exact h.posted msg hold
    · exact hclose msg hnew
  · intro before msg after hsplit hmsg
    rcases List.append_eq_append_iff.mp hsplit with ⟨mid,hbefore,hmore⟩ | ⟨mid,hmsgs,hafter⟩
    · rw [hmore,datas_append,List.append_eq_nil_iff] at hdata
      exact datas_tail hdata.2
    · cases mid with
      | nil =>
        rw [List.nil_append] at hafter
        rw [← hafter] at hdata
        exact datas_tail hdata
      | cons first mid =>
        rw [List.cons_append] at hafter
        obtain ⟨rfl,rfl⟩ := List.cons.inj hafter
        rw [datas_append,h.last before msg mid hmsgs hmsg,hdata]
        rfl
  · intro hseen
    rw [datas_append,h.done hseen,hdata]
    rfl

/-- Data is posted as long as the side is not closing. -/
theorem Leaving.send (h : Leaving state ctrl msgs closing eof) (hopen : closing = false) (msg : ℕ)
    (hmsg : isClose msg = false) : Leaving state ctrl (msgs++[msg]) closing eof := by
  have hnone : ∀ m ∈ msgs++[msg], isClose m = true → closing = true := by
    intro m hmem hm
    rcases List.mem_append.mp hmem with hold | hnew
    · exact h.posted m hold hm
    · rw [List.mem_singleton.mp hnew,hmsg] at hm
      exact absurd hm (by simp)
  refine ⟨h.writable,h.pending,hnone,h.seen,?_,?_⟩
  · intro before m after hsplit hm
    have hmem : m ∈ msgs++[msg] := by simp [hsplit]
    exact absurd (hnone m hmem hm) (by simp [hopen])
  · intro hseen
    exact absurd (h.seen hseen) (by simp [hopen])

/-- The peer polls some messages. -/
theorem Leaving.poll {polled rest : List ℕ} (h : Leaving state ctrl (polled++rest) closing eof) :
    Leaving state ctrl rest closing (eof || polled.any isClose) := by
  refine ⟨h.writable,h.pending,?_,?_,?_,?_⟩
  · intro msg hmem
    exact h.posted msg (List.mem_append_right _ hmem)
  · intro hseen
    rcases Bool.or_eq_true _ _ ▸ hseen with hold | hnew
    · exact h.seen hold
    · obtain ⟨msg,hmem,hmsg⟩ := List.any_eq_true.mp hnew
      exact h.posted msg (List.mem_append_left _ hmem) hmsg
  · intro before msg after hsplit hmsg
    exact h.last (polled++before) msg after (by rw [hsplit,List.append_assoc]) hmsg
  · intro hseen
    rcases Bool.or_eq_true _ _ ▸ hseen with hold | hnew
    · have hdone := h.done hold
      rw [datas_append,List.append_eq_nil_iff] at hdone
      exact hdone.2
    · obtain ⟨msg,hmem,hmsg⟩ := List.any_eq_true.mp hnew
      obtain ⟨before,after,rfl⟩ := List.append_of_mem hmem
      have hlast := h.last before msg (after++rest) (by simp) hmsg
      rw [datas_append,List.append_eq_nil_iff] at hlast
      exact hlast.2

/-! ## The side that reads -/

theorem Reading.post (h : Reading state ctrl out eof) (msg : ℕ)
    (hmsg : isDisconnect msg = true → eof = true) : Reading state ctrl (out++[msg]) eof := by
  refine ⟨h.readable,h.pending,fun m hmem => ?_⟩
  rcases List.mem_append.mp hmem with hold | hnew
  · exact h.posted m hold
  · rw [List.mem_singleton.mp hnew]
    exact hmsg

/-- How one completion changes the state. -/
theorem rsHandle_readable (p : Endpoint) (rs : RSocket) (wc : Wc)
    (h : (rsHandle p rs wc).1.state.readable = false) :
    rs.state.readable = false ∨ (∃ msg, wc = .recv msg ∧ isClose msg = true) ∨
      ∃ msg, wc = .send msg ∧ isDisconnect msg = true := by
  cases wc with
  | send msg =>
    rw [rsHandle] at h
    split_ifs at h with hsgl hctrl hdisc
    · exact Or.inl h
    · exact Or.inr (Or.inr ⟨msg,rfl,by simp [isDisconnect,hctrl,hdisc]⟩)
    · exact Or.inl h
    · exact Or.inl h
    · exact Or.inl h
  | recv msg =>
    rw [rsHandle] at h
    split_ifs at h with hsgl hiomap hctrl hdisc hshut hwritable hwrite
    · exact Or.inl h
    · exact Or.inl h
    · exact Or.inr (Or.inl ⟨msg,rfl,by simp [isClose,hctrl,hdisc]⟩)
    · exact Or.inr (Or.inl ⟨msg,rfl,by simp [isClose,hctrl,hshut]⟩)
    · exact Or.inr (Or.inl ⟨msg,rfl,by simp [isClose,hctrl,hshut]⟩)
    · exact Or.inl h
    · exact Or.inl h
    · exact Or.inl h

theorem rsHandle_connected (p : Endpoint) (rs : RSocket) (wc : Wc)
    (h : (rsHandle p rs wc).1.state.connected = true) :
    rs.state.connected = true ∧ (rsHandle p rs wc).1.state.writable = rs.state.writable := by
  cases wc with
  | send msg =>
    rw [rsHandle] at h ⊢
    split_ifs at h ⊢ with hsgl hctrl hdisc
    all_goals first
      | exact ⟨h,rfl⟩
      | exact absurd h (by simp [rsDisconnected])
  | recv msg =>
    rw [rsHandle] at h ⊢
    split_ifs at h ⊢ with hsgl hiomap hctrl hdisc hshut hwritable hwrite
    all_goals first
      | exact ⟨h,rfl⟩
      | exact absurd h (by simp [rsDisconnected])

/-- The loop of `rs_poll_cq` takes completions from the front, and the state tells why it is not
readable. -/
theorem pollLoop_state (p : Endpoint) (cq : List Wc) (rs : RSocket) (rcnt : ℕ) :
    ∃ polled, cq = polled++(rsPollLoop p rs cq rcnt).2.1 ∧
      ((rsPollLoop p rs cq rcnt).1.state.readable = false → rs.state.readable = false ∨
        (polled.filterMap Wc.recv?).any isClose = true ∨
        ∃ msg ∈ polled.filterMap Wc.send?, isDisconnect msg = true) ∧
      ((rsPollLoop p rs cq rcnt).1.state.connected = true → rs.state.connected = true ∧
        (rsPollLoop p rs cq rcnt).1.state.writable = rs.state.writable) := by
  induction cq generalizing rs rcnt with
  | nil => exact ⟨[],rfl,Or.inl,fun h => ⟨h,rfl⟩⟩
  | cons wc rest ih =>
    have hone := rsHandle_readable p rs wc
    have htwo := rsHandle_connected p rs wc
    have hfirst : (rsHandle p rs wc).1.state.readable = false → ∀ polled,
        rs.state.readable = false ∨ ((wc::polled).filterMap Wc.recv?).any isClose = true ∨
          ∃ msg ∈ (wc::polled).filterMap Wc.send?, isDisconnect msg = true := by
      intro h polled
      rcases hone h with hold | ⟨msg,rfl,hmsg⟩ | ⟨msg,rfl,hmsg⟩
      · exact Or.inl hold
      · exact Or.inr (Or.inl (by simp [Wc.recv?,hmsg]))
      · exact Or.inr (Or.inr ⟨msg,by simp [Wc.send?],hmsg⟩)
    rw [rsPollLoop]
    by_cases hstop : (rsHandle p rs wc).2 = true
    · rw [if_pos hstop]
      exact ⟨[wc],rfl,fun h => hfirst h [],htwo⟩
    · rw [if_neg hstop]
      obtain ⟨polled,hsplit,hread,hconn⟩ := ih (rsHandle p rs wc).1
        (if wc.recv?.isSome then rcnt+1 else rcnt)
      refine ⟨wc::polled,by rw [List.cons_append,← hsplit],fun h => ?_,fun h => ?_⟩
      · rcases hread h with hold | hclose | ⟨msg,hmem,hmsg⟩
        · exact hfirst hold polled
        · refine Or.inr (Or.inl ?_)
          cases wc with
          | send m => exact hclose
          | recv m =>
            show (m::polled.filterMap Wc.recv?).any isClose = true
            rw [List.any_cons,hclose,Bool.or_true]
        · refine Or.inr (Or.inr ⟨msg,?_,hmsg⟩)
          cases wc with
          | send m => exact List.mem_cons_of_mem _ hmem
          | recv m => exact hmem
      · obtain ⟨hcon,hwr⟩ := hconn h
        obtain ⟨hcon',hwr'⟩ := htwo hcon
        exact ⟨hcon',hwr.trans hwr'⟩

/-! ## Steps -/

/-- A side that may close its stream and its peer. -/
def Ends (q h : Host) (closing eof : Bool) : Prop :=
  Leaving q.rs.state q.ctrl (wire q h) closing eof ∧ Reading h.rs.state h.ctrl (outMsgs h) eof

/-- What a move of one host and its peer leaves as it is when it posts nothing. -/
structure Silent (x y x' y' : Host) : Prop where
  state : x'.rs.state = x.rs.state
  ctrl : x'.ctrl = x.ctrl
  state_peer : y'.rs.state = y.rs.state
  ctrl_peer : y'.ctrl = y.ctrl
  wire : wire x' y' = wire x y
  wire_back : RsocketStream.wire y' x' = RsocketStream.wire y x
  out : outMsgs x' = outMsgs x
  out_peer : outMsgs y' = outMsgs y

variable {q h q' h' : Host}

theorem Ends.silent (he : Ends q h closing eof) (hs : Silent q h q' h') : Ends q' h' closing eof := by
  rw [Ends,hs.state,hs.ctrl,hs.state_peer,hs.ctrl_peer,hs.wire,hs.out_peer]
  exact he

theorem Ends.silent_back (he : Ends q h closing eof) (hs : Silent h q h' q') :
    Ends q' h' closing eof := by
  rw [Ends,hs.state,hs.ctrl,hs.state_peer,hs.ctrl_peer,hs.wire_back,hs.out]
  exact he

/-- A request of neither the stream nor the end of it. -/
structure Posting (act : Act) (x x' : Host) : Prop where
  posted : ∃ rs mem ctrlMem wr, rs.state = x.rs.state ∧ x' = posted x rs mem ctrlMem wr ∧
    isClose wr.msg = false ∧ isDisconnect wr.msg = false ∧
    (isData wr.msg = true → ∃ buf olen, act = .send buf olen)

theorem Posting.of {act : Act} {x x' : Host} {rs : RSocket} {mem : Memory} {ctrlMem : ℕ → Sge}
    {op n : ℕ} {imm : Bool} {src : Src} {dest : Dest}
    (heq : x' = RsocketSteps.posted x rs mem ctrlMem ⟨rsMsgSet op n,imm,src,dest⟩)
    (hstate : rs.state = x.rs.state) (hn : n < 2^29) (hop : op ≠ rsOpCtrl)
    (hdata : op = rsOpData → ∃ buf olen, act = .send buf olen)
    (hkind : op = rsOpData ∨ isData (rsMsgSet op n) = false) : Posting act x x' := by
  refine ⟨rs,mem,ctrlMem,_,hstate,heq,?_,?_,fun h => ?_⟩
  · simp [isClose,rsMsgOp_set op n hn,hop]
  · simp [isDisconnect,rsMsgOp_set op n hn,hop]
  · rcases hkind with hop' | hnot
    · exact hdata hop'
    · exact absurd h (by simp [hnot])

theorem Ends.post (he : Ends q h closing eof) {act : Act} (hp : Posting act q q')
    (hopen : (∃ buf olen, act = .send buf olen) → closing = false) : Ends q' h closing eof := by
  obtain ⟨rs,mem,ctrlMem,wr,hstate,rfl,hclose,-,hdata⟩ := hp.posted
  refine ⟨?_,he.2⟩
  show Leaving rs.state q.ctrl _ closing eof
  rw [wire_posted,hstate]
  cases himm : wr.imm with
  | false =>
    rw [if_neg (by simp),List.append_nil]
    exact he.1
  | true =>
    rw [if_pos rfl]
    cases hkind : isData wr.msg with
    | true => exact he.1.send (hopen (hdata hkind)) wr.msg hclose
    | false =>
      refine he.1.post [wr.msg] (by simp [datas,hkind]) fun msg hmem hmsg => ?_
      rw [List.mem_singleton.mp hmem,hclose] at hmsg
      exact absurd hmsg (by simp)

theorem Ends.post_back (he : Ends q h closing eof) {act : Act} (hp : Posting act h h') :
    Ends q h' closing eof := by
  obtain ⟨rs,mem,ctrlMem,wr,hstate,rfl,-,hdisc,-⟩ := hp.posted
  refine ⟨he.1,?_⟩
  show Reading rs.state h.ctrl (outMsgs (RsocketSteps.posted h rs mem ctrlMem wr)) eof
  rw [RsocketSteps.posted,outMsgs_post,hstate]
  exact he.2.post wr.msg fun hmsg => absurd hmsg (by simp [hdisc])

theorem Silent.refl (x y : Host) : Silent x y x y := ⟨rfl,rfl,rfl,rfl,rfl,rfl,rfl,rfl⟩

/-- Placing changes memory and targets. -/
theorem placeUnit_frame (p peer : Endpoint) (h other : Host) (wr : SendWr) (i : ℕ) :
    (placeUnit p peer h other wr i).rs.state = other.rs.state ∧
      (placeUnit p peer h other wr i).sq = other.sq ∧ (placeUnit p peer h other wr i).cq = other.cq ∧
      (placeUnit p peer h other wr i).acks = other.acks := by
  rw [placeUnit]
  split
  · dsimp only
    split_ifs <;> exact ⟨rfl,rfl,rfl,rfl⟩
  · exact ⟨rfl,rfl,rfl,rfl⟩
  · exact ⟨rfl,rfl,rfl,rfl⟩
  · exact ⟨rfl,rfl,rfl,rfl⟩

theorem silent_place (p peer : Endpoint) (x y : Host) (wr : SendWr) (n i : ℕ) :
    Silent x y {x with placed := n} (placeUnit p peer x y wr i) := by
  obtain ⟨hstate,hsq,hcq,hacks⟩ := placeUnit_frame p peer x y wr i
  refine ⟨rfl,rfl,hstate,placeUnit_ctrl p peer x y wr i,?_,?_,rfl,?_⟩
  · simp only [RsocketStream.wire,recvMsgs,sendMsgs,hcq]
  · simp only [RsocketStream.wire,recvMsgs,sendMsgs,hsq]
  · simp only [outMsgs,hsq,hcq,hacks]

theorem silent_deliver (x y : Host) {wr : SendWr} {rest : List SendWr} (hsq : x.sq = wr::rest) :
    Silent x y (afterDeliver x wr rest) (noticed y wr) := by
  refine ⟨rfl,rfl,?_,noticed_ctrl y wr,wire_deliver hsq,wire_deliver_back y x wr rest,
    outMsgs_deliver x hsq,?_⟩
  · rw [noticed]
    split <;> rfl
  · rw [noticed]
    split
    · simp [outMsgs,Wc.send?]
    · rfl

theorem silent_complete (x y : Host) {wr : SendWr} {rest : List SendWr} (hacks : x.acks = wr::rest) :
    Silent x y {x with acks := rest,cq := x.cq++[.send wr.msg]} y := by
  refine ⟨rfl,rfl,rfl,rfl,rfl,?_,?_,rfl⟩
  · simp [RsocketStream.wire,recvMsgs,Wc.recv?]
  · simp only [outMsgs,hacks,List.filterMap_append,List.map_cons,List.append_assoc]
    rfl

theorem silent_recv (p : Endpoint) (x y : Host) (len : ℕ) : Silent x y (rrecv p x len).1 y := by
  obtain ⟨rmsg,head,seqNo,offset,avail,heq⟩ :=
    rrecvLoop_received p x.rbufMem (rrecvFuel p) x.rs len
  rw [rrecv]
  dsimp only
  rw [heq]
  exact ⟨rfl,rfl,rfl,rfl,rfl,rfl,rfl,rfl⟩

variable {p : Side → Endpoint} {w w' : System} {s r : Side}

theorem posting_send (hinv : Inv p w) {buf : List Byte} {olen : ℕ}
    (hbuf : buf ≠ []) (hpos : 0 < olen) (hmax : olen ≤ rsMaxTransfer) (hcan : rsCanSend (w.host r).rs) :
    Posting (.send buf olen) (w.host r) (rsendBody (p r) (w.host r) buf olen) := by
  obtain ⟨t,f,hlinked⟩ := hinv.linked
  obtain ⟨-,-,hxmax,-,-⟩ :=
    xferSize_spec (w.host r).rs hcan (List.length_pos_of_ne_nil hbuf) hpos hmax
  have hfree : (outMsgs (w.host r)).length < (p r).sqSize := (hlinked r).host.free_entry hcan.1
  exact Posting.of (rsendBody_eq hfree buf olen) rfl (data_lt hxmax) (by decide)
    (fun _ => ⟨buf,olen,rfl⟩) (Or.inl rfl)

theorem posting_credits (hp : ∀ s, Sound (p s)) (hinv : Inv p w)
    (hgive : rsGiveCredits (p r) (w.host r).rs) :
    Posting .credits (w.host r) (rsSendCredits (p r) (w.host r)) := by
  obtain ⟨t,f,hlinked⟩ := hinv.linked
  have hfree : (outMsgs (w.host r)).length < (p r).sqSize :=
    (hlinked r).host.free_ctrl_entry hgive.2.1
  have hlt : (w.host r).rs.rseqNo+(p r).rqSize < 2^29 :=
    Counting.credit_lt (hlinked r).back.counting (hp r)
  have hdata : isData (rsMsgSet rsOpSgl ((w.host r).rs.rseqNo+(p r).rqSize)) = false := by
    rw [isData_set _ _ hlt]
    rfl
  by_cases hhalf : ((p r).half : ℤ) ≤ (w.host r).rs.rbufBytesAvail
  · exact Posting.of (rsSendCredits_grant hfree hhalf) rfl hlt (by decide)
      (fun h => absurd h (by decide)) (Or.inr hdata)
  · exact Posting.of (rsSendCredits_announce hfree hhalf) rfl hlt (by decide)
      (fun h => absurd h (by decide)) (Or.inr hdata)

/-- Except for polling and `rshutdown`, a step posts a request or is silent. -/
theorem step_move (hp : ∀ s, Sound (p s)) (hinv : Inv p w) {act : Act} (hpoll : act ≠ .poll)
    (hpost : act ≠ .shutdownPost) (hshut : ∀ how, act ≠ .shutdown how)
    (hstep : step p w (r,act) = some w') :
    (Posting act (w.host r) (w'.host r) ∧ w'.host (!r) = w.host (!r) ∨
      Silent (w.host r) (w.host (!r)) (w'.host r) (w'.host (!r))) ∧
      w'.closing = w.closing ∧ w'.eof = w.eof := by
  obtain ⟨t,f,hlinked⟩ := hinv.linked
  rw [step] at hstep
  cases act with
  | send buf olen =>
    dsimp only at hstep
    split_ifs at hstep with hguard
    obtain ⟨hbuf,hpos,hmax,hcan⟩ := hguard
    obtain rfl := Option.some.inj hstep
    refine ⟨Or.inl ⟨?_,by simp [setHost,setHosts]⟩,rfl,rfl⟩
    simpa [setHost,setHosts] using posting_send hinv hbuf hpos hmax hcan
  | iomap index record =>
    dsimp only at hstep
    split_ifs at hstep with hguard
    obtain ⟨hlen,hindex,hcan⟩ := hguard
    obtain rfl := Option.some.inj hstep
    have hdata : isData (rsMsgSet rsOpIomapSgl index) = false := by
      rw [isData_set _ _ (index_lt hindex)]
      rfl
    refine ⟨Or.inl ⟨?_,by simp [setHost,setHosts]⟩,rfl,rfl⟩
    simp only [setHost,setHosts,if_true]
    have hfree : (outMsgs (w.host r)).length < (p r).sqSize := (hlinked r).host.free_entry hcan.1
    exact Posting.of (rsSendIomap_eq hfree index record) rfl (index_lt hindex) (by decide)
      (fun h => absurd h (by decide)) (Or.inr hdata)
  | iowrite bytes addr key =>
    dsimp only at hstep
    split_ifs at hstep with hguard
    obtain ⟨-,hroom,hmax,hkey,hcan⟩ := hguard
    obtain rfl := Option.some.inj hstep
    have hdata : isData (rsMsgSet rsOpWrite bytes.length) = false := by
      rw [isData_set _ _ (data_lt hmax)]
      rfl
    refine ⟨Or.inl ⟨?_,by simp [setHost,setHosts]⟩,rfl,rfl⟩
    simp only [setHost,setHosts,if_true]
    have hfree : (outMsgs (w.host r)).length < (p r).sqSize := (hlinked r).host.free_entry hcan.1
    exact Posting.of (riowriteBody_eq hfree bytes addr key) rfl (data_lt hmax) (by decide)
      (fun h => absurd h (by decide)) (Or.inr hdata)
  | recv len =>
    obtain rfl := Option.some.inj hstep
    refine ⟨Or.inr ?_,rfl,rfl⟩
    simpa [setHost,setHosts] using silent_recv (p r) (w.host r) (w.host (!r)) len
  | credits =>
    obtain rfl := Option.some.inj hstep
    refine ⟨?_,rfl,rfl⟩
    by_cases hgive : rsGiveCredits (p r) (w.host r).rs
    · refine Or.inl ⟨?_,by simp [setHost,setHosts]⟩
      simpa [setHost,setHosts,rsUpdateCredits,hgive] using posting_credits hp hinv hgive
    · refine Or.inr ?_
      simpa [setHost,setHosts,rsUpdateCredits,hgive] using Silent.refl (w.host r) (w.host (!r))
  | poll => exact absurd rfl hpoll
  | shutdown how => exact absurd rfl (hshut how)
  | shutdownPost => exact absurd rfl hpost
  | keepalive =>
    obtain rfl := Option.some.inj hstep
    refine ⟨?_,rfl,rfl⟩
    by_cases hcan : (w.host r).rs.state.connected = true ∧ rsCtrlAvail (w.host r).rs
    · refine Or.inl ⟨?_,by simp [setHost,setHosts]⟩
      have hfree : (outMsgs (takeCtrl (w.host r))).length < (p r).sqSize :=
        (hlinked r).host.free_ctrl_entry hcan.2
      simp only [setHost,setHosts,if_true]
      rw [tcpSvcSendKeepalive,postCtrl_pos hcan,rsPostWrite,ibvPostSend_of_lt hfree]
      exact ⟨(takeCtrl (w.host r)).rs,_,_,_,rfl,rfl,by decide,by decide,fun h => absurd h (by decide)⟩
    · refine Or.inr ?_
      simp only [setHost,setHosts,if_true]
      rw [tcpSvcSendKeepalive,postCtrl_neg hcan]
      simpa using Silent.refl (w.host r) (w.host (!r))
  | place =>
    dsimp only at hstep
    split at hstep
    · rename_i wr rest hsq
      split_ifs at hstep with hlt
      obtain rfl := Option.some.inj hstep
      refine ⟨Or.inr ?_,rfl,rfl⟩
      simpa [setHosts] using silent_place (p r) (p (!r)) (w.host r) (w.host (!r)) wr _ _
    · cases hstep
  | deliver =>
    dsimp only at hstep
    split at hstep
    · rename_i wr rest hsq
      split_ifs at hstep with hguard
      obtain rfl := Option.some.inj hstep
      refine ⟨Or.inr ?_,rfl,rfl⟩
      simpa [setHosts] using silent_deliver (w.host r) (w.host (!r)) hsq
    · cases hstep
  | complete =>
    dsimp only at hstep
    split at hstep
    · rename_i wr rest hacks
      obtain rfl := Option.some.inj hstep
      refine ⟨Or.inr ?_,rfl,rfl⟩
      simpa [setHost,setHosts] using silent_complete (w.host r) (w.host (!r)) hacks
    · cases hstep

/-! ## Polling and closing -/

theorem recvMsgs_split {polled rest : List Wc} (hcq : h.cq = polled++rest) :
    recvMsgs h = polled.filterMap Wc.recv?++rest.filterMap Wc.recv? := by
  rw [recvMsgs,hcq,List.filterMap_append]

theorem polledMsgs_eq {polled : List Wc} (hcq : h.cq = polled++h'.cq) :
    polledMsgs h h' = polled.filterMap Wc.recv? := by
  rw [polledMsgs,hcq,List.length_append,Nat.add_sub_cancel,List.take_left]

theorem mem_outMsgs_poll {polled : List Wc} (hcq : h.cq = polled++h'.cq) (hsq : h'.sq = h.sq)
    (hacks : h'.acks = h.acks) : outMsgs h = polled.filterMap Wc.send?++outMsgs h' := by
  rw [outMsgs,outMsgs,hcq,hsq,hacks,List.filterMap_append,List.append_assoc]

/-- The reader polls. -/
theorem Ends.poll (he : Ends q h closing eof) (pt : Endpoint) :
    Ends q (rsPollCq pt h) closing (eof || (polledMsgs h (rsPollCq pt h)).any isClose) := by
  obtain ⟨polled,hcq,hread,-⟩ := pollLoop_state pt h.cq h.rs 0
  have hcq' : h.cq = polled++(rsPollCq pt h).cq := hcq
  have hout := mem_outMsgs_poll hcq' rfl rfl
  rw [polledMsgs_eq hcq']
  constructor
  · have hleaving := he.1
    rw [wire,recvMsgs_split hcq',List.append_assoc] at hleaving
    exact hleaving.poll
  · have hreading := he.2
    refine ⟨fun hnot => ?_,fun hctrl => ?_,fun msg hmem hmsg => ?_⟩
    · rcases hread hnot with hold | hclose | ⟨msg,hmem,hmsg⟩
      · rw [hreading.readable hold,Bool.true_or]
      · rw [hclose,Bool.or_true]
      · rw [hreading.posted msg (by rw [hout]; exact List.mem_append_left _ hmem) hmsg,Bool.true_or]
    · rw [hreading.pending hctrl,Bool.true_or]
    · rw [hreading.posted msg (by rw [hout]; exact List.mem_append_right _ hmem) hmsg,Bool.true_or]

/-- The side that may close its stream polls. -/
theorem Ends.poll_back (he : Ends q h closing eof) (pt : Endpoint) :
    Ends (rsPollCq pt q) h closing eof := by
  obtain ⟨polled,-,-,hconn⟩ := pollLoop_state pt q.cq q.rs 0
  refine ⟨{he.1 with writable := fun hc hw => ?_},he.2⟩
  obtain ⟨hcon,hwr⟩ := hconn hc
  exact he.1.writable hcon (hwr.symm.trans hw)

/-- The reader closes its own stream. -/
theorem Ends.shutdown_wr (he : Ends q h closing eof) : Ends q (rshutdown h .wr) closing eof := by
  rw [rshutdown.eq_def]
  dsimp only
  by_cases hcon : h.rs.state.connected = true
  · rw [if_pos hcon]
    refine ⟨he.1,he.2.readable,fun hctrl => ?_,he.2.posted⟩
    cases hread : h.rs.state.readable with
    | true =>
      rw [hread] at hctrl
      exact absurd (Option.some.inj hctrl) (by decide)
    | false => exact he.2.readable hread
  · rw [if_neg hcon]
    exact he

/-- The other side calls `rshutdown`. -/
theorem Ends.shutdown (he : Ends q h closing eof) (how : How) :
    Ends (rshutdown q how) h (closing || how ≠ .rd) eof := by
  have hmono : closing = true → (closing || decide (how ≠ .rd)) = true := fun hc => by
    rw [hc,Bool.true_or]
  rw [rshutdown.eq_def]
  dsimp only
  by_cases hcon : q.rs.state.connected = true
  · rw [if_pos hcon]
    cases how with
    | rdwr => exact ⟨⟨fun _ _ => Bool.or_true _,fun _ => Bool.or_true _,fun _ _ _ => Bool.or_true _,
        fun _ => Bool.or_true _,he.1.last,he.1.done⟩,he.2⟩
    | wr => exact ⟨⟨fun _ _ => Bool.or_true _,fun _ => Bool.or_true _,fun _ _ _ => Bool.or_true _,
        fun _ => Bool.or_true _,he.1.last,he.1.done⟩,he.2⟩
    | rd =>
      refine ⟨⟨fun hc hw => hmono (he.1.writable hc hw),fun hctrl => hmono ?_,
        fun msg hmem hmsg => hmono (he.1.posted msg hmem hmsg),fun hs => hmono (he.1.seen hs),he.1.last,
        he.1.done⟩,he.2⟩
      cases hw : q.rs.state.writable with
      | true =>
        rw [hw] at hctrl
        exact absurd rfl hctrl
      | false => exact he.1.writable hcon hw
  · rw [if_neg hcon]
    exact ⟨⟨fun hc hw => hmono (he.1.writable hc hw),fun hctrl => hmono (he.1.pending hctrl),
      fun msg hmem hmsg => hmono (he.1.posted msg hmem hmsg),fun hs => hmono (he.1.seen hs),he.1.last,
      he.1.done⟩,he.2⟩

/-- The message of `rshutdown` is posted by the reader. -/
theorem Ends.shutdownPost_back (he : Ends q h closing eof) (pt : Endpoint) {c : ℕ} (hc : c < 2^29)
    (hctrl : h.ctrl = some c)
    (hfree : rsCtrlAvail h.rs → (outMsgs (takeCtrl h)).length < pt.sqSize) :
    Ends q (rshutdownPost pt h c) closing eof := by
  rw [rshutdownPost]
  by_cases hcan : h.rs.state.connected = true ∧ rsCtrlAvail h.rs
  · rw [postCtrl_pos hcan,rsPostMsg,ibvPostSend_of_lt (hfree hcan.2)]
    refine ⟨he.1,he.2.readable,fun hnone => absurd hnone (by simp),?_⟩
    have hpost := he.2.post (rsMsgSet rsOpCtrl c) fun hmsg => by
      refine he.2.pending ?_
      have hzero : c = rsCtrlDisconnect := by
        simpa [isDisconnect,rsMsgOp_set _ _ hc,rsMsgData_set _ _ hc] using hmsg
      rw [hctrl,hzero]
    intro msg hmem
    refine hpost.posted msg ?_
    rw [← outMsgs_post h (takeCtrl h).rs h.sbufMem h.ctrlMem ⟨rsMsgSet rsOpCtrl c,true,.none,.none⟩]
    exact hmem
  · rw [postCtrl_neg hcan]
    exact ⟨he.1,he.2.readable,fun hnone => absurd hnone (by simp),he.2.posted⟩

/-- And by the side that closes. -/
theorem Ends.shutdownPost (he : Ends q h closing eof) (pt : Endpoint) {c : ℕ} (hc : c < 2^29)
    (hctrl : q.ctrl = some c)
    (hfree : rsCtrlAvail q.rs → (outMsgs (takeCtrl q)).length < pt.sqSize) :
    Ends (rshutdownPost pt q c) h closing eof := by
  have hclosing : closing = true := he.1.pending (by simp [hctrl])
  rw [rshutdownPost]
  by_cases hcan : q.rs.state.connected = true ∧ rsCtrlAvail q.rs
  · rw [postCtrl_pos hcan,rsPostMsg,ibvPostSend_of_lt (hfree hcan.2)]
    refine ⟨?_,he.2⟩
    have hdata : isData (rsMsgSet rsOpCtrl c) = false := by
      rw [isData_set _ _ hc]
      rfl
    have hpost := he.1.post [rsMsgSet rsOpCtrl c] (by simp [datas,hdata]) fun _ _ _ => hclosing
    have hwire := wire_posted (a := q) (b := h) (takeCtrl q).rs q.sbufMem q.ctrlMem
      ⟨rsMsgSet rsOpCtrl c,true,.none,.none⟩
    rw [if_pos rfl] at hwire
    rw [← hwire] at hpost
    exact ⟨hpost.writable,fun _ => hclosing,hpost.posted,hpost.seen,hpost.last,hpost.done⟩
  · rw [postCtrl_neg hcan]
    exact ⟨{he.1 with pending := fun _ => hclosing},he.2⟩

/-- What is asked of a run for the reader `s`: it does not close its own reading, and its peer
does not send once it has closed its stream. -/
def Polite (s : Side) (w : System) (a : Side × Act) : Prop :=
  (a.1 = s → ∀ how, a.2 = .shutdown how → how = .wr) ∧
    (a.1 = !s → ∀ buf olen, a.2 = .send buf olen → w.closing (!s) = false)

theorem ends_step (hp : ∀ s, Sound (p s)) (hinv : Inv p w)
    (he : Ends (w.host (!s)) (w.host s) (w.closing (!s)) (w.eof s)) (a : Side × Act)
    (hok : Polite s w a) (hstep : step p w a = some w') :
    Ends (w'.host (!s)) (w'.host s) (w'.closing (!s)) (w'.eof s) := by
  obtain ⟨r,act⟩ := a
  obtain ⟨t,f,hlinked⟩ := hinv.linked
  have hfree : ∀ s, rsCtrlAvail (w.host s).rs →
      (outMsgs (takeCtrl (w.host s))).length < (p s).sqSize :=
    fun s havail => (hlinked s).host.free_ctrl_entry havail
  have hside : r = s ∨ r = !s := by cases r <;> cases s <;> simp
  by_cases hpoll : act = .poll
  · subst hpoll
    obtain rfl := Option.some.inj hstep
    rcases hside with rfl | rfl
    · simpa [setHost,setHosts] using he.poll (p r)
    · simpa [setHost,setHosts] using he.poll_back (p (!s))
  by_cases hpost : act = .shutdownPost
  · subst hpost
    rw [step] at hstep
    dsimp only at hstep
    split at hstep
    · rename_i c hc
      split_ifs at hstep with hguard
      obtain rfl := Option.some.inj hstep
      rcases hside with rfl | rfl
      · simpa [setHost,setHosts] using
          he.shutdownPost_back (p r) (hinv.ctrl r c hc) hc (hfree r)
      · simpa [setHost,setHosts] using
          he.shutdownPost (p (!s)) (hinv.ctrl (!s) c hc) hc (hfree (!s))
    · cases hstep
  by_cases hshut : ∃ how, act = .shutdown how
  · obtain ⟨how,rfl⟩ := hshut
    rw [step] at hstep
    dsimp only at hstep
    split_ifs at hstep with hguard
    obtain rfl := Option.some.inj hstep
    rcases hside with rfl | rfl
    · obtain rfl := hok.1 rfl how rfl
      simpa [setHost,setHosts] using he.shutdown_wr
    · simpa [setHost,setHosts] using he.shutdown how
  obtain ⟨hmove,hclosing,heof⟩ :=
    step_move hp hinv hpoll hpost (fun how h => hshut ⟨how,h⟩) hstep
  rw [hclosing,heof]
  rcases hside with rfl | rfl
  · rcases hmove with ⟨hposting,hpeer⟩ | hsilent
    · rw [hpeer]
      exact he.post_back hposting
    · exact he.silent_back hsilent
  · rw [Bool.not_not] at hmove
    rcases hmove with ⟨hposting,hpeer⟩ | hsilent
    · rw [hpeer]
      refine he.post hposting ?_
      rintro ⟨buf,olen,rfl⟩
      exact hok.2 rfl buf olen rfl
    · exact he.silent hsilent

theorem ends_started (p : Side → Endpoint) (junk : Side → Memory) (s : Side) :
    Ends ((started p junk).host (!s)) ((started p junk).host s) false false := by
  have hwire : wire ((started p junk).host (!s)) ((started p junk).host s) = [] := rfl
  have hout : outMsgs ((started p junk).host s) = [] := rfl
  rw [Ends,hwire,hout]
  refine ⟨⟨fun _ h => ?_,fun h => absurd rfl h,fun _ h => absurd h (by simp),fun h => absurd h (by simp),
    fun before msg after h => absurd h (by simp),fun h => absurd h (by simp)⟩,fun h => ?_,
    fun h => absurd h (by simp [started,startedHost]),fun _ h => absurd h (by simp)⟩
  · exact absurd (show true = false from h) (by decide)
  · exact absurd (show true = false from h) (by decide)

/-- The end of the stream is met only when all of it was read: a reader whose socket is no longer
readable and holds nothing has all that its peer has sent. -/
theorem got_all_of_eof (hp : ∀ s, Sound (p s)) (junk : Side → Memory) (acts : List (Side × Act))
    (hrun : runs p (started p junk) acts = some w) (s : Side)
    (hpolite : Along (step p) (Polite s) (started p junk) acts)
    (hread : (w.host s).rs.state.readable = false) (hempty : ¬rsHaveRdata (w.host s).rs) :
    w.got s = w.sent (!s) := by
  have hkept := run_invariant (step p) (Polite s)
    (fun v => Inv p v ∧ Ends (v.host (!s)) (v.host s) (v.closing (!s)) (v.eof s))
    (fun v a v' hv hok hstep => ⟨inv_step hp hv.1 a hstep,ends_step hp hv.1 hv.2 a hok hstep⟩)
    (started p junk) acts w ⟨inv_started hp junk,ends_started p junk s⟩ hpolite hrun
  obtain ⟨hinv,hleaving,hreading⟩ := hkept
  obtain ⟨t,f,hlinked⟩ := hinv.linked
  have hc := (hlinked s).back.counting
  have hdone : datas (wire (w.host (!s)) (w.host s)) = [] :=
    hleaving.done (hreading.readable hread)
  have hqueued : (f (!s)).queued = [] := by
    by_contra hne
    exact hempty ((Counting.haveRdata_iff hc).mpr hne)
  have hbytes : (w.got s).length+(f (!s)).queued.sum+
      (datas (wire (w.host (!s)) (w.host s))).sum = (w.sent (!s)).length := hc.bytes
  have hinitial : w.got s <+: w.sent (!s) := (hlinked s).back.arriving.initial
  rw [hdone,hqueued] at hbytes
  exact hinitial.eq_of_length hbytes

/-- A byte, then the end of the stream. -/
def closingActs : List (Side × Act) :=
  [(false,.send [1] 2048),(false,.shutdown .wr),(false,.shutdownPost),(false,.place),(false,.deliver),
    (false,.deliver),(true,.poll),(true,.recv 8)]

instance (s : Side) (w : System) (a : Side × Act) : Decidable (Polite s w a) :=
  match a with
  | (r,.shutdown how) => decidable_of_iff (r = s → how = .wr) (by simp [Polite])
  | (r,.send buf olen) => decidable_of_iff (r = (!s) → w.closing (!s) = false) (by simp [Polite])
  | (r,.iomap _ _) | (r,.iowrite _ _ _) | (r,.recv _) | (r,.credits) | (r,.poll) | (r,.shutdownPost)
  | (r,.keepalive) | (r,.place) | (r,.deliver) | (r,.complete) => isTrue (by simp [Polite])

theorem got_all_of_eof_demo : ∃ w, runs demo (started demo fun _ _ => 0) closingActs = some w ∧
    w.got true = [1] ∧ w.got true = w.sent (!true) := by
  have hrun : (runs demo (started demo fun _ _ => 0) closingActs).map
      (fun w => (w.got true,decide ((w.host true).rs.state.readable = false ∧
        ¬rsHaveRdata (w.host true).rs))) = some ([1],true) := by decide +kernel
  obtain ⟨w,hw,hval⟩ := Option.map_eq_some_iff.mp hrun
  obtain ⟨hgot,hend⟩ := Prod.ext_iff.mp hval
  obtain ⟨hread,hempty⟩ := of_decide_eq_true hend
  exact ⟨w,hw,hgot,got_all_of_eof demo_sound _ _ hw true (by decide +kernel) hread hempty⟩

/-- `rsend` does not look at the state of a socket that can send, so that a peer may send behind
the end of its stream, and what it sends so may be missed. -/
example : (runs demo (started demo fun _ _ => 0)
    [(false,.shutdown .wr),(false,.shutdownPost),(false,.deliver),(true,.poll),
      (false,.send [1] 2048)]).map (fun w => ((w.host true).rs.state.readable,w.got true,w.sent false)) =
    some (false,[],[1]) := by decide +kernel

end FreeFlow.RsocketClosing
