import FreeFlow.RsocketAdapter

/-!
# Whole runs of a connection

The invariant of two connected ends holds when the connection is set up and
after every step of either side, so it holds after every run. What a user of a
socket relies on follows from it.
-/

set_option autoImplicit false

namespace FreeFlow.RsocketConnection

open ByteMemory (Memory)
open ByteOrder CircularStream LaidOut Rsocket RsocketPeers RsocketQueues RsocketStream RsocketSteps
  RsocketAdapter Runs

def endOf (w : System) (s : Side) : End := ⟨w.host s,w.sent s,w.got s,w.iomaps s⟩

structure Inv (p : Side → Endpoint) (w : System) : Prop where
  linked : ∃ (t : Side → Track) (f : Side → Flow), ∀ s,
    Linked (p s) (p (!s)) (t s) (t (!s)) (f s) (f (!s)) (endOf w s) (endOf w (!s))
  ctrl : ∀ s c, (w.host s).ctrl = some c → c < 2^29

variable {p : Side → Endpoint} {w w' : System} {s : Side}

/-- What holds seen from one side holds seen from the other. -/
theorem linked_of (s : Side) {ta tb : Track} {f g : Flow}
    (h : Linked (p s) (p (!s)) ta tb f g (endOf w s) (endOf w (!s))) :
    ∃ (t : Side → Track) (f : Side → Flow), ∀ s,
      Linked (p s) (p (!s)) (t s) (t (!s)) (f s) (f (!s)) (endOf w s) (endOf w (!s)) := by
  refine ⟨fun r => if r = s then ta else tb,fun r => if r = s then f else g,fun r => ?_⟩
  by_cases hr : r = s
  · subst hr
    simpa using h
  · obtain rfl : r = !s := by cases r <;> cases s <;> simp_all
    simpa using h.symm

/-! ## Setting up -/

/-- A field of the connection data arrives whatever the two byte orders are. -/
theorem conn_field (a b : Bool) (k x : ℕ) (hx : x < 256^k) :
    hton a k (load a (store b k (hton b k x))) = x := by
  rw [store_hton,hton_load a k x hx]

theorem started_target (pa pb : Endpoint) (hp : Sound pb) :
    (rsConnected pa (rsFormatConnData pb)).targetSgl =
      Function.update (fun _ => ⟨0,0,0⟩) 0 ⟨pb.rbuf,pb.rkey,pb.half⟩ := by
  have haddr : pb.rbuf < 256^8 := by
    have hpos := hp.rbuf_pos
    have hle := hp.rbuf_addr
    omega
  have hhalf : pb.half < 256^4 := by
    have hlt := hp.rbuf_lt
    have hsize := hp.size_eq
    omega
  show Function.update (fun _ => Sge.mk 0 0 0) 0 (Sge.mk
    (hton pa.net 8 (load pa.net (store pb.net 8 (hton pb.net 8 pb.rbuf))))
    (hton pa.net 4 (load pa.net (store pb.net 4 (hton pb.net 4 pb.rkey))))
    (hton pa.net 4 (load pa.net (store pb.net 4 (hton pb.net 4 pb.half))))) = _
  rw [conn_field _ _ 8 _ haddr,conn_field _ _ 4 _ hp.rkey_lt,conn_field _ _ 4 _ hhalf]

theorem started_credits (pa pb : Endpoint) (hp : Sound pb) :
    (rsConnected pa (rsFormatConnData pb)).sseqComp = pb.rqSize := by
  have hle := hp.rq_le
  have hmax : rsQpMaxSize = 0xFFFE := rfl
  exact conn_field _ _ 2 _ (by omega)

def startedTrack : Track := ⟨[],⟨0,0,1,1⟩,0,1⟩

def startedFlow (p : Endpoint) : Flow := ⟨CreditWindow.started p.rqSize,1,0,[]⟩

theorem started_host (pa pb : Endpoint) (hp : Sound pa) (junk : Memory) :
    HostInv pa pb startedTrack (startedHost pa pb junk) [] := by
  have hsq := hp.sq_ge
  have hmin : rsQpMinSize = 16 := rfl
  have hctrl : rsQpCtrlSize = 4 := rfl
  refine ⟨.nil _,fun _ => rfl,fun _ _ h => absurd h (by simp [startedHost]),rfl,rfl,Nat.zero_le _,?_,?_,
    ?_,?_,holds_empty (Nat.le_refl _),?_,?_,?_,le_rfl,rfl⟩
  · show (pa.sqSize : ℤ)-rsQpCtrlSize+(0 : ℕ) = _
    omega
  · show (0 : ℤ) ≤ (pa.sqSize : ℤ)-rsQpCtrlSize
    omega
  · show (pa.sbufSize : ℤ)+(0 : ℕ) = _
    omega
  · show (0 : ℤ) ≤ (pa.sbufSize : ℤ)
    omega
  · show pa.sbuf = pa.sbuf+0%pa.sbufSize
    rw [Nat.zero_mod]
    rfl
  · show ((pa.net && !pb.net) || (!pa.net && pb.net)) = decide (pa.net ≠ pb.net)
    cases pa.net <;> cases pb.net <;> rfl
  · exact conn_field _ _ 4 _ (by decide)

theorem started_dir (pa pb : Endpoint) (hpb : Sound pb) (ja jb : Memory) :
    Dir pb startedTrack startedTrack (startedFlow pb) (startedHost pa pb ja) (startedHost pb pa jb)
      [] [] 0 := by
  have hle := hpb.rq_le
  have hmax : rsQpMaxSize = 0xFFFE := rfl
  have hsize := hpb.size_eq
  have hpos := hpb.half_pos
  have hsgl := started_target pa pb hpb
  refine ⟨⟨CreditWindow.inv_started _,rfl,?_,rfl,?_,.nil,RingQueue.holds_empty _ _ (Nat.succ_pos _) _,rfl,
    rfl⟩,⟨DoubleBuffer.inv_started hpos,?_,?_,rfl,?_,Nat.zero_le _,rfl,?_,?_,rfl,?_⟩,
    ⟨holds_empty (Nat.zero_le _),rfl,List.prefix_rfl⟩⟩
  · refine (started_credits pa pb hpb).trans ?_
    exact (Nat.mod_eq_of_lt (show pb.rqSize < 65536 by omega)).symm
  · show pb.rqSize/2 = (pb.rqSize-pb.rqSize+pb.rqSize/2)%65536
    omega
  · show (pb.half : ℤ) = (pb.rbufSize : ℤ)+(0 : ℕ)-((1*pb.half : ℕ) : ℤ)
    omega
  · show pb.half = 1%2*pb.half
    omega
  · show 0%pb.rbufSize = 0%pb.rbufSize
    rfl
  · show Filled pb ((rsConnected pa (rsFormatConnData pb)).targetSgl 0) (0%pb.rbufSize) ((0+1)*pb.half-0)
    rw [hsgl,Function.update_self,Nat.zero_mod,Nat.zero_add,Nat.one_mul,Nat.sub_zero]
    exact ⟨rfl,fun _ => ⟨rfl,rfl⟩⟩
  · show Filled pb ((rsConnected pa (rsFormatConnData pb)).targetSgl 1) _ 0
    rw [hsgl,Function.update_of_ne (by decide)]
    exact ⟨rfl,fun h => absurd h (by decide)⟩
  · intro wr rest hsq
    exact absurd hsq (by simp [startedHost])

theorem inv_started (hp : ∀ s, Sound (p s)) (junk : Side → Memory) : Inv p (started p junk) := by
  refine ⟨linked_of false ⟨started_host (p false) (p true) (hp false) (junk false),
    started_host (p true) (p false) (hp true) (junk true),
    started_dir (p false) (p true) (hp true) (junk false) (junk true),
    started_dir (p true) (p false) (hp false) (junk true) (junk false)⟩,?_⟩
  intro s c h
  exact absurd h (by simp [started,startedHost])

/-! ## Every step -/

theorem ibvPostSend_ctrl (p : Endpoint) (h : Host) (wr : SendWr) :
    (ibvPostSend p h wr).ctrl = h.ctrl := by
  rw [ibvPostSend]
  split <;> rfl

theorem rsendBody_ctrl (p : Endpoint) (h : Host) (buf : List Byte) (olen : ℕ) :
    (rsendBody p h buf olen).ctrl = h.ctrl := by
  rw [rsendBody,advanceSsgl,rsWriteData,rsPostWriteMsg]
  exact ibvPostSend_ctrl _ _ _

theorem rsSendIomap_ctrl (p : Endpoint) (h : Host) (index : ℕ) (record : List Byte) :
    (rsSendIomap p h index record).ctrl = h.ctrl := by
  rw [rsSendIomap,advanceSsgl,rsWriteIomap,rsPostWriteMsg]
  exact ibvPostSend_ctrl _ _ _

theorem riowriteBody_ctrl (p : Endpoint) (h : Host) (bytes : List Byte) (addr key : ℕ) :
    (riowriteBody p h bytes addr key).ctrl = h.ctrl := by
  rw [riowriteBody,advanceSsgl,rsWriteDirect,rsPostWrite]
  exact ibvPostSend_ctrl _ _ _

theorem rsUpdateCredits_ctrl (p : Endpoint) (h : Host) : (rsUpdateCredits p h).ctrl = h.ctrl := by
  rw [rsUpdateCredits]
  split
  · rw [rsSendCredits]
    dsimp only
    split <;> exact ibvPostSend_ctrl _ _ _
  · rfl

theorem placeUnit_ctrl (p peer : Endpoint) (h other : Host) (wr : SendWr) (i : ℕ) :
    (placeUnit p peer h other wr i).ctrl = other.ctrl := by
  rw [placeUnit]
  split
  · dsimp only
    split_ifs <;> rfl
  · rfl
  · rfl
  · rfl

theorem noticed_ctrl (other : Host) (wr : SendWr) : (noticed other wr).ctrl = other.ctrl := by
  rw [noticed]
  split <;> rfl

/-- A step changes the two ends and nothing else. -/
theorem Inv.next (s : Side) {A B : End} {ta tb : Track} {f g : Flow}
    (h : Linked (p s) (p (!s)) ta tb f g A B) (hA : endOf w' s = A) (hB : endOf w' (!s) = B)
    (hcA : ∀ c, A.host.ctrl = some c → c < 2^29) (hcB : ∀ c, B.host.ctrl = some c → c < 2^29) :
    Inv p w' := by
  subst hA
  subst hB
  refine ⟨linked_of s h,fun r c hc => ?_⟩
  by_cases hr : r = s
  · subst hr
    exact hcA c hc
  · obtain rfl : r = !s := by cases r <;> cases s <;> simp_all
    exact hcB c hc

theorem rshutdown_ctrl {h : Host} {how : How} (hold : ∀ c, h.ctrl = some c → c < 2^29) :
    ∀ c, (rshutdown h how).ctrl = some c → c < 2^29 := by
  intro c hc
  have hcases : h.ctrl = some c ∨ c = rsCtrlDisconnect ∨ c = rsCtrlShutdown := by
    unfold rshutdown at hc
    cases how <;> dsimp only at hc <;> split_ifs at hc <;> simp_all
  rcases hcases with heq | rfl | rfl
  · exact hold c heq
  · decide
  · decide

theorem postCtrl_pos {h : Host} (hcan : h.rs.state.connected = true ∧ rsCtrlAvail h.rs)
    (post : Host → Host) : postCtrl h post = post (takeCtrl h) := if_pos hcan

theorem postCtrl_neg {h : Host} (hcan : ¬(h.rs.state.connected = true ∧ rsCtrlAvail h.rs))
    (post : Host → Host) : postCtrl h post = h := if_neg hcan

/-- Every step keeps the invariant. -/
theorem inv_step (hp : ∀ s, Sound (p s)) (hinv : Inv p w) (a : Side × Act)
    (hstep : step p w a = some w') : Inv p w' := by
  obtain ⟨s,act⟩ := a
  obtain ⟨t,f,hlinked⟩ := hinv.linked
  have h := hlinked s
  have hcs := hinv.ctrl s
  have hco := hinv.ctrl (!s)
  rw [step] at hstep
  dsimp only at hstep
  cases act with
  | send buf olen =>
    simp only at hstep
    split_ifs at hstep with hguard
    obtain ⟨hbuf,hpos,hmax,hcan⟩ := hguard
    obtain rfl := Option.some.inj hstep
    obtain ⟨ta,fa,hnext⟩ := Linked.send h (hp s) (hp (!s)) hbuf hpos hmax hcan
    refine Inv.next s hnext (by simp [endOf,setHost,setHosts]) (by simp [endOf,setHost,setHosts]) ?_ hco
    rw [rsendBody_ctrl]
    exact hcs
  | iomap index record =>
    simp only at hstep
    split_ifs at hstep with hguard
    obtain ⟨hlen,hindex,hcan⟩ := hguard
    obtain rfl := Option.some.inj hstep
    obtain ⟨ta,fa,hnext⟩ := Linked.iomap h (hp s) hlen hindex hcan
    refine Inv.next s hnext (by simp [endOf,setHost,setHosts]) (by simp [endOf,setHost,setHosts]) ?_ hco
    rw [rsSendIomap_ctrl]
    exact hcs
  | iowrite bytes addr key =>
    simp only at hstep
    split_ifs at hstep with hguard
    obtain ⟨-,hroom,hmax,hkey,hcan⟩ := hguard
    obtain rfl := Option.some.inj hstep
    obtain ⟨ta,hnext⟩ := Linked.iowrite h (hp s) addr hroom hmax hkey hcan
    refine Inv.next s hnext (by simp [endOf,setHost,setHosts]) (by simp [endOf,setHost,setHosts]) ?_ hco
    rw [riowriteBody_ctrl]
    exact hcs
  | recv len =>
    obtain rfl := Option.some.inj hstep
    obtain ⟨-,ga,hnext⟩ := Linked.recv h (hp s) len
    exact Inv.next s hnext (by simp [endOf,setHost,setHosts]) (by simp [endOf,setHost,setHosts]) hcs hco
  | credits =>
    obtain rfl := Option.some.inj hstep
    have hctrl : ∀ c, (rsUpdateCredits (p s) (w.host s)).ctrl = some c → c < 2^29 := by
      rw [rsUpdateCredits_ctrl]
      exact hcs
    by_cases hgive : rsGiveCredits (p s) (w.host s).rs
    · obtain ⟨ta,ga,hnext⟩ := Linked.sendCredits h (hp s) hgive.2.1
      refine Inv.next s hnext ?_ (by simp [endOf,setHost,setHosts]) ?_ hco
      · simp [endOf,setHost,setHosts,rsUpdateCredits,hgive]
      · rw [rsUpdateCredits,if_pos hgive] at hctrl
        exact hctrl
    · refine Inv.next s h ?_ (by simp [endOf,setHost,setHosts]) hcs hco
      simp [endOf,setHost,setHosts,rsUpdateCredits,hgive]
  | poll =>
    obtain rfl := Option.some.inj hstep
    obtain ⟨fa,ga,hnext⟩ := Linked.poll h (hp s)
    exact Inv.next s hnext (by simp [endOf,setHost,setHosts]) (by simp [endOf,setHost,setHosts]) hcs hco
  | shutdown how =>
    simp only at hstep
    split_ifs at hstep with hguard
    obtain rfl := Option.some.inj hstep
    have hrs : rshutdown (w.host s) how = {w.host s with
        rs := {(w.host s).rs with state := (rshutdown (w.host s) how).rs.state}
        ctrl := (rshutdown (w.host s) how).ctrl} := by
      unfold rshutdown
      cases how <;> dsimp only <;> split_ifs <;> rfl
    have hnext := Linked.setState h (rshutdown (w.host s) how).rs.state (rshutdown (w.host s) how).ctrl
    refine Inv.next s hnext ?_ (by simp [endOf,setHost,setHosts]) (rshutdown_ctrl hcs) hco
    simp only [endOf,setHost,setHosts,if_true]
    rw [hrs]
  | shutdownPost =>
    simp only at hstep
    split at hstep
    · rename_i c hc
      split_ifs at hstep with hguard
      obtain rfl := Option.some.inj hstep
      by_cases hcan : (w.host s).rs.state.connected = true ∧ rsCtrlAvail (w.host s).rs
      · obtain ⟨ta,hpost⟩ := Linked.postCtrl h hcan.2 (hcs c hc) true
        have hnext := Linked.setState hpost (ibvPostSend (p s) (takeCtrl (w.host s))
          ⟨rsMsgSet rsOpCtrl c,true,.none,.none⟩).rs.state none
        refine Inv.next s hnext ?_ (by simp [endOf,setHost,setHosts]) (fun c hc => by simp at hc) hco
        simp only [endOf,setHost,setHosts,if_true]
        rw [rshutdownPost,postCtrl_pos hcan]
        rfl
      · have hnext := Linked.setState h (w.host s).rs.state none
        refine Inv.next s hnext ?_ (by simp [endOf,setHost,setHosts]) (fun c hc => by simp at hc) hco
        simp only [endOf,setHost,setHosts,if_true]
        rw [rshutdownPost,postCtrl_neg hcan]
    · cases hstep
  | keepalive =>
    obtain rfl := Option.some.inj hstep
    by_cases hcan : (w.host s).rs.state.connected = true ∧ rsCtrlAvail (w.host s).rs
    · obtain ⟨ta,hnext⟩ := Linked.postCtrl h hcan.2 (c := rsCtrlKeepalive) (by decide) false
      refine Inv.next s hnext ?_ (by simp [endOf,setHost,setHosts]) ?_ hco
      · simp only [endOf,setHost,setHosts,if_true]
        rw [tcpSvcSendKeepalive,postCtrl_pos hcan]
        rfl
      · rw [ibvPostSend_ctrl]
        exact hcs
    · refine Inv.next s h ?_ (by simp [endOf,setHost,setHosts]) hcs hco
      simp only [endOf,setHost,setHosts,if_true]
      rw [tcpSvcSendKeepalive,postCtrl_neg hcan]
  | place =>
    simp only at hstep
    split at hstep
    · rename_i wr rest hsq
      split_ifs at hstep with hlt
      obtain rfl := Option.some.inj hstep
      obtain ⟨ga,hnext⟩ := Linked.place h (hp s) (hp (!s)) hsq hlt
      refine Inv.next s hnext (by simp [endOf,setHosts]) (by simp [endOf,setHosts]) hcs ?_
      rw [placeUnit_ctrl]
      exact hco
    · cases hstep
  | deliver =>
    simp only at hstep
    split at hstep
    · rename_i wr rest hsq
      split_ifs at hstep with hguard
      obtain rfl := Option.some.inj hstep
      have hnext := Linked.deliver h hsq hguard.1 hguard.2
      refine Inv.next s hnext (by simp [endOf,setHosts]) (by simp [endOf,setHosts]) hcs ?_
      rw [noticed_ctrl]
      exact hco
    · cases hstep
  | complete =>
    simp only at hstep
    split at hstep
    · rename_i wr rest hacks
      obtain rfl := Option.some.inj hstep
      exact Inv.next s (Linked.complete h hacks) (by simp [endOf,setHost,setHosts])
        (by simp [endOf,setHost,setHosts]) hcs hco
    · cases hstep

theorem inv_run (hp : ∀ s, Sound (p s)) (junk : Side → Memory) (acts : List (Side × Act))
    (hrun : runs p (started p junk) acts = some w) : Inv p w :=
  run_preserves (step p) (Inv p) (fun _ a _ hI hstep => inv_step hp hI a hstep) _ acts w
    (inv_started hp junk) hrun

/-! ## What a user relies on -/

/-- What one side has read is an initial part of what the other has sent. -/
theorem got_initial_of_sent (hp : ∀ s, Sound (p s)) (junk : Side → Memory)
    (acts : List (Side × Act)) (hrun : runs p (started p junk) acts = some w) (s : Side) :
    w.got (!s) <+: w.sent s := by
  obtain ⟨t,f,hlinked⟩ := (inv_run hp junk acts hrun).linked
  exact (hlinked s).there.arriving.initial

/-- Two hosts of different byte orders, with receive buffers of four bytes. -/
def demo : Side → Endpoint
  | false => ⟨32,16,4096,4,0x1000,0x2000,7,false⟩
  | true => ⟨32,16,4096,4,0x1000,0x2000,9,true⟩

theorem demo_sound (s : Side) : Sound (demo s) := by
  cases s <;> constructor <;> decide

/-- Three bytes are sent in two messages, the second one in a half that was granted after the first
was sent. -/
def demoActs : List (Side × Act) :=
  [(false,.send [1,2,3] 2048),(true,.credits),(true,.place),(true,.place),(true,.place),
    (true,.deliver),(false,.poll),(false,.send [3] 2048),(false,.place),(false,.place),
    (false,.deliver),(false,.place),(false,.deliver),(true,.poll),(true,.recv 2)]

theorem got_initial_of_sent_demo : ∃ w, runs demo (started demo fun _ _ => 0) demoActs = some w ∧
    w.sent false = [1,2,3] ∧ w.got true = [1,2] ∧ w.got (!false) <+: w.sent false := by
  have hrun : (runs demo (started demo fun _ _ => 0) demoActs).map
      (fun w => (w.sent false,w.got true)) = some ([1,2,3],[1,2]) := by decide +kernel
  obtain ⟨w,hw,hval⟩ := Option.map_eq_some_iff.mp hrun
  obtain ⟨hsent,hgot⟩ := Prod.ext_iff.mp hval
  exact ⟨w,hw,hsent,hgot,got_initial_of_sent demo_sound _ _ hw false⟩

/-- The bytes that are polled and not read. -/
def ringBytes (p : Endpoint) (rs : RSocket) : ℕ :=
  ((RingQueue.contents (p.rqSize+1) (msgRing rs)).map RsMsg.data).sum

theorem queued_eq {pb : Endpoint} {f : Flow} {a b : Host} {sent got : List Byte} {iomaps : ℕ}
    (hc : Counting pb f a b sent got iomaps) :
    (RingQueue.contents (pb.rqSize+1) (msgRing b.rs)).map RsMsg.data = f.queued := by
  have hle := Counting.queued_le hc
  exact hc.queue.contents RsMsg.data (by omega)

theorem rrecvLoop_zero (p : Endpoint) (mem : Memory) (fuel : ℕ) (rs : RSocket) :
    (rrecvLoop p mem fuel rs 0).2 = [] := by
  cases fuel with
  | zero => rfl
  | succ fuel => rw [rrecvLoop,if_pos (Or.inl rfl)]

theorem rsPeekLoop_zero (p : Endpoint) (mem : Memory) (rs : RSocket) (fuel head off : ℕ) :
    rsPeekLoop p mem rs fuel head off 0 = [] := by
  cases fuel with
  | zero => rfl
  | succ fuel => rw [rsPeekLoop,if_pos (Or.inl rfl)]

/-- Peeking copies what reading copies. The two loops part only at a message that is not taken
whole, and there both of them end. -/
theorem rsPeekLoop_eq (p : Endpoint) (mem : Memory) (rs rs' : RSocket) (fuel left : ℕ)
    (hmsg : rs'.rmsg = rs.rmsg) (htail : rs'.rmsgTail = rs.rmsgTail) :
    rsPeekLoop p mem rs fuel rs'.rmsgHead rs'.rbufOffset left = (rrecvLoop p mem fuel rs' left).2 := by
  induction fuel generalizing rs' left with
  | zero => rfl
  | succ fuel ih =>
    have hiff : (left = 0 ∨ ¬rsHaveRdata rs') ↔ (left = 0 ∨ rs'.rmsgHead = rs.rmsgTail) := by
      rw [← htail]
      simp [rsHaveRdata]
    rw [rsPeekLoop,rrecvLoop]
    by_cases hstop : left = 0 ∨ rs'.rmsgHead = rs.rmsgTail
    · rw [if_pos hstop,if_pos (hiff.mpr hstop)]
    · rw [if_neg hstop,if_neg (hiff.not.mpr hstop),rrecvRound,← hmsg]
      dsimp only
      congr 1
      by_cases hlt : left < (rs'.rmsg rs'.rmsgHead).data
      · simp only [if_pos hlt,readFrom_length,Nat.sub_self]
        rw [rrecvLoop_zero,rsPeekLoop_zero]
      · simp only [if_neg hlt,readFrom_length]
        exact ih (received rs' rs'.rmsg (nextMsg p rs'.rmsgHead) ((rs'.rseqNo+1)%65536)
          (offsetAfter p.rbufSize rs'.rbufOffset (rs'.rmsg rs'.rmsgHead).data)
          (rs'.rbufBytesAvail+(rs'.rmsg rs'.rmsgHead).data)) _ hmsg htail

/-- `rrecv` returns the next bytes of the stream, as many as were asked for or all that are
polled. -/
theorem rrecv_next (hp : ∀ s, Sound (p s)) (junk : Side → Memory) (acts : List (Side × Act))
    (hrun : runs p (started p junk) acts = some w) (s : Side) (len : ℕ) :
    (rrecv (p s) (w.host s) len).2 =
        ((w.sent (!s)).drop (w.got s).length).take (min len (ringBytes (p s) (w.host s).rs)) ∧
      rsPeek (p s) (w.host s) len = (rrecv (p s) (w.host s) len).2 := by
  refine ⟨?_,rsPeekLoop_eq _ _ _ _ _ _ rfl rfl⟩
  obtain ⟨t,f,hlinked⟩ := (inv_run hp junk acts hrun).linked
  obtain ⟨hlen,g',hnext⟩ := Linked.recv (hlinked s) (hp s) len
  have hqueued : ringBytes (p s) (w.host s).rs = (f (!s)).queued.sum :=
    congrArg List.sum (queued_eq (hlinked s).back.counting)
  have hinitial : w.got s++(rrecv (p s) (w.host s) len).2 <+: w.sent (!s) := hnext.back.arriving.initial
  obtain ⟨rest,hrest⟩ := hinitial
  change (rrecv (p s) (w.host s) len).2.length = _ at hlen
  rw [hqueued,← hlen,← hrest,List.append_assoc,List.drop_left,List.take_left]

theorem rrecv_next_demo : ∃ w, runs demo (started demo fun _ _ => 0) demoActs = some w ∧
    ringBytes (demo true) (w.host true).rs = 1 ∧
    (rrecv (demo true) (w.host true) 7).2 =
      ((w.sent (!true)).drop (w.got true).length).take
        (min 7 (ringBytes (demo true) (w.host true).rs)) := by
  have hrun : (runs demo (started demo fun _ _ => 0) demoActs).map
      (fun w => ringBytes (demo true) (w.host true).rs) = some 1 := by decide +kernel
  obtain ⟨w,hw,hval⟩ := Option.map_eq_some_iff.mp hrun
  exact ⟨w,hw,hval,(rrecv_next demo_sound _ _ hw true 7).1⟩

/-- The stream messages that side `s` has sent and the other side has not read. -/
def unread (p : Side → Endpoint) (w : System) (s : Side) : ℕ :=
  (RingQueue.contents ((p (!s)).rqSize+1) (msgRing (w.host (!s)).rs)).length+
    (datas (wire (w.host s) (w.host (!s)))).length

/-- No queue runs over: no request is refused, completions have room, no more receives are posted
than fit, the ring of messages is never full, and nothing is placed outside a receive buffer. -/
theorem queues_bounded (hp : ∀ s, Sound (p s)) (junk : Side → Memory) (acts : List (Side × Act))
    (hrun : runs p (started p junk) acts = some w) (s : Side) :
    (w.host s).refused = false ∧ (outMsgs (w.host s)).length ≤ (p s).sqSize ∧
      (w.host s).cq.length ≤ (p s).sqSize+(p s).rqSize ∧
      (w.host s).rq+(recvMsgs (w.host s)).length ≤ (p s).rqSize ∧
      unread p w s ≤ (p (!s)).rqSize ∧ (w.host s).stray = false := by
  obtain ⟨t,f,hlinked⟩ := (inv_run hp junk acts hrun).linked
  have h := hlinked s
  have hout : (outMsgs (w.host s)).length ≤ (p s).sqSize := by
    have hentries := h.host.entries
    have hle := h.host.entries_le
    have hctrl := h.host.ctrl_le
    rw [outMsgs_length]
    change _+(entriesOut (w.host s) : ℤ) = _ at hentries
    change ctrlOut (w.host s) ≤ _ at hctrl
    omega
  have hrecv : (w.host s).rq+(recvMsgs (w.host s)).length ≤ (p s).rqSize := h.host.receives
  have hcq : ∀ cq : List Wc, cq.length =
      (cq.filterMap Wc.send?).length+(cq.filterMap Wc.recv?).length := by
    intro cq
    induction cq with
    | nil => rfl
    | cons wc cq ih =>
      cases wc <;> simp [List.filterMap_cons,Wc.send?,Wc.recv?] <;> omega
  refine ⟨h.host.accepted,hout,?_,hrecv,?_,h.back.arriving.inside⟩
  · have hsplit := hcq (w.host s).cq
    rw [outMsgs,List.length_append] at hout
    rw [recvMsgs] at hrecv
    omega
  · have hqueued := congrArg List.length (queued_eq h.there.counting)
    have hle := Counting.queued_le h.there.counting
    rw [List.length_map] at hqueued
    rw [unread]
    change (RingQueue.contents ((p (!s)).rqSize+1) (msgRing (w.host (!s)).rs)).length = _ at hqueued
    change _+(datas (wire (w.host s) (w.host (!s)))).length ≤ _ at hle
    omega

theorem queues_bounded_demo : ∃ w, runs demo (started demo fun _ _ => 0) demoActs = some w ∧
    unread demo w false = 1 ∧ unread demo w false ≤ (demo (!false)).rqSize := by
  have hrun : (runs demo (started demo fun _ _ => 0) demoActs).map
      (fun w => unread demo w false) = some 1 := by decide +kernel
  obtain ⟨w,hw,hval⟩ := Option.map_eq_some_iff.mp hrun
  exact ⟨w,hw,hval,(queues_bounded demo_sound _ _ hw false).2.2.2.2.1⟩

/-- What a socket may write to lies in the receive buffer of its peer, and holds no byte that the
peer has not read. -/
theorem target_holds_nothing_unread (hp : ∀ s, Sound (p s)) (junk : Side → Memory)
    (acts : List (Side × Act)) (hrun : runs p (started p junk) acts = some w) (s : Side)
    (hcan : rsCanSend (w.host s).rs) {target : Sge}
    (htarget : (w.host s).rs.targetSgl (w.host s).rs.targetSge = target) :
    target.key = (p (!s)).rkey ∧ (p (!s)).rbuf ≤ target.addr ∧
      target.addr+target.length ≤ (p (!s)).rbuf+(p (!s)).rbufSize ∧
      ∀ j, (w.got (!s)).length ≤ j → j < (w.sent s).length → ∀ i < target.length,
        (p (!s)).rbuf+j%(p (!s)).rbufSize ≠ target.addr+i := by
  obtain ⟨t,f,hlinked⟩ := (inv_run hp junk acts hrun).linked
  have hg : Granting (p (!s)) (t (!s)) (f s) (w.host s) (w.host (!s)) (w.sent s) (w.got (!s)) :=
    (hlinked s).there.granting
  have hsize := (hp (!s)).size_eq
  have hlength : target.length =
      DoubleBuffer.left (p (!s)).half ((f s).buffer (t (!s)).grants (w.sent s) (w.got (!s))) := by
    rw [← htarget,hg.sge]
    exact hg.current.1
  have hpos : 0 < target.length := by
    rw [← htarget]
    exact Nat.pos_of_ne_zero hcan.2.2.2
  obtain ⟨haddr,hkey⟩ := hg.current.2 (hlength ▸ hpos)
  rw [← hg.sge,htarget] at haddr hkey
  have hoffset : ∀ i < target.length, ((w.sent s).length+i)%(p (!s)).rbufSize =
      (w.sent s).length%(p (!s)).rbufSize+i := by
    intro i hi
    rw [hsize]
    exact hg.buffer.offset_add (hlength ▸ hi)
  have hroom : (w.sent s).length+target.length ≤ (w.got (!s)).length+(p (!s)).rbufSize := by
    have harrived : (f s).spent < (f s).arrived := DoubleBuffer.Inv.lt_arrived (hlength ▸ hpos)
    have hgranted : (f s).arrived ≤ (t (!s)).grants := hg.buffer.arrived_le
    have hfree : (t (!s)).grants*(p (!s)).half ≤ (w.got (!s)).length+2*(p (!s)).half := hg.buffer.room
    have hnext : (w.sent s).length < ((f s).spent+1)*(p (!s)).half := hg.buffer.lt_next
    have hmul : ((f s).spent+1)*(p (!s)).half ≤ (t (!s)).grants*(p (!s)).half :=
      Nat.mul_le_mul_right _ (by omega)
    have hleft : target.length = ((f s).spent+1)*(p (!s)).half-(w.sent s).length :=
      hlength.trans (if_pos harrived)
    omega
  refine ⟨hkey,by omega,?_,?_⟩
  · have hlast := hoffset (target.length-1) (by omega)
    have hlt := Nat.mod_lt ((w.sent s).length+(target.length-1)) (hp (!s)).rbuf_pos
    omega
  · intro j hj hlt i hi
    rw [haddr,Nat.add_assoc,← hoffset i hi]
    exact offset_ne (by omega) (by omega)

theorem target_holds_nothing_unread_demo : ∃ w,
    runs demo (started demo fun _ _ => 0) [(false,.send [1] 2048)] = some w ∧
    ((w.host false).rs.targetSgl (w.host false).rs.targetSge).key = (demo (!false)).rkey := by
  have hrun : (runs demo (started demo fun _ _ => 0) [(false,.send [1] 2048)]).map
      (fun w => decide (rsCanSend (w.host false).rs)) = some true := by decide +kernel
  obtain ⟨w,hw,hval⟩ := Option.map_eq_some_iff.mp hrun
  exact ⟨w,hw,(target_holds_nothing_unread demo_sound _ _ hw false (of_decide_eq_true hval) rfl).1⟩

/-- Nothing is posted, on its way or to be polled. -/
def Quiet (h : Host) : Prop := h.sq = [] ∧ h.acks = [] ∧ h.cq = []

instance (h : Host) : Decidable (Quiet h) :=
  decidable_of_iff (h.sq.isEmpty = true ∧ h.acks.isEmpty = true ∧ h.cq.isEmpty = true)
    (by simp only [Quiet,List.isEmpty_iff])

/-- The difference of two sequence numbers as `short` is the difference of the counters. -/
theorem toShort_sub (x y : ℕ) (hlow : y ≤ x+32768) (hhigh : x < y+32768) :
    toShort (toShort ((x%65536 : ℕ) : ℤ)-toShort ((y%65536 : ℕ) : ℤ)) = (x : ℤ)-y := by
  simp only [toShort]
  omega

theorem outMsgs_quiet {h : Host} (hq : Quiet h) : outMsgs h = [] := by
  rw [outMsgs,hq.1,hq.2.1,hq.2.2]
  rfl

theorem wire_quiet {a b : Host} (ha : Quiet a) (hb : Quiet b) : wire a b = [] := by
  rw [wire,recvMsgs,sendMsgs,ha.1,hb.2.2]
  rfl

/-- A receiver that has no credits to give has given enough. -/
theorem credit_left {pb : Endpoint} {f : Flow} {a b : Host} {sent got : List Byte} {iomaps : ℕ}
    (hp : Sound pb) (hc : Counting pb f a b sent got iomaps) (hqueued : f.queued = [])
    (hthere : wire a b = []) (hback : wire b a = [])
    (hnone : ¬0 ≤ toShort (toShort b.rs.rseqNo-toShort b.rs.rseqComp))
    (hiomaps : iomaps ≤ pb.rqSize-pb.rqSize/2) : a.rs.sseqNo ≠ a.rs.sseqComp := by
  have hle := hp.rq_le
  have hmax : rsQpMaxSize = 0xFFFE := rfl
  have hcount := hc.count
  have hflight := hc.flight
  rw [hqueued,hthere] at hcount
  rw [hback] at hflight
  have hnil : f.window.flight = [] := by
    cases hfl : f.window.flight with
    | nil => rfl
    | cons c cs =>
      rw [hfl] at hflight
      cases hflight
  have hlast := hc.window.last
  rw [hnil] at hlast
  change f.window.credit = f.window.granted at hlast
  have hgranted := hc.window.granted_le
  have hlow := hc.window.le_granted
  have hsent := hc.window.sent_le
  change f.window.read+0+0+iomaps = f.window.sent at hcount
  rw [hc.rseq,hc.rcomp,toShort_sub _ _ (by omega) (by omega)] at hnone
  rw [hc.sseq,hc.scomp]
  intro heq
  have hsame := (hc.window.mod_eq_iff (by omega)).mp heq
  omega

/-- And enough of its buffer. -/
theorem target_left {pb : Endpoint} {tb : Track} {f : Flow} {a b : Host} {sent got : List Byte}
    (hp : Sound pb) (hg : Granting pb tb f a b sent got) (hread : got.length = sent.length)
    (hstart : tb.start.grants = tb.grants) (hsq : b.sq = [])
    (hnone : ¬(pb.half : ℤ) ≤ b.rs.rbufBytesAvail) : (a.rs.targetSgl a.rs.targetSge).length ≠ 0 := by
  have hsize := hp.size_eq
  have havail := hg.avail
  have harrived := hg.arrived
  have hspent : f.spent*pb.half ≤ sent.length := hg.buffer.spent_le
  have hnext : sent.length < (f.spent+1)*pb.half := hg.buffer.lt_next
  rw [show grantPlaced b = false by simp [grantPlaced,hsq],hstart] at harrived
  change f.arrived = tb.grants at harrived
  have hlt : f.spent < f.arrived := by
    have hmul : (f.spent+1)*pb.half < tb.grants*pb.half := by
      have hsucc : (f.spent+1)*pb.half = f.spent*pb.half+pb.half := Nat.succ_mul _ _
      omega
    have := Nat.lt_of_mul_lt_mul_right hmul
    omega
  rw [hg.sge,hg.current.1,DoubleBuffer.left]
  change (if f.spent < f.arrived then (f.spent+1)*pb.half-sent.length else 0) ≠ 0
  rw [if_pos hlt]
  omega

/-- Two sockets that have nothing left to do do not wait for each other: when all is read and the
receiver sees no reason to announce more, the sender can send. -/
theorem can_send_of_quiet (hp : ∀ s, Sound (p s)) (junk : Side → Memory) (acts : List (Side × Act))
    (hrun : runs p (started p junk) acts = some w) (s : Side) (hquiet : ∀ r, Quiet (w.host r))
    (hread : ¬rsHaveRdata (w.host (!s)).rs) (hstate : (w.host (!s)).rs.state.connected = true)
    (hgive : ¬rsGiveCredits (p (!s)) (w.host (!s)).rs)
    (hiomaps : w.iomaps s ≤ (p (!s)).rqSize-(p (!s)).rqSize/2) : rsCanSend (w.host s).rs := by
  obtain ⟨t,f,hlinked⟩ := (inv_run hp junk acts hrun).linked
  have h := hlinked s
  have hthere := wire_quiet (hquiet s) (hquiet (!s))
  have hback := wire_quiet (hquiet (!s)) (hquiet s)
  have hout := outMsgs_quiet (hquiet s)
  have hpeer := outMsgs_quiet (hquiet (!s))
  have hctrl : rsCtrlAvail (w.host (!s)).rs := by
    have hno : (w.host (!s)).rs.ctrlSeqno = (t (!s)).ctrl%2^32 := h.peer.ctrlNo
    have hmax : (w.host (!s)).rs.ctrlMaxSeqno =
        ((t (!s)).ctrl+rsQpCtrlSize-ctrlOut (w.host (!s)))%2^32 := h.peer.ctrlMax
    have hsize : rsQpCtrlSize = 4 := rfl
    rw [ctrlOut,hpeer] at hmax
    rw [rsCtrlAvail,hno,hmax,hsize]
    change (t (!s)).ctrl%2^32 ≠ ((t (!s)).ctrl+4-0)%2^32
    omega
  have hboth : ¬((p (!s)).half : ℤ) ≤ (w.host (!s)).rs.rbufBytesAvail ∧
      ¬0 ≤ toShort (toShort (w.host (!s)).rs.rseqNo-toShort (w.host (!s)).rs.rseqComp) := by
    rw [← not_or]
    exact fun hor => hgive ⟨hor,hctrl,hstate⟩
  have hqueued : (f s).queued = [] := by
    by_contra hne
    exact hread ((Counting.haveRdata_iff h.there.counting).mpr hne)
  refine ⟨?_,?_,?_,?_⟩
  · have hentries : (w.host s).rs.sqeAvail+entriesOut (w.host s) = ((p s).sqSize : ℤ)-rsQpCtrlSize :=
      h.host.entries
    have hsq := (hp s).sq_ge
    have hmin : rsQpMinSize = 16 := rfl
    have hsize : rsQpCtrlSize = 4 := rfl
    rw [entriesOut,hout] at hentries
    change _+((0 : ℕ) : ℤ) = _ at hentries
    omega
  · have hbytes : (w.host s).rs.sbufBytesAvail+ringOut (w.host s) = ((p s).sbufSize : ℤ) :=
      h.host.bytes
    have hsbuf := (hp s).sbuf_ge
    rw [ringOut,hout] at hbytes
    change _+((0 : ℕ) : ℤ) = _ at hbytes
    omega
  · exact credit_left (hp (!s)) h.there.counting hqueued hthere hback hboth.2 hiomaps
  · have hbytes := h.there.counting.bytes
    rw [hqueued] at hbytes
    change (w.got (!s)).length+0+(datas (wire (w.host s) (w.host (!s)))).sum = _ at hbytes
    rw [hthere] at hbytes
    have hlaid := h.peer.laid
    have hsq : (endOf w (!s)).host.sq = [] := (hquiet (!s)).1
    rw [hsq] at hlaid
    refine target_left (hp (!s)) h.there.granting hbytes ?_ hsq hboth.1
    exact congrArg Pos.grants hlaid.foldl_eq

theorem can_send_of_quiet_demo : ∃ w, runs demo (started demo fun _ _ => 0)
    [(true,.credits),(true,.place),(true,.place),(true,.place),(true,.deliver),(true,.complete),
      (true,.poll),(false,.poll)] = some w ∧ rsCanSend (w.host false).rs := by
  have hrun : (runs demo (started demo fun _ _ => 0)
      [(true,.credits),(true,.place),(true,.place),(true,.place),(true,.deliver),(true,.complete),
        (true,.poll),(false,.poll)]).map
      (fun w => decide ((∀ r, Quiet (w.host r)) ∧ ¬rsHaveRdata (w.host true).rs ∧
        (w.host true).rs.state.connected = true ∧ ¬rsGiveCredits (demo true) (w.host true).rs ∧
        w.iomaps false ≤ 8)) = some true := by decide +kernel
  obtain ⟨w,hw,hval⟩ := Option.map_eq_some_iff.mp hrun
  obtain ⟨hquiet,hread,hstate,hgive,hiomaps⟩ := of_decide_eq_true hval
  exact ⟨w,hw,can_send_of_quiet demo_sound _ _ hw false hquiet hread hstate hgive hiomaps⟩

/-- The messages that carry entries of an I/O map are never counted as read. -/
theorem cannot_send_of_iomaps (hinv : Inv p w) (hiomaps : (p (!s)).rqSize ≤ w.iomaps s) :
    ¬rsCanSend (w.host s).rs := by
  obtain ⟨t,f,hlinked⟩ := hinv.linked
  have hc := (hlinked s).there.counting
  have hcount := hc.count
  have hgranted := le_trans (hc.window.credit_le _ List.mem_cons_self) hc.window.granted_le
  have hsent := hc.window.sent_le
  change _+_+_+w.iomaps s = _ at hcount
  intro hcan
  refine hcan.2.2.1 ?_
  refine hc.sseq.trans (Eq.trans ?_ hc.scomp.symm)
  rw [show (f s).window.sent = (f s).window.credit by omega]

/-- Only `rsend` on a socket that can send adds to the stream, and no step takes back an entry. -/
theorem step_sent (a : Side × Act) (hstep : step p w a = some w') (hcan : ¬rsCanSend (w.host s).rs) :
    w'.sent s = w.sent s ∧ w.iomaps s ≤ w'.iomaps s := by
  obtain ⟨r,act⟩ := a
  rw [step] at hstep
  cases act with
  | send buf olen =>
    dsimp only at hstep
    split_ifs at hstep with hguard
    obtain rfl := Option.some.inj hstep
    have hne : s ≠ r := fun h => hcan (h ▸ hguard.2.2.2)
    exact ⟨Function.update_of_ne hne _ _,le_rfl⟩
  | iomap index record =>
    dsimp only at hstep
    split_ifs at hstep with hguard
    obtain rfl := Option.some.inj hstep
    have hne : s ≠ r := fun h => hcan (h ▸ hguard.2.2)
    exact ⟨rfl,le_of_eq (Function.update_of_ne hne _ _).symm⟩
  | iowrite bytes addr key =>
    dsimp only at hstep
    split_ifs at hstep with hguard
    obtain rfl := Option.some.inj hstep
    exact ⟨rfl,le_rfl⟩
  | shutdown how =>
    dsimp only at hstep
    split_ifs at hstep with hguard
    obtain rfl := Option.some.inj hstep
    exact ⟨rfl,le_rfl⟩
  | shutdownPost =>
    dsimp only at hstep
    split at hstep
    · split_ifs at hstep with hguard
      obtain rfl := Option.some.inj hstep
      exact ⟨rfl,le_rfl⟩
    · cases hstep
  | place =>
    dsimp only at hstep
    split at hstep
    · split_ifs at hstep with hlt
      obtain rfl := Option.some.inj hstep
      exact ⟨rfl,le_rfl⟩
    · cases hstep
  | deliver =>
    dsimp only at hstep
    split at hstep
    · split_ifs at hstep with hguard
      obtain rfl := Option.some.inj hstep
      exact ⟨rfl,le_rfl⟩
    · cases hstep
  | complete =>
    dsimp only at hstep
    split at hstep
    · obtain rfl := Option.some.inj hstep
      exact ⟨rfl,le_rfl⟩
    · cases hstep
  | recv | credits | poll | keepalive =>
    obtain rfl := Option.some.inj hstep
    exact ⟨rfl,le_rfl⟩

/-- Each entry of an I/O map that is sent takes one message from the window for good: after as many
as the peer has receives, nothing is ever sent again. -/
theorem iomaps_end_stream (hp : ∀ s, Sound (p s)) (junk : Side → Memory)
    (acts more : List (Side × Act)) (hrun : runs p (started p junk) acts = some w) (s : Side)
    (hiomaps : (p (!s)).rqSize ≤ w.iomaps s) (hmore : runs p w more = some w') :
    ¬rsCanSend (w'.host s).rs ∧ w'.sent s = w.sent s := by
  have hkept := run_preserves (step p)
    (fun v => Inv p v ∧ (p (!s)).rqSize ≤ v.iomaps s ∧ v.sent s = w.sent s) ?_ w more w'
    ⟨inv_run hp junk acts hrun,hiomaps,rfl⟩ hmore
  · exact ⟨cannot_send_of_iomaps hkept.1 hkept.2.1,hkept.2.2⟩
  · rintro v a v' ⟨hinv,hle,hsent⟩ hstep
    have hsame := step_sent a hstep (cannot_send_of_iomaps hinv hle)
    exact ⟨inv_step hp hinv a hstep,le_trans hle hsame.2,hsame.1.trans hsent⟩

theorem iomaps_end_stream_demo : ∃ w, runs demo (started demo fun _ _ => 0)
    (List.replicate 16 (false,.iomap 0 (List.replicate 24 0))) = some w ∧ w.iomaps false = 16 ∧
      ¬rsCanSend (w.host false).rs := by
  have hrun : (runs demo (started demo fun _ _ => 0)
      (List.replicate 16 (false,.iomap 0 (List.replicate 24 0)))).map (fun w => w.iomaps false) =
        some 16 := by decide +kernel
  obtain ⟨w,hw,hval⟩ := Option.map_eq_some_iff.mp hrun
  exact ⟨w,hw,hval,(iomaps_end_stream demo_sound _ _ [] hw false hval.ge rfl).1⟩

end FreeFlow.RsocketConnection
