import FreeFlow.RsocketSteps

/-!
# Moves of the adapters and polling

What the adapter of one end does on its own: it places its first request unit
by unit, delivers it and completes it. And what `rs_poll_cq` does with one
completion, from which the whole loop follows.
-/

set_option autoImplicit false

namespace FreeFlow.RsocketAdapter

open ByteMemory (Memory)
open ByteOrder CircularStream LaidOut Rsocket RsocketPeers RsocketQueues RsocketStream RsocketSteps

variable {pa pb : Endpoint} {ta tb : Track} {f g : Flow} {a b a' b' : Host} {A B : End}
  {sent got : List Byte} {iomaps : ℕ} {wr : SendWr} {rest : List SendWr}

/-- Memory that the protocol does not use may change. -/
theorem Dir.congr (hd : Dir pb ta tb f a b sent got iomaps) (hars : a'.rs = a.rs)
    (hbrs : b'.rs = b.rs) (hasq : a'.sq = a.sq) (hbsq : b'.sq = b.sq) (hacq : a'.cq = a.cq)
    (hbcq : b'.cq = b.cq) (hapl : a'.placed = a.placed) (hbpl : b'.placed = b.placed)
    (hmem : b'.rbufMem = b.rbufMem) (hstray : b'.stray = b.stray) :
    Dir pb ta tb f a' b' sent got iomaps := by
  have hthere : wire a' b' = wire a b := by simp only [wire,recvMsgs,sendMsgs,hbcq,hasq]
  have hback : wire b' a' = wire b a := by simp only [wire,recvMsgs,sendMsgs,hacq,hbsq]
  refine ⟨hd.counting.congr ?_ ?_ ?_ ?_ ?_ (congrArg credits hback) (congrArg datas hthere),
    hd.granting.congr rfl rfl ?_ ?_ ?_ ?_ ?_ ?_ ?_ ?_,hd.arriving.congr hmem hstray rfl ?_⟩
  · rw [hars]
  · rw [hars]
  · rw [hbrs]
  · rw [hbrs]
  · rw [hbrs]
  · rw [hbrs]
  · rw [hbrs]
  · rw [hbrs]
  · rw [hbrs]
  · rw [hars]
  · rw [hars]
  · simp only [grantPlaced,hbsq,hbpl]
  · intro wr rest hsq _ _
    exact ⟨hbpl,rest,hbsq ▸ hsq⟩
  · simp only [placedData,hasq,hapl]

/-! ## Placing -/

/-- What is placed of a request that is not of the stream. -/
theorem Dir.placed_there (hd : Dir pb ta tb f a b sent got iomaps) (hsq : a.sq = wr::rest)
    (hdata : isData wr.msg = false) (n : ℕ) :
    Dir pb ta tb f {a with placed := n} b sent got iomaps :=
  ⟨hd.counting.congr rfl rfl rfl rfl rfl rfl rfl,
    hd.granting.congr rfl rfl rfl rfl rfl rfl rfl rfl rfl fun _ rest hsq _ _ => ⟨rfl,rest,hsq⟩,
    hd.arriving.congr rfl rfl rfl (by simp [placedData,hsq,hdata])⟩

/-- What is placed of a request that grants nothing. -/
theorem Dir.placed_back (hd : Dir pb ta tb f a b sent got iomaps) (hsq : b.sq = wr::rest)
    (hgrant : isGrant wr = false) (n : ℕ) :
    Dir pb ta tb f a {b with placed := n} sent got iomaps := by
  refine ⟨hd.counting.congr rfl rfl rfl rfl rfl rfl rfl,
    hd.granting.congr rfl rfl rfl rfl rfl rfl rfl rfl (by simp [grantPlaced,hsq,hgrant]) ?_,
    hd.arriving.congr rfl rfl rfl rfl⟩
  intro first others hcons hfirst _
  obtain ⟨rfl,-⟩ : wr = first ∧ rest = others := by simpa [hsq] using hcons
  exact absurd hfirst (by simp [hgrant])

/-- A word of a control buffer arrives in the order of bytes of the peer. -/
theorem crossing_stored (p peer : Endpoint) (k x : ℕ) (hx : x < 256^k) :
    crossing p peer k (if p.net = peer.net then x else bswap k x) = x :=
  load_store_swapped p.net peer.net k x hx

theorem storedSge_addr (hp : Sound pa) (n : ℕ) :
    crossing pa pb 8 (storedSge pa pb n).addr = pa.rbuf+n%2*pa.half := by
  have haddr := hp.rbuf_addr
  have hsize := hp.size_eq
  have hpos := hp.half_pos
  have hlt : pa.rbuf+n%2*pa.half < 256^8 := by
    have hmod : n%2 = 0 ∨ n%2 = 1 := by omega
    rcases hmod with h0 | h1
    · rw [h0]
      omega
    · rw [h1]
      omega
  rw [← crossing_stored pa pb 8 (pa.rbuf+n%2*pa.half) hlt,storedSge]
  split_ifs <;> rfl

theorem storedSge_key (hp : Sound pa) (n : ℕ) :
    crossing pa pb 4 (storedSge pa pb n).key = pa.rkey := by
  rw [← crossing_stored pa pb 4 pa.rkey hp.rkey_lt,storedSge]
  split_ifs <;> rfl

theorem storedSge_length (hp : Sound pa) (n : ℕ) :
    crossing pa pb 4 (storedSge pa pb n).length = pa.half := by
  have hlt := hp.rbuf_lt
  have hsize := hp.size_eq
  rw [← crossing_stored pa pb 4 pa.half (by omega),storedSge]
  split_ifs <;> rfl

/-- The first two words of a grant change a slot that the sender does not look at, since its
length is 0. -/
theorem Granting.place_word (hg : Granting pb tb f a b sent got) (hlt : tb.start.grants < tb.grants)
    (hsq : b.sq = wr::rest) (hplaced : b.placed < 2) {sge : Sge}
    (hlength : sge.length = (a.rs.targetSgl (tb.start.grants%2)).length)
    (haddr : sge.addr = pb.rbuf+tb.start.grants%2*pb.half)
    (hkey : 2 ≤ b.placed+1 → sge.key = pb.rkey) :
    Granting pb tb f (setTarget a (tb.start.grants%2) sge) {b with placed := b.placed+1} sent got := by
  have hnot : grantPlaced b = false := by
    simp only [grantPlaced,hsq,Bool.and_eq_false_iff,decide_eq_false_iff_not]
    right
    omega
  have hnot' : grantPlaced {b with placed := b.placed+1} = false := by
    simp only [grantPlaced,hsq,Bool.and_eq_false_iff,decide_eq_false_iff_not]
    right
    omega
  have harrived : f.arrived = tb.start.grants := by
    have harr := hg.arrived
    rw [hnot] at harr
    exact harr
  have hspent : f.spent ≤ f.arrived := hg.buffer.spent_le_arrived
  have hgrants : tb.grants ≤ f.spent+2 := hg.buffer.grants_le
  have hzero : ∀ {off len : ℕ}, len = 0 → Filled pb (a.rs.targetSgl (tb.start.grants%2)) off len →
      Filled pb sge off len := fun hlen hold =>
    ⟨hlength.trans hold.1,fun hpos => absurd hpos (by omega)⟩
  have hself : (setTarget a (tb.start.grants%2) sge).rs.targetSgl (tb.start.grants%2) = sge :=
    Function.update_self _ _ _
  have hother : ∀ k, k ≠ tb.start.grants%2 →
      (setTarget a (tb.start.grants%2) sge).rs.targetSgl k = a.rs.targetSgl k :=
    fun k hk => Function.update_of_ne hk _ _
  refine ⟨hg.buffer,hg.avail,hg.free,hg.remote,hg.offset,hg.offset_le,hg.sge,?_,?_,?_,?_⟩
  · by_cases hcur : tb.start.grants = f.spent
    · have hcurrent := hg.current
      rw [← hcur] at hcurrent ⊢
      rw [hself]
      exact hzero (if_neg (show ¬f.spent < f.arrived by omega)) hcurrent
    · rw [hother _ (by omega)]
      exact hg.current
  · by_cases hcur : tb.start.grants = f.spent
    · rw [hother _ (by omega)]
      exact hg.following
    · have hnext : f.spent+1 = tb.start.grants := by omega
      have hfollowing := hg.following
      rw [hnext] at hfollowing ⊢
      rw [hself]
      exact hzero (if_neg (by omega)) hfollowing
  · rw [hnot']
    exact harrived
  · intro first others _ _
    rw [hself]
    exact ⟨fun _ _ => haddr,fun h2 _ => hkey h2⟩

/-- With its last word a grant has arrived. -/
theorem Granting.place_last (hg : Granting pb tb f a b sent got) (hp : Sound pb)
    (hlt : tb.start.grants < tb.grants) (hsq : b.sq = wr::rest) (hgrant : isGrant wr = true)
    (hplaced : b.placed = 2) {sge : Sge} (hlength : sge.length = pb.half)
    (haddr : sge.addr = pb.rbuf+tb.start.grants%2*pb.half) (hkey : sge.key = pb.rkey) :
    Granting pb tb {f with arrived := f.arrived+1} (setTarget a (tb.start.grants%2) sge)
      {b with placed := b.placed+1} sent got := by
  have hsize := hp.size_eq
  have hnot : grantPlaced b = false := by simp [grantPlaced,hsq,hplaced]
  have hdone : grantPlaced {b with placed := b.placed+1} = true := by
    simp [grantPlaced,hsq,hplaced,hgrant]
  have harrived : f.arrived = tb.start.grants := by
    have harr := hg.arrived
    rw [hnot] at harr
    exact harr
  have hspent : f.spent ≤ f.arrived := hg.buffer.spent_le_arrived
  have hgrants : tb.grants ≤ f.spent+2 := hg.buffer.grants_le
  have hself : (setTarget a (tb.start.grants%2) sge).rs.targetSgl (tb.start.grants%2) = sge :=
    Function.update_self _ _ _
  have hother : ∀ k, k ≠ tb.start.grants%2 →
      (setTarget a (tb.start.grants%2) sge).rs.targetSgl k = a.rs.targetSgl k :=
    fun k hk => Function.update_of_ne hk _ _
  have harrive : f.arrived < tb.grants := by omega
  refine ⟨hg.buffer.arrive harrive,hg.avail,hg.free,hg.remote,hg.offset,hg.offset_le,hg.sge,?_,?_,?_,?_⟩
  · by_cases hcur : tb.start.grants = f.spent
    · -- all that had arrived is spent, so the stream stands at the start of this half
      have hwritten : sent.length = f.spent*pb.half := by
        have hlow : f.spent*pb.half ≤ sent.length := hg.buffer.spent_le
        have hhigh : sent.length ≤ f.arrived*pb.half := hg.buffer.within
        rw [harrived,hcur] at hhigh
        omega
      have hsucc : (f.spent+1)*pb.half = f.spent*pb.half+pb.half := Nat.succ_mul _ _
      have hleft : DoubleBuffer.left pb.half (Flow.buffer {f with arrived := f.arrived+1} tb.grants sent
          got) = pb.half := by
        rw [DoubleBuffer.left]
        show (if f.spent < f.arrived+1 then (f.spent+1)*pb.half-sent.length else 0) = _
        rw [if_pos (by omega)]
        omega
      rw [hleft,hwritten,hsize,DoubleBuffer.half_offset]
      show Filled pb ((setTarget a (tb.start.grants%2) sge).rs.targetSgl (f.spent%2)) _ _
      rw [← hcur,hself]
      exact ⟨hlength,fun _ => ⟨haddr,hkey⟩⟩
    · have hleft : DoubleBuffer.left pb.half (Flow.buffer {f with arrived := f.arrived+1} tb.grants sent
          got) = DoubleBuffer.left pb.half (f.buffer tb.grants sent got) := by
        rw [DoubleBuffer.left,DoubleBuffer.left]
        show (if f.spent < f.arrived+1 then (f.spent+1)*pb.half-sent.length else 0) =
          if f.spent < f.arrived then (f.spent+1)*pb.half-sent.length else 0
        rw [if_pos (by omega),if_pos (by omega)]
      rw [hleft,hother _ (show f.spent%2 ≠ _ by omega)]
      exact hg.current
  · by_cases hcur : tb.start.grants = f.spent
    · show Filled pb ((setTarget a (tb.start.grants%2) sge).rs.targetSgl ((f.spent+1)%2)) _ (if f.spent+1 < f.arrived+1 then pb.half else 0)
      have hfollowing := hg.following
      rw [if_neg (by omega)] at hfollowing
      rw [if_neg (by omega),hother _ (by omega)]
      exact hfollowing
    · have hnext : f.spent+1 = tb.start.grants := by omega
      show Filled pb ((setTarget a (tb.start.grants%2) sge).rs.targetSgl ((f.spent+1)%2))
        ((f.spent+1)%2*pb.half) (if f.spent+1 < f.arrived+1 then pb.half else 0)
      rw [if_pos (by omega),hnext,hself]
      exact ⟨hlength,fun _ => ⟨haddr,hkey⟩⟩
  · rw [hdone]
    show f.arrived+1 = _
    rw [harrived]
    rfl
  · intro first others _ _
    refine ⟨fun _ h3 => absurd h3 ?_,fun _ h3 => absurd h3 ?_⟩
    · show ¬b.placed+1 < 3
      omega
    · show ¬b.placed+1 < 3
      omega

/-- The receiver of a stream does not look at its own targets. -/
theorem Dir.setTarget (hd : Dir pb ta tb f a b sent got iomaps) (k : ℕ) (sge : Sge) :
    Dir pb ta tb f a (setTarget b k sge) sent got iomaps :=
  ⟨hd.counting.congr rfl rfl rfl rfl rfl rfl rfl,
    hd.granting.congr rfl rfl rfl rfl rfl rfl rfl rfl rfl fun _ rest hsq _ _ => ⟨rfl,rest,hsq⟩,
    hd.arriving.congr rfl rfl rfl rfl⟩

/-- A request that stays in its half stays in the buffer. -/
theorem within_half {x h n : ℕ} (hle : x%h+n ≤ h) : x%(2*h)+n ≤ 2*h := by
  have hbit : x/h%2 = 0 ∨ x/h%2 = 1 := by omega
  rw [Nat.mul_comm,Nat.mod_mul]
  rcases hbit with h0 | h1
  · rw [h0]
    omega
  · rw [h1]
    omega

/-- A byte of the stream is placed: behind those that were placed before, in the buffer and in no
place that is not read. -/
theorem Linked.placeData (h : Linked pa pb ta tb f g A B) (hpb : Sound pb) {n : ℕ}
    (hn : n ≤ rsMaxTransfer) (hhalf : ta.start.stream%pb.half+n ≤ pb.half) (hbuf : n ≤ pa.sbufSize)
    (hbytes : ∀ i < n, ∃ b, ta.ring[ta.start.ring+i]? = some b ∧
      A.sent[ta.start.stream+i]? = some b)
    (hwr : wr = ⟨rsMsgSet rsOpData n,true,.bytes (pieces pa.sbufSize pa.sbuf ta.start.ring n),
      .region (pb.rbuf+ta.start.stream%pb.rbufSize) pb.rkey⟩)
    (hsq : A.host.sq = wr::rest) (hlt : A.host.placed < n) :
    Linked pa pb ta tb f g {A with host := {A.host with placed := A.host.placed+1}}
      {B with host := placeUnit pa pb A.host B.host wr A.host.placed} := by
  have hsize := hpb.size_eq
  have hpos := hpb.half_pos
  have hwithin : ta.start.stream%pb.rbufSize+n ≤ pb.rbufSize := by
    rw [hsize]
    exact within_half hhalf
  have hmod : (ta.start.stream+A.host.placed)%pb.rbufSize =
      ta.start.stream%pb.rbufSize+A.host.placed := by
    rw [← Nat.mod_add_mod,Nat.mod_eq_of_lt (by omega)]
  have hunits : units wr = n := by
    rw [hwr]
    exact pieces_sum _ _ _ _
  have hdata : isData wr.msg = true := by
    rw [hwr,isData_set _ _ (data_lt hn)]
    rfl
  have hgrant : isGrant wr = false := by
    rw [hwr]
    rfl
  have hplaced : placedData A.host = A.host.placed := by simp [placedData,hsq,hdata]
  -- the byte is still in the send buffer
  obtain ⟨byte,hring,hbyte⟩ := hbytes A.host.placed hlt
  have hmem : A.host.sbufMem (address (pieces pa.sbufSize pa.sbuf ta.start.ring n) A.host.placed) =
      byte := by
    have hstart := h.host.ring_start
    have hlen := (List.getElem?_eq_some_iff.mp hring).1
    have hheld := h.host.held (ta.start.ring+A.host.placed) (by omega) hlen
    rw [address_pieces _ _ _ hlt hbuf]
    exact (Option.some.inj (hring.symm.trans hheld)).symm
  set mem := Function.update B.host.rbufMem (pb.rbuf+(ta.start.stream+A.host.placed)%pb.rbufSize) byte
    with hmem'
  have hput : placeUnit pa pb A.host B.host wr A.host.placed = {B.host with rbufMem := mem} := by
    rw [hwr,placeUnit,hmem']
    dsimp only
    rw [if_pos rfl,if_pos (by omega),hmem,hmod,Nat.add_assoc]
  have hwritten := HostInv.placed_stream (h.host.place hsq (by rw [hunits]; exact hlt))
  have hplaced' : placedData {A.host with placed := A.host.placed+1} = A.host.placed+1 := by
    simp [placedData,hsq,hdata]
  have hroom := h.there.granting.buffer.written_le
  rw [hplaced'] at hwritten
  change A.sent.length ≤ B.got.length+2*pb.half at hroom
  have hcontent := h.there.arriving.content
  rw [hplaced] at hcontent
  rw [hput]
  refine ⟨h.host.place hsq (by rw [hunits]; exact hlt),
    h.peer.congr rfl rfl rfl rfl rfl rfl h.peer.receives rfl rfl rfl rfl rfl rfl rfl,
    ⟨h.there.counting.congr rfl rfl rfl rfl rfl rfl rfl,
      h.there.granting.congr rfl rfl rfl rfl rfl rfl rfl rfl rfl fun _ rest hsq _ _ => ⟨rfl,rest,hsq⟩,
      ?_,h.there.arriving.inside,h.there.arriving.initial⟩,
    ?_⟩
  · rw [hplaced',← Nat.add_assoc]
    exact hcontent.write byte hbyte (by rw [hsize]; omega)
  · exact Dir.congr (Dir.placed_back h.back hsq hgrant _) rfl rfl rfl rfl rfl rfl rfl rfl rfl rfl

/-- A word of a grant is placed. -/
theorem Linked.placeGrant (h : Linked pa pb ta tb f g A B) (hpa : Sound pa) {slot : ℕ}
    (hsge : A.host.ctrlMem slot = storedSge pa pb ta.start.grants) (hsq : A.host.sq = wr::rest)
    (hdata : isData wr.msg = false) (hsrc : wr.src = .ctrl slot) (hlt : A.host.placed < 3) :
    ∃ g', Linked pa pb ta tb f g' {A with host := {A.host with placed := A.host.placed+1}}
      {B with host := setTarget B.host (ta.start.grants%2) (placeSge pa pb (A.host.ctrlMem slot)
        (B.host.rs.targetSgl (ta.start.grants%2)) A.host.placed)} := by
  have hgrant : isGrant wr = true := by simp [isGrant,hsrc]
  have hunits : units wr = 3 := by simp [units,hsrc]
  have hgrants := h.host.grants_lt hsq hgrant
  have hg := h.back.granting
  have hhost := h.host.place hsq (hunits ▸ hlt)
  have hpartly := hg.partly wr rest hsq hgrant
  have hlinked : ∀ (g' : Flow) (sge : Sge), g'.window = g.window → g'.queued = g.queued →
      Granting pa ta g' (setTarget B.host (ta.start.grants%2) sge)
        {A.host with placed := A.host.placed+1} B.sent A.got →
      Linked pa pb ta tb f g' {A with host := {A.host with placed := A.host.placed+1}}
        {B with host := setTarget B.host (ta.start.grants%2) sge} := by
    intro g' sge hwindow hqueued hgranting
    have hc := h.back.counting
    refine ⟨hhost,h.peer.congr rfl rfl rfl rfl rfl rfl h.peer.receives rfl rfl rfl rfl rfl rfl rfl,
      Dir.setTarget (Dir.placed_there h.there hsq hdata _) _ _,?_,hgranting,
      h.back.arriving.congr rfl rfl rfl rfl⟩
    refine ⟨?_,?_,?_,?_,?_,?_,?_,?_,?_⟩
    · rw [hwindow]
      exact hc.window
    · rw [hwindow]
      exact hc.sseq
    · rw [hwindow]
      exact hc.scomp
    · rw [hwindow]
      exact hc.rseq
    · rw [hwindow]
      exact hc.rcomp
    · rw [hwindow]
      exact hc.flight
    · rw [hqueued]
      exact hc.queue
    · rw [hwindow,hqueued]
      exact hc.count
    · rw [hqueued]
      exact hc.bytes
  rw [hsge]
  have hcase : A.host.placed = 0 ∨ A.host.placed = 1 ∨ A.host.placed = 2 := by omega
  rcases hcase with h0 | h1 | h2
  · refine ⟨g,hlinked g _ rfl rfl (Granting.place_word hg hgrants hsq (by omega) ?_ ?_ ?_)⟩
    · rw [h0]
      rfl
    · rw [h0]
      exact storedSge_addr hpa _
    · intro hle
      omega
  · refine ⟨g,hlinked g _ rfl rfl (Granting.place_word hg hgrants hsq (by omega) ?_ ?_ ?_)⟩
    · rw [h1]
      rfl
    · rw [h1]
      exact hpartly.1 (by omega) (by omega)
    · rw [h1]
      exact fun _ => storedSge_key hpa _
  · refine ⟨{g with arrived := g.arrived+1},hlinked {g with arrived := g.arrived+1} _ rfl rfl
      (Granting.place_last hg hpa hgrants hsq hgrant h2 ?_ ?_ ?_)⟩
    · rw [h2]
      exact storedSge_length hpa _
    · rw [h2]
      exact hpartly.1 (by omega) (by omega)
    · rw [h2]
      exact hpartly.2 (by omega) (by omega)

/-- A unit is placed that is neither of the stream nor of a grant. -/
theorem Linked.placeOther (h : Linked pa pb ta tb f g A B) (hsq : A.host.sq = wr::rest)
    (hlt : A.host.placed < units wr) (hdata : isData wr.msg = false) (hgrant : isGrant wr = false)
    (iomap mapped : Memory) :
    Linked pa pb ta tb f g {A with host := {A.host with placed := A.host.placed+1}}
      {B with host := {B.host with targetIomap := iomap,mapped := mapped}} := by
  refine ⟨h.host.place hsq hlt,
    h.peer.congr rfl rfl rfl rfl rfl rfl h.peer.receives rfl rfl rfl rfl rfl rfl rfl,?_,?_⟩
  · exact Dir.congr (Dir.placed_there h.there hsq hdata _) rfl rfl rfl rfl rfl rfl rfl rfl rfl rfl
  · exact Dir.congr (Dir.placed_back h.back hsq hgrant _) rfl rfl rfl rfl rfl rfl rfl rfl rfl rfl

/-- The adapter places one unit of its first request. -/
theorem Linked.place (h : Linked pa pb ta tb f g A B) (hpa : Sound pa) (hpb : Sound pb)
    (hsq : A.host.sq = wr::rest) (hlt : A.host.placed < units wr) :
    ∃ g', Linked pa pb ta tb f g' {A with host := {A.host with placed := A.host.placed+1}}
      {B with host := placeUnit pa pb A.host B.host wr A.host.placed} := by
  have hlaid := h.host.laid
  rw [hsq,laid_cons] at hlaid
  cases hlaid.1 with
  | data n hpos hn hhalf hbuf hbytes =>
    have hunits : A.host.placed < n := lt_of_lt_of_le hlt (Nat.le_of_eq (pieces_sum _ _ _ _))
    exact ⟨g,Linked.placeData h hpb hn hhalf hbuf hbytes rfl hsq hunits⟩
  | iomap index hindex sgl =>
    have hdata : isData (rsMsgSet rsOpIomapSgl index) = false := by
      rw [isData_set _ _ (index_lt hindex)]
      rfl
    exact ⟨g,Linked.placeOther h hsq hlt hdata rfl _ _⟩
  | write n addr key hn hkey sgl =>
    have hdata : isData (rsMsgSet rsOpWrite n) = false := by
      rw [isData_set _ _ (data_lt hn)]
      rfl
    rw [placeUnit]
    dsimp only
    rw [if_neg hkey]
    exact ⟨g,Linked.placeOther h hsq hlt hdata rfl _ _⟩
  | grant c hc hsge =>
    have hdata : isData (rsMsgSet rsOpSgl c) = false := by
      rw [isData_set _ _ hc]
      rfl
    exact Linked.placeGrant h hpa hsge hsq hdata rfl hlt
  | credit c hc => exact absurd hlt (Nat.not_lt_zero _)
  | ctrl c hc imm => exact absurd hlt (Nat.not_lt_zero _)

/-! ## Delivery and completion -/

theorem wire_deliver (hsq : a.sq = wr::rest) :
    wire (afterDeliver a wr rest) (noticed b wr) = wire a b := by
  cases himm : wr.imm with
  | true => simp [wire,recvMsgs,sendMsgs,afterDeliver,noticed,hsq,himm,Wc.recv?]
  | false => simp [wire,recvMsgs,sendMsgs,afterDeliver,noticed,hsq,himm]

theorem wire_deliver_back (b a : Host) (wr : SendWr) (rest : List SendWr) : wire (noticed b wr) (afterDeliver a wr rest) = wire b a := by
  cases himm : wr.imm <;> simp [wire,recvMsgs,sendMsgs,afterDeliver,noticed,himm]

theorem noticed_eq (b : Host) (wr : SendWr) : noticed b wr =
    {b with cq := (noticed b wr).cq,rq := (noticed b wr).rq} := by
  rw [noticed]
  split <;> rfl

/-- The adapter delivers its first request. -/
theorem Linked.deliver (h : Linked pa pb ta tb f g A B) (hsq : A.host.sq = wr::rest)
    (hplaced : A.host.placed = units wr) (hrq : wr.imm = true → 0 < B.host.rq) :
    Linked pa pb {ta with start := next ta.start wr} tb f g
      {A with host := afterDeliver A.host wr rest} {B with host := noticed B.host wr} := by
  have hlaid := h.host.laid
  rw [hsq,laid_cons] at hlaid
  have hpeer := h.peer.noticed wr hrq
  have hwire := wire_deliver (b := B.host) hsq
  have hback := wire_deliver_back B.host A.host wr rest
  have hrest : placedData (afterDeliver A.host wr rest) = 0 := by
    cases rest <;> simp [placedData,afterDeliver]
  have hnone : grantPlaced (afterDeliver A.host wr rest) = false := by
    cases rest <;> simp [grantPlaced,afterDeliver]
  have hstream : (next ta.start wr).stream = ta.start.stream+placedData A.host := by
    rw [next,placedData,hsq]
    dsimp only
    cases hkind : isData wr.msg with
    | false => rw [streamLen_other hkind,if_neg (by simp)]
    | true => rw [if_pos rfl,hplaced,hlaid.1.units_eq hkind]
  have hgrants : (next ta.start wr).grants = ta.start.grants+if grantPlaced A.host then 1 else 0 := by
    have hkind : grantPlaced A.host = isGrant wr := by
      by_cases hgrant : isGrant wr = true
      · simp [grantPlaced,hsq,hplaced,units_grant hgrant]
      · simp [grantPlaced,hsq,hgrant]
    rw [hkind]
    rfl
  rw [noticed_eq] at hpeer hwire hback ⊢
  refine ⟨h.host.deliver hsq,hpeer,⟨?_,?_,?_⟩,⟨?_,?_,?_⟩⟩
  · exact h.there.counting.congr rfl rfl rfl rfl rfl (congrArg credits hback) (congrArg datas hwire)
  · exact h.there.granting.congr rfl rfl rfl rfl rfl rfl rfl rfl rfl
      fun _ rest hsq _ _ => ⟨rfl,rest,hsq⟩
  · have hcontent := h.there.arriving.content
    refine ⟨?_,h.there.arriving.inside,h.there.arriving.initial⟩
    rw [hrest]
    show Holds _ _ _ _ _ ((next ta.start wr).stream+0)
    rw [hstream]
    exact hcontent
  · exact h.back.counting.congr rfl rfl rfl rfl rfl (congrArg credits hwire) (congrArg datas hback)
  · have hg := h.back.granting
    refine ⟨hg.buffer,hg.avail,hg.free,hg.remote,hg.offset,hg.offset_le,hg.sge,hg.current,hg.following,
      ?_,?_⟩
    · rw [hnone]
      show _ = (next ta.start wr).grants
      rw [hgrants]
      exact hg.arrived
    · intro first others _ _
      exact ⟨fun h1 => absurd h1 (by simp [afterDeliver]),fun h2 => absurd h2 (by simp [afterDeliver])⟩
  · exact h.back.arriving.congr rfl rfl rfl rfl

/-- A completion is written. -/
theorem Linked.complete (h : Linked pa pb ta tb f g A B) (hacks : A.host.acks = wr::rest) :
    Linked pa pb ta tb f g
      {A with host := {A.host with acks := rest,cq := A.host.cq++[.send wr.msg]}} B := by
  have hrecv : recvMsgs {A.host with acks := rest,cq := A.host.cq++[.send wr.msg]} =
      recvMsgs A.host := by
    simp [recvMsgs,Wc.recv?]
  have hwire : wire B.host {A.host with acks := rest,cq := A.host.cq++[.send wr.msg]} =
      wire B.host A.host := by
    rw [wire,hrecv,wire]
  refine ⟨h.host.complete hacks,h.peer,⟨?_,?_,?_⟩,⟨?_,?_,?_⟩⟩
  · exact h.there.counting.congr rfl rfl rfl rfl rfl (congrArg credits hwire) rfl
  · exact h.there.granting.congr rfl rfl rfl rfl rfl rfl rfl rfl rfl
      fun _ rest hsq _ _ => ⟨rfl,rest,hsq⟩
  · exact h.there.arriving.congr rfl rfl rfl rfl
  · exact h.back.counting.congr rfl rfl rfl rfl rfl rfl (congrArg datas hwire)
  · exact h.back.granting.congr rfl rfl rfl rfl rfl rfl rfl rfl rfl
      fun _ rest hsq _ _ => ⟨rfl,rest,hsq⟩
  · exact h.back.arriving.congr rfl rfl rfl rfl

/-! ## Polling -/

/-- The host after one completion was handled. -/
def handled (p : Endpoint) (h : Host) (wc : Wc) (rest : List Wc) : Host :=
  {h with rs := (rsHandle p h.rs wc).1,cq := rest}

/-- What the completion of a request may change. -/
theorem rsHandle_send (p : Endpoint) (rs : RSocket) (msg : ℕ) :
    ∃ seqno state sqe bytes, (rsHandle p rs (.send msg)).1 =
      {rs with ctrlMaxSeqno := seqno,state := state,sqeAvail := sqe,sbufBytesAvail := bytes} := by
  rw [rsHandle]
  split_ifs <;> exact ⟨_,_,_,_,rfl⟩

/-- A message that is neither of the stream nor an announcement can change the state only. -/
theorem rsHandle_recv_other (p : Endpoint) (rs : RSocket) {msg : ℕ} (hop : rsMsgOp msg ≠ rsOpSgl)
    (hdata : isData msg = false) :
    ∃ state, (rsHandle p rs (.recv msg)).1 = {rs with state := state} := by
  rw [rsHandle,if_neg hop]
  split_ifs with hiomap hctrl hdisc hshut hwritable hwrite
  · exact ⟨_,rfl⟩
  · exact ⟨_,rfl⟩
  · exact ⟨_,rfl⟩
  · exact ⟨_,rfl⟩
  · exact ⟨_,rfl⟩
  · exact ⟨_,rfl⟩
  · simp [isData,hop,hiomap,hctrl,hwrite] at hdata

theorem rsHandle_recv_data (p : Endpoint) (rs : RSocket) {msg : ℕ} (hdata : isData msg = true) :
    (rsHandle p rs (.recv msg)).1 = {rs with
      rmsg := Function.update rs.rmsg rs.rmsgTail ⟨rsMsgOp msg,rsMsgData msg⟩
      rmsgTail := nextMsg p rs.rmsgTail} := by
  simp only [isData,Bool.and_eq_true,decide_eq_true_eq] at hdata
  obtain ⟨⟨⟨hsgl,hiomap⟩,hctrl⟩,hwrite⟩ := hdata
  rw [rsHandle,if_neg hsgl,if_neg hiomap,if_neg hctrl,if_neg hwrite]

theorem rsHandle_recv_sgl (p : Endpoint) (rs : RSocket) {msg : ℕ} (hop : rsMsgOp msg = rsOpSgl) :
    (rsHandle p rs (.recv msg)).1 = {rs with sseqComp := rsMsgData msg%65536} := by
  rw [rsHandle,if_pos hop]

/-- A received message was polled. -/
theorem HostInv.polled_recv (inv : HostInv pa pb ta a sent) {msg : ℕ} {rest : List Wc}
    (hcq : a.cq = .recv msg::rest) {rs : RSocket} (hno : rs.ctrlSeqno = a.rs.ctrlSeqno)
    (hmax : rs.ctrlMaxSeqno = a.rs.ctrlMaxSeqno) (hsqe : rs.sqeAvail = a.rs.sqeAvail)
    (hbytes : rs.sbufBytesAvail = a.rs.sbufBytesAvail) (haddr : rs.ssglAddr = a.rs.ssglAddr)
    (hswap : rs.swapSgl = a.rs.swapSgl) (hsgl : rs.remoteSglLength = a.rs.remoteSglLength) :
    HostInv pa pb ta {a with rs := rs,cq := rest} sent := by
  refine inv.congr rfl rfl ?_ rfl rfl rfl ?_ hno hmax hsqe hbytes haddr hswap hsgl
  · rw [outMsgs,outMsgs,hcq]
    rfl
  · have hrecv := inv.receives
    rw [hcq,List.filterMap_cons] at hrecv
    simp only [Wc.recv?,List.length_cons] at hrecv
    show a.rq+(rest.filterMap Wc.recv?).length ≤ _
    omega

/-- An announcement that was polled is the credit of the sender. -/
theorem Counting.polled_credit (hc : Counting pb f a b sent got iomaps) {msg : ℕ} {rest : List Wc}
    (hcq : a.cq = .recv msg::rest) (hop : rsMsgOp msg = rsOpSgl) :
    ∃ f', f'.arrived = f.arrived ∧ f'.spent = f.spent ∧ Counting pb f'
      {a with rs := {a.rs with sseqComp := rsMsgData msg%65536},cq := rest} b sent got iomaps := by
  have hflight := hc.flight
  have hwire : wire b a = msg::(rest.filterMap Wc.recv?++sendMsgs b) := by
    simp [wire,recvMsgs,hcq,Wc.recv?]
  rw [hwire,credits_cons,if_pos hop] at hflight
  cases hcs : f.window.flight with
  | nil =>
    rw [hcs] at hflight
    cases hflight
  | cons c cs =>
    rw [hcs] at hflight
    obtain ⟨hfirst,hrest⟩ := List.forall₂_cons.mp hflight
    exact ⟨{f with window := CreditWindow.arrive c cs f.window},rfl,rfl,hc.window.arrive hcs,hc.sseq,
      hfirst,hc.rseq,hc.rcomp,hrest,hc.queue,hc.count,hc.bytes⟩

/-- A message of the stream that was polled is the last one of the ring. -/
theorem Counting.polled_data (hc : Counting pb f a b sent got iomaps) (hp : Sound pb) {msg : ℕ}
    {rest : List Wc} (hcq : b.cq = .recv msg::rest) (hdata : isData msg = true)
    (hb' : b' = {b with
      rs := {b.rs with
        rmsg := Function.update b.rs.rmsg b.rs.rmsgTail ⟨rsMsgOp msg,rsMsgData msg⟩
        rmsgTail := nextMsg pb b.rs.rmsgTail}
      cq := rest}) :
    Counting pb {f with queued := f.queued++[rsMsgData msg]} a b' sent got iomaps := by
  have hwire : wire a b = msg::wire a b' := by simp [wire,recvMsgs,hcq,Wc.recv?,hb']
  have hcount := hc.count
  have hbytes := hc.bytes
  have hle := Counting.queued_le hc
  rw [hwire,datas_cons,if_pos hdata,List.length_cons] at hcount hle
  rw [hwire,datas_cons,if_pos hdata,List.sum_cons] at hbytes
  have htail : b.rs.rmsgTail < pb.rqSize+1 := by
    have hhead : b.rs.rmsgTail = (b.rs.rmsgHead+f.queued.length)%(pb.rqSize+1) := hc.queue.head_eq
    rw [hhead]
    exact Nat.mod_lt _ (Nat.succ_pos _)
  refine ⟨hc.window,hc.sseq,hc.scomp,?_,?_,?_,?_,?_,?_⟩
  · rw [hb']
    exact hc.rseq
  · rw [hb']
    exact hc.rcomp
  · rw [hb']
    exact hc.flight
  · have hqueue := hc.queue
    rw [← period_eq hp] at hqueue ⊢
    have hpush := hqueue.push (by rw [period_eq hp]; omega)
      (fun _ => ⟨rsMsgOp msg,rsMsgData msg⟩) (rsMsgData msg) fun _ => rfl
    rw [hb']
    show RingQueue.Holds _ _ ⟨Function.update b.rs.rmsg b.rs.rmsgTail ⟨rsMsgOp msg,rsMsgData msg⟩,
      nextMsg pb b.rs.rmsgTail,b.rs.rmsgHead⟩ _
    rw [nextMsg_eq hp htail]
    exact hpush
  · rw [List.length_append,List.length_singleton]
    show f.window.read+(f.queued.length+1)+_+iomaps = f.window.sent
    omega
  · rw [List.sum_append,List.sum_singleton]
    omega

/-- What a poll leaves of a direction when nothing of it was polled. -/
theorem Granting.polled_there (hg : Granting pb tb f a b sent got) {rs : RSocket} {cq : List Wc}
    (hsge : rs.targetSge = a.rs.targetSge) (hsgl : rs.targetSgl = a.rs.targetSgl) :
    Granting pb tb f {a with rs := rs,cq := cq} b sent got :=
  hg.congr rfl rfl rfl rfl rfl rfl hsge hsgl rfl fun _ rest hsq _ _ => ⟨rfl,rest,hsq⟩

theorem Granting.polled_back (hg : Granting pb tb f a b sent got) {rs : RSocket} {cq : List Wc}
    (havail : rs.rbufBytesAvail = b.rs.rbufBytesAvail)
    (hfree : rs.rbufFreeOffset = b.rs.rbufFreeOffset) (hremote : rs.remoteSge = b.rs.remoteSge)
    (hoff : rs.rbufOffset = b.rs.rbufOffset) :
    Granting pb tb f a {b with rs := rs,cq := cq} sent got :=
  hg.congr rfl rfl havail hfree hremote hoff rfl rfl rfl fun _ rest hsq _ _ => ⟨rfl,rest,hsq⟩

/-- One completion is handled. -/
theorem Linked.handled (h : Linked pa pb ta tb f g A B) (hpa : Sound pa) {wc : Wc} {rest : List Wc}
    (hcq : A.host.cq = wc::rest) :
    ∃ f' g', Linked pa pb ta tb f' g' {A with host := handled pa A.host wc rest} B := by
  cases wc with
  | send msg =>
    have hhost := h.host.polled_send hcq
    have hwire : wire B.host (RsocketAdapter.handled pa A.host (.send msg) rest) =
        wire B.host A.host := by
      rw [wire,wire,recvMsgs,recvMsgs,hcq]
      rfl
    obtain ⟨seqno,state,sqe,bytes,heq⟩ := rsHandle_send pa A.host.rs msg
    rw [RsocketAdapter.handled,heq] at hwire ⊢
    rw [heq] at hhost
    refine ⟨f,g,hhost,h.peer,⟨?_,?_,?_⟩,⟨?_,?_,?_⟩⟩
    · exact h.there.counting.congr rfl rfl rfl rfl rfl (congrArg credits hwire) rfl
    · exact Granting.polled_there h.there.granting rfl rfl
    · exact h.there.arriving.congr rfl rfl rfl rfl
    · exact h.back.counting.congr rfl rfl rfl rfl rfl rfl (congrArg datas hwire)
    · exact Granting.polled_back h.back.granting rfl rfl rfl rfl
    · exact h.back.arriving.congr rfl rfl rfl rfl
  | recv msg =>
    have hwire : wire B.host A.host =
        msg::wire B.host (RsocketAdapter.handled pa A.host (.recv msg) rest) := by
      simp [wire,recvMsgs,RsocketAdapter.handled,hcq,Wc.recv?]
    by_cases hop : rsMsgOp msg = rsOpSgl
    · have hdata : isData msg = false := by simp [isData,hop]
      have hdatas := congrArg datas hwire
      rw [datas_cons,hdata] at hdatas
      rw [RsocketAdapter.handled,rsHandle_recv_sgl pa A.host.rs hop] at hdatas ⊢
      obtain ⟨f',harrived,hspent,hcount⟩ := Counting.polled_credit h.there.counting hcq hop
      refine ⟨f',g,HostInv.polled_recv h.host hcq rfl rfl rfl rfl rfl rfl rfl,h.peer,⟨hcount,?_,?_⟩,
        ⟨?_,?_,?_⟩⟩
      · exact Granting.polled_there (h.there.granting.congr_flow harrived hspent) rfl rfl
      · exact h.there.arriving.congr rfl rfl rfl rfl
      · exact h.back.counting.congr rfl rfl rfl rfl rfl rfl hdatas.symm
      · exact Granting.polled_back h.back.granting rfl rfl rfl rfl
      · exact h.back.arriving.congr rfl rfl rfl rfl
    · have hcredits := congrArg credits hwire
      rw [credits_cons,if_neg hop] at hcredits
      cases hdata : isData msg with
      | true =>
        rw [RsocketAdapter.handled,rsHandle_recv_data pa A.host.rs hdata] at hcredits ⊢
        refine ⟨f,{g with queued := g.queued++[rsMsgData msg]},
          HostInv.polled_recv h.host hcq rfl rfl rfl rfl rfl rfl rfl,h.peer,⟨?_,?_,?_⟩,⟨?_,?_,?_⟩⟩
        · exact h.there.counting.congr rfl rfl rfl rfl rfl hcredits.symm rfl
        · exact Granting.polled_there h.there.granting rfl rfl
        · exact h.there.arriving.congr rfl rfl rfl rfl
        · exact Counting.polled_data h.back.counting hpa hcq hdata rfl
        · refine Granting.congr_flow (f := g) ?_ rfl rfl
          exact Granting.polled_back h.back.granting rfl rfl rfl rfl
        · exact h.back.arriving.congr rfl rfl rfl rfl
      | false =>
        have hdatas := congrArg datas hwire
        rw [datas_cons,hdata] at hdatas
        obtain ⟨state,heq⟩ := rsHandle_recv_other pa A.host.rs hop hdata
        rw [RsocketAdapter.handled,heq] at hcredits hdatas ⊢
        refine ⟨f,g,HostInv.polled_recv h.host hcq rfl rfl rfl rfl rfl rfl rfl,h.peer,⟨?_,?_,?_⟩,
          ⟨?_,?_,?_⟩⟩
        · exact h.there.counting.congr rfl rfl rfl rfl rfl hcredits.symm rfl
        · exact Granting.polled_there h.there.granting rfl rfl
        · exact h.there.arriving.congr rfl rfl rfl rfl
        · exact h.back.counting.congr rfl rfl rfl rfl rfl rfl hdatas.symm
        · exact Granting.polled_back h.back.granting rfl rfl rfl rfl
        · exact h.back.arriving.congr rfl rfl rfl rfl

/-- The loop of `rs_poll_cq` handles the completions one by one and counts the received ones. -/
theorem Linked.pollLoop (hpa : Sound pa) (cq : List Wc) (h : Linked pa pb ta tb f g A B)
    (hcq : A.host.cq = cq) (rcnt : ℕ) :
    (rsPollLoop pa A.host.rs cq rcnt).2.2.1+
        ((rsPollLoop pa A.host.rs cq rcnt).2.1.filterMap Wc.recv?).length =
      rcnt+(cq.filterMap Wc.recv?).length ∧
    ∃ f' g', Linked pa pb ta tb f' g'
      {A with host := {A.host with
        rs := (rsPollLoop pa A.host.rs cq rcnt).1,cq := (rsPollLoop pa A.host.rs cq rcnt).2.1}} B := by
  induction cq generalizing A f g rcnt with
  | nil =>
    refine ⟨rfl,f,g,?_⟩
    rw [rsPollLoop,← hcq]
    exact h
  | cons wc rest ih =>
    obtain ⟨f',g',hone⟩ := Linked.handled h hpa hcq
    have hrecv : (if wc.recv?.isSome then rcnt+1 else rcnt)+(rest.filterMap Wc.recv?).length =
        rcnt+((wc::rest).filterMap Wc.recv?).length := by
      cases wc with
      | send msg => rfl
      | recv msg =>
        simp only [Wc.recv?,Option.isSome_some,if_true,List.filterMap_cons,List.length_cons]
        omega
    rw [rsPollLoop]
    dsimp only
    by_cases hstop : (rsHandle pa A.host.rs wc).2 = true
    · rw [if_pos hstop]
      exact ⟨hrecv,f',g',hone⟩
    · rw [if_neg hstop]
      obtain ⟨hcount,f'',g'',hrest⟩ := ih hone rfl (if wc.recv?.isSome then rcnt+1 else rcnt)
      exact ⟨hcount.trans hrecv,f'',g'',hrest⟩

/-- `rs_poll_cq` never posts more receives than the queue has room for. -/
theorem Linked.poll (h : Linked pa pb ta tb f g A B) (hpa : Sound pa) :
    ∃ f' g', Linked pa pb ta tb f' g' {A with host := rsPollCq pa A.host} B := by
  obtain ⟨hcount,f',g',hloop⟩ := Linked.pollLoop hpa A.host.cq h rfl 0
  have hrecv := h.host.receives
  rw [rsPollCq]
  generalize rsPollLoop pa A.host.rs A.host.cq 0 = out at hcount hloop
  refine ⟨f',g',?_,hloop.peer,?_,?_⟩
  · refine hloop.host.congr rfl rfl rfl rfl rfl rfl ?_ rfl rfl rfl rfl rfl rfl rfl
    show (if out.2.2.2 = false ∧ out.1.state.connected = true then A.host.rq+out.2.2.1
      else A.host.rq)+(out.2.1.filterMap Wc.recv?).length ≤ pa.rqSize
    split_ifs <;> omega
  · exact Dir.congr hloop.there rfl rfl rfl rfl rfl rfl rfl rfl rfl rfl
  · exact Dir.congr hloop.back rfl rfl rfl rfl rfl rfl rfl rfl rfl rfl

/-- The state of a socket and the message that `rshutdown` has to post are not looked at. -/
theorem Linked.setState (h : Linked pa pb ta tb f g A B) (state : RsState) (ctrl : Option ℕ) :
    Linked pa pb ta tb f g
      {A with host := {A.host with rs := {A.host.rs with state := state},ctrl := ctrl}} B := by
  refine ⟨h.host.congr rfl rfl rfl rfl rfl rfl h.host.receives rfl rfl rfl rfl rfl rfl rfl,h.peer,
    ⟨?_,?_,?_⟩,⟨?_,?_,?_⟩⟩
  · exact h.there.counting.congr rfl rfl rfl rfl rfl rfl rfl
  · exact h.there.granting.congr rfl rfl rfl rfl rfl rfl rfl rfl rfl
      fun _ rest hsq _ _ => ⟨rfl,rest,hsq⟩
  · exact h.there.arriving.congr rfl rfl rfl rfl
  · exact h.back.counting.congr rfl rfl rfl rfl rfl rfl rfl
  · exact h.back.granting.congr rfl rfl rfl rfl rfl rfl rfl rfl rfl
      fun _ rest hsq _ _ => ⟨rfl,rest,hsq⟩
  · exact h.back.arriving.congr rfl rfl rfl rfl

end FreeFlow.RsocketAdapter
