import FreeFlow.RequestReply
import FreeFlow.TokenBucket
import FreeFlow.Wire

/-!
# The request handler of the router

`HandleRequest` reads one request after the other from a client's socket.
Each case of its `switch` looks up the handles of the request, calls the
driver, sets `size` and leaves the `switch` for the write of the response. A
missing handle jumps past that write, to the read of the next header. The
client's `request_router` meanwhile waits for the response of its function.

What a request meets is an input: the entries of the handle tables, which
the threads of other clients change, and the results of the calls that leave
the router. The driver returns from every call; a call that dispatches through a
NULL object is undefined, as is an index outside a table and a body or a
response that the buffers of the handler do not hold.
-/

set_option autoImplicit false

namespace FreeFlow.RequestHandler

open Wire RequestReply Runs

/-- The commands of the connection manager that need no table: the body is
passed on and the result of the call is part of the response. -/
inductive CmCommand
  | createId
  | bindIp
  | bind
  | getEvent
  | queryRoute
  | listen
  | resolveIp
  | resolveAddr
  | ucmaQueryAddr
  | ucmaQueryGid
  | ucmaProcessConnResp
  | destroyId
  | resolveRoute
  | ucmaQueryPath
  | initQpAttr
  | connect
  | accept
  | setOption
  | migrateId
  | disconnect
  deriving DecidableEq

def CmCommand.func : CmCommand → RdmaFunctionCall
  | .createId => .cmCreateId
  | .bindIp => .cmBindIp
  | .bind => .cmBind
  | .getEvent => .cmGetEvent
  | .queryRoute => .cmQueryRoute
  | .listen => .cmListen
  | .resolveIp => .cmResolveIp
  | .resolveAddr => .cmResolveAddr
  | .ucmaQueryAddr => .cmUcmaQueryAddr
  | .ucmaQueryGid => .cmUcmaQueryGid
  | .ucmaProcessConnResp => .cmUcmaProcessConnResp
  | .destroyId => .cmDestroyId
  | .resolveRoute => .cmResolveRoute
  | .ucmaQueryPath => .cmUcmaQueryPath
  | .initQpAttr => .cmInitQpAttr
  | .connect => .cmConnect
  | .accept => .cmAccept
  | .setOption => .cmSetOption
  | .migrateId => .cmMigrateId
  | .disconnect => .cmDisconnect

/-- A work request of a post: `num_sge` and the address handle behind the sges. -/
structure SendWr where
  numSge : ℤ
  ah : ℕ
  deriving DecidableEq

/-- The requests that the client libraries send, with the handles they name. -/
inductive Request
  | getContext
  | queryDev
  | expQueryDev
  | queryPort
  | allocPd
  | deallocPd (pdHandle : ℕ)
  | createCq (channelFd : ℤ)
  | destroyCq (cqHandle : ℕ)
  | reqNotifyCq (cqHandle : ℕ)
  | createQp (pdHandle srqHandle sendCqHandle recvCqHandle : ℕ)
  | destroyQp (qpHandle : ℕ)
  | regMr (pdHandle : ℕ)
  | regMrMapping
  | deregMr (handle : ℕ)
  | modifyQp (handle : ℕ)
  | queryQp
  | postSend (qpHandle bodySize : ℕ) (wrs : List SendWr)
  | postRecv (qpHandle bodySize : ℕ)
  | pollCq (cqHandle : ℕ)
  | createCompChannel
  | destroyCompChannel (fd : ℤ)
  | getCqEvent (fd : ℤ)
  | ackCqEvent (cqHandle : ℕ)
  | createAh (pdHandle : ℕ)
  | destroyAh (ahHandle : ℕ)
  | createFlow
  | destroyFlow
  | createSrq (pdHandle : ℕ)
  | modifySrq (srqHandle : ℕ)
  | destroySrq (srqHandle : ℕ)
  | postSrqRecv (srqHandle bodySize : ℕ)
  | createEventChannel
  | destroyEventChannel (fd : ℤ)
  | cm (command : CmCommand)
  deriving DecidableEq

def Request.func : Request → RdmaFunctionCall
  | .getContext => .ibvGetContext
  | .queryDev => .ibvQueryDev
  | .expQueryDev => .ibvExpQueryDev
  | .queryPort => .ibvQueryPort
  | .allocPd => .ibvAllocPd
  | .deallocPd _ => .ibvDeallocPd
  | .createCq _ => .ibvCreateCq
  | .destroyCq _ => .ibvDestroyCq
  | .reqNotifyCq _ => .ibvReqNotifyCq
  | .createQp _ _ _ _ => .ibvCreateQp
  | .destroyQp _ => .ibvDestroyQp
  | .regMr _ => .ibvRegMr
  | .regMrMapping => .ibvRegMrMapping
  | .deregMr _ => .ibvDeregMr
  | .modifyQp _ => .ibvModifyQp
  | .queryQp => .ibvQueryQp
  | .postSend _ _ _ => .ibvPostSend
  | .postRecv _ _ => .ibvPostRecv
  | .pollCq _ => .ibvPollCq
  | .createCompChannel => .ibvCreateCompChannel
  | .destroyCompChannel _ => .ibvDestroyCompChannel
  | .getCqEvent _ => .ibvGetCqEvent
  | .ackCqEvent _ => .ibvAckCqEvent
  | .createAh _ => .ibvCreateAh
  | .destroyAh _ => .ibvDestroyAh
  | .createFlow => .ibvCreateFlow
  | .destroyFlow => .ibvDestroyFlow
  | .createSrq _ => .ibvCreateSrq
  | .modifySrq _ => .ibvModifySrq
  | .destroySrq _ => .ibvDestroySrq
  | .postSrqRecv _ _ => .ibvPostSrqRecv
  | .createEventChannel => .cmCreateEventChannel
  | .destroyEventChannel _ => .cmDestroyEventChannel
  | .cm command => command.func

def Request.bodySize : Request → ℕ
  | .postSend _ n _ => n
  | .postRecv _ n => n
  | .postSrqRecv _ n => n
  | req => sizeofReq req.func

/-- The entries of the router's tables that are not NULL. -/
structure Router where
  disableRdma : Bool
  pdMap : ℕ → Bool
  cqMap : ℕ → Bool
  qpMap : ℕ → Bool
  mrMap : ℕ → Bool
  ahMap : ℕ → Bool
  srqMap : ℕ → Bool
  channelMap : ℕ → Bool
  eventChannelMap : ℕ → Bool
  shmrMap : ℕ → Bool
  tokenbucket : ℕ → Bool
  ud : ℕ → Bool

/-- The calls made for one entry of `HOST_LIST`: whether `socket` and `bind`
succeed, the entry is an address and `recvfrom` returns. -/
structure HostCalls where
  socket : Bool
  bind : Bool
  aton : Bool
  recvfrom : Bool

/-- The results of the calls of one request that leave the router. `created` is the
handle or descriptor of the object that the driver creates, `rateLimit` the
value of `RATE_LIMIT_<client>`, `granted` that the token bucket lets every
sge pass and `written` that `write` takes the whole response. -/
structure Calls where
  created : Option ℕ
  ctrlShm : Bool
  shmPiece : Bool
  rateLimit : Option ℕ
  hosts : List HostCalls
  granted : Bool
  pollCount : ℤ
  cqEvent : Bool
  sendFd : Bool
  written : Bool

def bufferSize (r : Router) : ℕ := if r.disableRdma then 0xff else 0xfffff

def pollRspSize (c : Calls) : ℕ := if c.pollCount ≤ 0 then 0 else c.pollCount.toNat*sizeofWc

def size (c : Calls) : Request → ℕ
  | .pollCq _ => sizeofResponseHeader+pollRspSize c
  | .ackCqEvent _ => sizeofRsp .ibvGetCqEvent
  -- this case never assigns `size`
  | .cm .bindIp => 0
  -- written with the struct of another function, of the same size
  | .cm .resolveAddr => sizeofRsp .cmResolveIp
  | req => sizeofRsp req.func

/-- The bytes of `rsp` that a case fills. -/
def filled (c : Calls) : Request → ℕ
  | .pollCq _ => sizeofResponseHeader+pollRspSize c
  | req => sizeofRsp req.func

/-- The bytes that accompany a descriptor in `send_fd` and `recv_fd`. -/
def fdBytes : Request → ℕ
  | .createCompChannel => 2
  | .createEventChannel => 2
  | _ => 0

def awaited (c : Calls) (req : Request) : ℕ := fdBytes req+filled c req

def inTable (h : ℕ) : Check := ⟨h < mapSize,.undefined⟩

def fdInTable (fd : ℤ) : Check := ⟨0 ≤ fd ∧ fd < mapSize,.undefined⟩

/-- A pointer that is used without a test. -/
def nonNull (p : Bool) : Check := ⟨p,.undefined⟩

/-- `if (p == NULL) goto end`. -/
def foundOrEnd (p : Bool) : Check := ⟨p,.skipped⟩

/-- `ib_context` is opened only if RDMA is enabled. -/
def ibContext (r : Router) : Check := nonNull (!r.disableRdma)

/-- The checks of a case that looks up one handle and jumps to `end` if it has
no entry. -/
def lookup (table : ℕ → Bool) (h : ℕ) : List Check := [inTable h,foundOrEnd (table h)]

def lookupFd (table : ℕ → Bool) (fd : ℤ) : List Check :=
  [fdInTable fd,foundOrEnd (table fd.toNat)]

/-- A handle outside the table leaves the pointer NULL. -/
def lookupUnchecked (table : ℕ → Bool) (h : ℕ) : List Check :=
  [nonNull (decide (h < mapSize) && table h)]

/-- The control segment of a new object, stored without a test of its handle. -/
def ctrlSegment (c : Calls) : List Check :=
  [nonNull c.ctrlShm,inTable (c.created.getD 0)]

/-- One round of the loop over `HOST_LIST`. A failed `bind` or address goes on
with the next host, a failed `socket` returns from the handler. -/
def hostChecks (h : HostCalls) : List Check :=
  [⟨h.socket,.abandoned⟩,⟨!h.bind || !h.aton || h.recvfrom,.blocked⟩]

/-- One round of the loop over the work requests of a post. -/
def wrChecks (r : Router) (c : Calls) (qpHandle : ℕ) (w : SendWr) : List Check :=
  (if 0 < w.numSge then [nonNull (r.tokenbucket qpHandle),⟨c.granted,.blocked⟩] else [])++
    if r.ud qpHandle then [inTable w.ah] else []

/-- The checks of each case, in the order of the source. -/
def caseChecks (r : Router) (c : Calls) : Request → List Check
  | .getContext => [ibContext r]
  | .queryDev => []
  | .expQueryDev => [ibContext r]
  | .queryPort => [ibContext r]
  | .allocPd => [ibContext r,nonNull c.created.isSome]
  | .deallocPd h => lookup r.pdMap h
  | .createCq fd => (if fd < 0 then [] else lookupFd r.channelMap fd)++
      [ibContext r,nonNull c.created.isSome]++ctrlSegment c
  | .destroyCq h => lookup r.cqMap h
  | .reqNotifyCq h => lookup r.cqMap h
  | .createQp pd srq sendCq recvCq =>
      [inTable srq,inTable sendCq,inTable recvCq,inTable pd,nonNull (r.pdMap pd),
        foundOrEnd c.created.isSome,
        -- the constructor of the bucket divides by the rate
        ⟨c.rateLimit.getD (8*TokenBucket.maxQpRateLimit)/8 ≠ 0,.undefined⟩]++ctrlSegment c
  | .destroyQp h => lookup r.qpMap h
  | .regMr h => foundOrEnd c.shmPiece::lookup r.pdMap h++[foundOrEnd c.created.isSome]
  | .regMrMapping => c.hosts.flatMap hostChecks
  | .deregMr h => [inTable h,nonNull (r.mrMap h),nonNull (r.shmrMap h)]
  | .modifyQp h => lookupUnchecked r.qpMap h
  | .queryQp => [ibContext r]
  | .postSend h _ wrs => lookupUnchecked r.qpMap h++wrs.flatMap (wrChecks r c h)
  | .postRecv h _ => lookupUnchecked r.qpMap h
  | .pollCq h => [foundOrEnd (decide (h < mapSize) && r.cqMap h)]
  | .createCompChannel => [ibContext r,nonNull c.created.isSome]
  | .destroyCompChannel fd => lookupFd r.channelMap fd
  | .getCqEvent fd => lookupFd r.channelMap fd++[foundOrEnd c.cqEvent]
  | .ackCqEvent h => lookup r.cqMap h
  | .createAh h => lookup r.pdMap h++[nonNull c.created.isSome]
  | .destroyAh h => lookup r.ahMap h
  | .createFlow => [ibContext r]
  | .destroyFlow => [ibContext r]
  | .createSrq h => lookup r.pdMap h++[nonNull c.created.isSome]++ctrlSegment c
  | .modifySrq h => lookup r.srqMap h
  | .destroySrq h => lookup r.srqMap h
  | .postSrqRecv h _ => lookupUnchecked r.srqMap h
  | .createEventChannel => [nonNull c.created.isSome]
  | .destroyEventChannel fd => lookupFd r.eventChannelMap fd
  | .cm _ => []

def checks (r : Router) (c : Calls) (req : Request) : List Check :=
  ⟨req.bodySize ≤ bufferSize r,.undefined⟩::caseChecks r c req++
    [⟨filled c req ≤ bufferSize r,.undefined⟩]

structure Exchange where
  router : Router
  calls : Calls
  request : Request

/-- The bytes of a request that passes every check, with those of `send_fd`. -/
def replied (x : Exchange) : ℕ :=
  (if x.calls.sendFd then fdBytes x.request else 0)+size x.calls x.request

def handleRequest (x : Exchange) : Outcome :=
  checked (checks x.router x.calls x.request)
    (if x.calls.written then .wrote (replied x) else .closed)

def requestRouter (x : Exchange) : ℕ := awaited x.calls x.request

def Present (table : ℕ → Bool) (h : ℕ) : Prop := h < mapSize ∧ table h = true

def PresentFd (table : ℕ → Bool) (fd : ℤ) : Prop := 0 ≤ fd ∧ Present table fd.toNat

/-- The driver creates an object whose handle has a place in the tables and
the control segment of the object is opened. -/
def Segmented (c : Calls) : Prop := (∃ h, c.created = some h ∧ h < mapSize) ∧ c.ctrlShm = true

def HostsAnswer (c : Calls) : Prop := ∀ h ∈ c.hosts, h.socket = true ∧
  (h.bind = true → h.aton = true → h.recvfrom = true)

/-- The sges of a work request get their tokens; the address handle of a UD
request is inside the table. -/
def WrReady (r : Router) (c : Calls) (qpHandle : ℕ) (w : SendWr) : Prop :=
  (0 < w.numSge → r.tokenbucket qpHandle = true ∧ c.granted = true) ∧
    (r.ud qpHandle = true → w.ah < mapSize)

def Ready (r : Router) (c : Calls) : Request → Prop
  | .getContext | .expQueryDev | .queryPort | .queryQp | .createFlow | .destroyFlow =>
      r.disableRdma = false
  | .queryDev | .cm _ => True
  | .allocPd | .createCompChannel => r.disableRdma = false ∧ c.created.isSome = true
  | .createEventChannel => c.created.isSome = true
  | .deallocPd h => Present r.pdMap h
  | .createAh h => Present r.pdMap h ∧ c.created.isSome = true
  | .createSrq h => Present r.pdMap h ∧ Segmented c
  | .createCq fd => (0 ≤ fd → PresentFd r.channelMap fd) ∧ r.disableRdma = false ∧ Segmented c
  | .createQp pd srq sendCq recvCq => Present r.pdMap pd ∧
      (srq < mapSize ∧ sendCq < mapSize ∧ recvCq < mapSize) ∧ (∀ l, c.rateLimit = some l → 8 ≤ l) ∧
      Segmented c
  | .regMr h => c.shmPiece = true ∧ Present r.pdMap h ∧ c.created.isSome = true
  | .regMrMapping => HostsAnswer c
  | .deregMr h => Present r.mrMap h ∧ Present r.shmrMap h
  | .destroyCq h | .reqNotifyCq h | .ackCqEvent h | .pollCq h => Present r.cqMap h
  | .destroyQp h | .modifyQp h | .postRecv h _ => Present r.qpMap h
  | .postSend h _ wrs => Present r.qpMap h ∧ ∀ w ∈ wrs, WrReady r c h w
  | .destroyCompChannel fd => PresentFd r.channelMap fd
  | .getCqEvent fd => PresentFd r.channelMap fd ∧ c.cqEvent = true
  | .destroyAh h => Present r.ahMap h
  | .modifySrq h | .destroySrq h | .postSrqRecv h _ => Present r.srqMap h
  | .destroyEventChannel fd => PresentFd r.eventChannelMap fd

/-- The request is ready, its body and response fit the buffers, and a
response that is written is that of a case that sets `size`, after the
descriptor if there is one. -/
structure Served (x : Exchange) : Prop where
  ready : Ready x.router x.calls x.request
  body : x.request.bodySize ≤ bufferSize x.router
  response : filled x.calls x.request ≤ bufferSize x.router
  sized : x.calls.written = true →
    x.request ≠ .cm .bindIp ∧ (0 < fdBytes x.request → x.calls.sendFd = true)

theorem lookup_passed (table : ℕ → Bool) (h : ℕ) : Passed (lookup table h) ↔ Present table h := by
  simp [lookup,inTable,foundOrEnd,Present]

theorem lookupFd_passed (table : ℕ → Bool) (fd : ℤ) :
    Passed (lookupFd table fd) ↔ PresentFd table fd := by
  have hrange : 0 ≤ fd ∧ fd < mapSize ↔ 0 ≤ fd ∧ fd.toNat < mapSize := by omega
  simp [lookupFd,fdInTable,foundOrEnd,PresentFd,Present,hrange,and_assoc]

theorem lookupUnchecked_passed (table : ℕ → Bool) (h : ℕ) :
    Passed (lookupUnchecked table h) ↔ Present table h := by
  simp [lookupUnchecked,nonNull,Present]

theorem ctrlSegment_passed (c : Calls) :
    c.created.isSome = true ∧ Passed (ctrlSegment c) ↔ Segmented c := by
  cases hc : c.created with
  | none => simp [Segmented,hc]
  | some h => simp [ctrlSegment,nonNull,inTable,Segmented,hc,and_comm]

theorem hostChecks_passed (h : HostCalls) : Passed (hostChecks h) ↔
    h.socket = true ∧ (h.bind = true → h.aton = true → h.recvfrom = true) := by
  cases hb : h.bind <;> cases ha : h.aton <;> simp [hostChecks,hb,ha]

theorem wrChecks_passed (r : Router) (c : Calls) (h : ℕ) (w : SendWr) :
    Passed (wrChecks r c h w) ↔ WrReady r c h w := by
  unfold wrChecks WrReady
  rw [passed_append]
  apply and_congr
  · split_ifs with hsge <;> simp [nonNull,hsge]
  · split_ifs with hud <;> simp [inTable,hud]

theorem caseChecks_passed (r : Router) (c : Calls) (req : Request) :
    Passed (caseChecks r c req) ↔ Ready r c req := by
  have hsegment := ctrlSegment_passed c
  cases req with
  | createCq fd =>
    have hchannel : Passed (if fd < 0 then [] else lookupFd r.channelMap fd) ↔
        (0 ≤ fd → PresentFd r.channelMap fd) := by
      split_ifs with hfd
      · simp [not_le.mpr hfd]
      · simp [lookupFd_passed,not_lt.mp hfd]
    simp only [caseChecks,Ready,passed_append,hchannel,← hsegment]
    simp [ibContext,nonNull,and_assoc]
  | createQp pd srq sendCq recvCq =>
    have hrate : c.rateLimit.getD (8*TokenBucket.maxQpRateLimit)/8 ≠ 0 ↔
        ∀ l, c.rateLimit = some l → 8 ≤ l := by
      cases c.rateLimit with
      | none => simp [TokenBucket.maxQpRateLimit]
      | some l => simp
    simp only [caseChecks,Ready,passed_append,passed_cons,decide_eq_true_eq,hrate,← hsegment]
    simp only [inTable,nonNull,foundOrEnd,Present,decide_eq_true_eq,passed_nil]
    tauto
  | createSrq h =>
    simp only [caseChecks,Ready,passed_append,lookup_passed,← hsegment]
    simp [nonNull,and_assoc]
  | deregMr h =>
    simp only [caseChecks,Ready,passed_cons,passed_nil,inTable,nonNull,Present,decide_eq_true_eq]
    tauto
  | _ => simp [caseChecks,Ready,lookup_passed,lookupFd_passed,lookupUnchecked_passed,
      hostChecks_passed,wrChecks_passed,ibContext,nonNull,foundOrEnd,HostsAnswer,Present]

theorem checks_passed (r : Router) (c : Calls) (req : Request) : Passed (checks r c req) ↔
    Ready r c req ∧ req.bodySize ≤ bufferSize r ∧ filled c req ≤ bufferSize r := by
  simp only [checks,passed_cons,passed_append,caseChecks_passed,decide_eq_true_eq,passed_nil,
    List.cons_append]
  tauto

theorem filled_pos (c : Calls) (req : Request) : 0 < filled c req := by
  cases req with
  | pollCq h => exact Nat.add_pos_left (Nat.succ_pos _) _
  | cm command => cases command <;> exact Nat.succ_pos _
  | _ => exact Nat.succ_pos _

theorem size_bindIp (c : Calls) : size c (.cm .bindIp) = 0 := rfl

theorem size_eq_filled (c : Calls) (req : Request) (h : req ≠ .cm .bindIp) :
    size c req = filled c req := by
  cases req with
  | cm command =>
    cases command with
    | bindIp => exact absurd rfl h
    | _ => rfl
  | _ => rfl

theorem size_le_filled (c : Calls) (req : Request) : size c req ≤ filled c req := by
  by_cases hreq : req = .cm .bindIp
  · simp [hreq,size_bindIp]
  · exact (size_eq_filled c req hreq).le

theorem awaited_pos (x : Exchange) : 0 < requestRouter x :=
  Nat.add_pos_right _ (filled_pos x.calls x.request)

theorem replied_le (x : Exchange) : replied x ≤ requestRouter x := by
  have hsize := size_le_filled x.calls x.request
  unfold replied requestRouter awaited
  split_ifs <;> omega

theorem replied_eq_iff (x : Exchange) : replied x = requestRouter x ↔
    x.request ≠ .cm .bindIp ∧ (0 < fdBytes x.request → x.calls.sendFd = true) := by
  have hfilled := filled_pos x.calls x.request
  have hle := size_le_filled x.calls x.request
  unfold replied requestRouter awaited
  by_cases hreq : x.request = .cm .bindIp
  · have hfd : fdBytes x.request = 0 := by rw [hreq]; rfl
    have hsize : size x.calls x.request = 0 := by rw [hreq]; rfl
    simp only [hreq,ne_eq,not_true_eq_false,false_and,iff_false]
    rw [hreq] at hfd hsize hfilled
    split_ifs <;> omega
  · have hsize := size_eq_filled x.calls x.request hreq
    simp only [hsize,ne_eq,hreq,not_false_eq_true,true_and]
    split_ifs with hsend <;> simp [hsend]

theorem answers_iff_served (x : Exchange) :
    Answers handleRequest requestRouter x ↔ Served x := by
  unfold Answers handleRequest
  rw [checked_answers_iff _ _ _ (awaited_pos x),checks_passed]
  have hreply : (if x.calls.written then Outcome.wrote (replied x) else .closed) = .closed ∨
      (if x.calls.written then Outcome.wrote (replied x) else .closed) =
        .wrote (requestRouter x) ↔
      (x.calls.written = true → replied x = requestRouter x) := by
    cases hw : x.calls.written <;> simp
  rw [hreply,replied_eq_iff]
  exact ⟨fun ⟨⟨hready,hbody,hresponse⟩,hsized⟩ => ⟨hready,hbody,hresponse,hsized⟩,
    fun h => ⟨⟨h.ready,h.body,h.response⟩,h.sized⟩⟩

theorem wrote_le (x : Exchange) (n : ℕ) (h : handleRequest x = .wrote n) :
    n ≤ requestRouter x := by
  unfold handleRequest at h
  rcases checked_cases (checks x.router x.calls x.request)
    (if x.calls.written then .wrote (replied x) else .closed) with ⟨-,heq⟩ | ⟨-,f,heq⟩
  · rw [heq] at h
    cases hw : x.calls.written with
    | true =>
      obtain rfl : replied x = n := by simpa [hw] using h
      exact replied_le x
    | false => simp [hw] at h
  · rw [heq] at h
    cases f <;> simp [Failure.outcome] at h
    omega

/-- A request is answered exactly if it is served; requests that are all
served never block both sides; and a request that is not served, after which
the handler reads the next header, does block both sides. -/
theorem answered_iff_served (x : Exchange) (n : ℕ) (events : List (Event Exchange))
    (s : Channel Exchange) :
    (Answers handleRequest requestRouter x ↔ Served x) ∧
    ((∀ y, Event.send y ∈ events → Served y) →
      run (step handleRequest requestRouter) opened events = some s → ¬Deadlocked s) ∧
    (handleRequest x = .wrote n → ¬Served x →
      ∃ events s, (∀ y, Event.send y ∈ events → y = x) ∧
        run (step handleRequest requestRouter) opened events = some s ∧ Deadlocked s) := by
  refine ⟨answers_iff_served x,fun hserved hrun => ?_,fun hwrote hunserved => ?_⟩
  · exact never_deadlocked events s (fun y hy => (answers_iff_served y).mpr (hserved y hy)) hrun
  · have hne : n ≠ requestRouter x := by
      rintro rfl
      exact hunserved ((answers_iff_served x).mp (.inr hwrote))
    exact short_reply_deadlocks x n hwrote (lt_of_le_of_ne (wrote_le x n hwrote) hne)

def idle (req : Request) : Exchange :=
  { router := ⟨false,fun _ => false,fun _ => false,fun _ => false,fun _ => false,fun _ => false,
      fun _ => false,fun _ => false,fun _ => false,fun _ => false,fun _ => false,fun _ => false⟩
    calls := ⟨some 0,true,true,none,[],true,0,true,true,true⟩
    request := req }

/-- `ibv_alloc_pd` is answered; the release of an unknown PD blocks. -/
theorem alloc_pd_answered : Served (idle .allocPd) ∧
    Answers handleRequest requestRouter (idle .allocPd) ∧
    run (step handleRequest requestRouter) opened [.send (idle .allocPd),.serve] =
      some ⟨.listening,none,4,4⟩ ∧
    ¬Deadlocked (⟨.listening,none,4,4⟩ : Channel Exchange) ∧
    ∃ events s, (∀ y, Event.send y ∈ events → y = idle (.deallocPd 7)) ∧
      run (step handleRequest requestRouter) opened events = some s ∧ Deadlocked s := by
  have hserved : Served (idle .allocPd) :=
    ⟨⟨rfl,rfl⟩,by decide,by decide,fun _ => ⟨by decide,fun _ => rfl⟩⟩
  have halloc := answered_iff_served (idle .allocPd) 4 [.send (idle .allocPd),.serve]
    ⟨.listening,none,4,4⟩
  have hdealloc := answered_iff_served (idle (.deallocPd 7)) 0 [] opened
  refine ⟨hserved,halloc.1.mpr hserved,rfl,halloc.2.1 (fun y hy => ?_) rfl,?_⟩
  · obtain rfl : y = idle .allocPd := by simpa using hy
    exact hserved
  · exact hdealloc.2.2 (by decide) fun h => absurd h.ready.2 (by decide)

/-- `CM_BIND_IP` leaves `size` at 0: the client waits for four bytes and the
handler for the next header. -/
theorem bind_ip_deadlocks : ¬Answers handleRequest requestRouter (idle (.cm .bindIp)) ∧
    handleRequest (idle (.cm .bindIp)) = .wrote 0 ∧ requestRouter (idle (.cm .bindIp)) = 4 ∧
    ∃ s, run (step handleRequest requestRouter) opened [.send (idle (.cm .bindIp)),.serve] =
      some s ∧ Deadlocked s := by
  refine ⟨?_,by decide,by decide,⟨.listening,none,4,0⟩,rfl,rfl,rfl,by decide,rfl⟩
  rintro (h | h) <;> exact absurd h (by decide)

end FreeFlow.RequestHandler
