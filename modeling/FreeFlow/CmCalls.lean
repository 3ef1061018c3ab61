import FreeFlow.ByteMemory
import Mathlib.Data.Int.Notation

/-!
# Calls of the connection manager

A call of the connection-manager library asks the router one or more times. Each
response carries `ret_errno`, and some carry data: the id of a new CM id, a number
of events, addresses, paths and attributes of a QP. The checks of the original
library on its `write` were removed with the `write`. Two of them came back, one
with a comparison in place of the value.

The steps of a call end at its first failure (`andThen`). What a call leaves behind
is its CM id and the attributes it gave to the QP.
-/

set_option autoImplicit false

namespace FreeFlow.CmCalls

open ByteMemory

/-- The states `rdma_accept` takes its QP through. -/
inductive QpState
  | init
  | rtr
  | rts
  deriving DecidableEq

inductive Kind
  | createChannel
  | createId
  | bindIp
  | bind
  | listen
  | resolveIp
  | resolveAddr
  | resolveRoute
  | connect
  | initQpAttr (state : QpState)
  | accept
  | disconnect
  | setOption
  | migrateId
  | queryAddr
  | queryGid
  | queryRoute
  deriving DecidableEq

/-- `struct ucma_abi_query_addr_resp`, the addresses with their sizes. -/
structure AddrResp where
  srcAddr : List (BitVec 8)
  dstAddr : List (BitVec 8)
  nodeGuid : ℕ
  portNum : ℕ
  pkey : ℕ

/-- The two GIDs `ucma_query_gid` takes from its response. -/
structure GidResp where
  sgid : BitVec 128
  dgid : BitVec 128

/-- `struct ucma_abi_query_route_resp`. -/
structure RouteResp where
  paths : List ℕ
  sgid : BitVec 128
  dgid : BitVec 128
  pkey : ℕ
  srcAddr : List (BitVec 8)
  dstAddr : List (BitVec 8)
  nodeGuid : ℕ
  portNum : ℕ

/-- `struct ibv_kern_qp_attr`; `others` are the attributes the library passes on. -/
structure QpAttr where
  mask : BitVec 32
  maxRdAtomic : ℕ
  maxDestRdAtomic : ℕ
  others : List ℕ

/-- What a response holds besides `ret_errno`. -/
def Resp : Kind → Type
  | .createChannel => ℤ
  | .createId => ℕ
  | .initQpAttr _ => QpAttr
  | .migrateId => ℕ
  | .queryAddr => AddrResp
  | .queryGid => GidResp
  | .queryRoute => RouteResp
  | _ => Unit

@[ext] structure Reply (k : Kind) where
  retErrno : ℤ
  resp : Resp k

/-- The responses a call gets. -/
abbrev Router := (k : Kind) → Reply k

structure Event where
  status : ℤ

structure CmId where
  handle : ℕ
  registered : Bool
  channel : ℤ
  sync : Bool
  event : Option Event
  srcAddr : Memory
  dstAddr : Memory
  sgid : BitVec 128
  dgid : BitVec 128
  pkey : ℕ
  paths : List ℕ
  cmaDev : Option ℕ
  portNum : ℕ

inductive Family
  | inet
  | inet6
  | ib
  | other
  deriving DecidableEq

structure Sockaddr where
  family : Family
  bytes : List (BitVec 8)

/-- What else a call depends on. `event` is the result of `rdma_get_cm_event`, none
where it never returns. -/
structure Env where
  afIbSupport : Bool
  ucmaInit : ℤ
  allocated : Bool
  channelAllocated : Bool
  pathAllocated : Bool
  getDevice : ℕ → ℤ
  validParam : ℤ
  hasQp : Bool
  udQp : Bool
  responderResources : ℕ
  initiatorDepth : ℕ
  linkInfiniband : Bool
  modifyQp : QpState → QpAttr → ℤ
  shutdown : ℤ
  event : Option (ℤ × Event)
  transportIb : Bool
  getaddrinfo : ℤ
  routeLen : ℕ
  eventsCompleted : ℕ

/-- The value a call returns, none where it waits for ever, the CM id it leaves, the
requests it made and the attributes it gave to the QP. -/
structure Outcome where
  ret : Option ℤ
  id : CmId
  asked : List Kind
  modified : List (QpState × QpAttr)

def done (ret : ℤ) (id : CmId) : Outcome := ⟨some ret,id,[],[]⟩

def ask (k : Kind) (o : Outcome) : Outcome := {o with asked := k::o.asked}

def Outcome.andThen (o : Outcome) (next : CmId → Outcome) : Outcome :=
  if o.ret = some 0 then
    ⟨(next o.id).ret,(next o.id).id,o.asked++(next o.id).asked,
      o.modified++(next o.id).modified⟩
  else o

def ucmaAddrlen (e : Env) (addr : Sockaddr) : ℕ :=
  match addr.family with
  | .inet => 16
  | .inet6 => 28
  | .ib => if e.afIbSupport then 48 else 0
  | .other => 0

def ucmaQueryAddr (e : Env) (id : CmId) (router : Router) : Outcome :=
  let resp : AddrResp := (router .queryAddr).resp
  let id := {id with srcAddr := put id.srcAddr 0 resp.srcAddr,
                     dstAddr := put id.dstAddr 0 resp.dstAddr}
  ask .queryAddr <|
    if id.cmaDev = none ∧ resp.nodeGuid ≠ 0 then
      if e.getDevice resp.nodeGuid ≠ 0 then done (e.getDevice resp.nodeGuid) id
      else done 0 {id with cmaDev := some resp.nodeGuid,portNum := resp.portNum,
                           pkey := resp.pkey}
    else done 0 id

def ucmaQueryGid (id : CmId) (router : Router) : Outcome :=
  let resp : GidResp := (router .queryGid).resp
  ask .queryGid (done 0 {id with sgid := resp.sgid,dgid := resp.dgid})

def ucmaQueryRoute (e : Env) (id : CmId) (router : Router) : Outcome :=
  let resp : RouteResp := (router .queryRoute).resp
  ask .queryRoute <|
    if resp.paths ≠ [] ∧ e.pathAllocated = false then done (-1) {id with paths := []}
    else
      let id := {id with paths := if resp.paths ≠ [] then resp.paths else id.paths,
                         sgid := resp.sgid,dgid := resp.dgid,pkey := resp.pkey,
                         srcAddr := put id.srcAddr 0 resp.srcAddr,
                         dstAddr := put id.dstAddr 0 resp.dstAddr}
      if id.cmaDev = none ∧ resp.nodeGuid ≠ 0 then
        if e.getDevice resp.nodeGuid ≠ 0 then done (e.getDevice resp.nodeGuid) id
        else done 0 {id with cmaDev := some resp.nodeGuid,portNum := resp.portNum}
      else done 0 id

/-- `ucma_complete`: a synchronous id waits for an event. -/
def ucmaComplete (e : Env) (id : CmId) : Outcome :=
  if id.sync = false then done 0 id
  else
    match e.event with
    | none => ⟨none,{id with event := none},[],[]⟩
    | some (ret,event) =>
      if ret ≠ 0 then done ret {id with event := none}
      else done (if event.status ≠ 0 then -1 else 0) {id with event := some event}

/-- `rdma_create_event_channel`, with the requests it made. -/
def rdmaCreateEventChannel (e : Env) (router : Router) : Option ℤ × List Kind :=
  if e.ucmaInit ≠ 0 ∨ e.channelAllocated = false then (none,[])
  else
    let fd : ℤ := (router .createChannel).resp
    (if fd < 0 then none else some fd,[.createChannel])

/-- The channel of a caller, or a new one. -/
def openChannel (e : Env) (channel : Option ℤ) (router : Router) : Option ℤ × List Kind :=
  match channel with
  | some fd => (some fd,[])
  | none => rdmaCreateEventChannel e router

def rdmaCreateId (e : Env) (channel : Option ℤ) (id : CmId) (router : Router) : Outcome :=
  if e.ucmaInit ≠ 0 then done e.ucmaInit id
  else if e.allocated = false then done (-1) id
  else
    let opened := openChannel e channel router
    match opened.1 with
    | none => ⟨some (-1),id,opened.2,[]⟩
    | some fd =>
      let resp : ℕ := (router .createId).resp
      ⟨some 0,{id with handle := resp,registered := true,channel := fd,sync := channel.isNone},
        opened.2++[.createId],[]⟩

/-- The queries `rdma_bind_addr2` makes after its request. -/
def bindQuery (e : Env) (id : CmId) (router : Router) : Outcome :=
  (ucmaQueryAddr e id router).andThen fun id => ucmaQueryGid id router

def rdmaBindAddr2 (e : Env) (id : CmId) (router : Router) : Outcome :=
  ask .bind <|
    if (router .bind).retErrno ≠ 0 then done (if 0 ≤ (router .bind).retErrno then 1 else 0) id
    else bindQuery e id router

def rdmaBindAddr (e : Env) (addr : Sockaddr) (id : CmId) (router : Router) : Outcome :=
  if ucmaAddrlen e addr = 0 then done (-1) id
  else if e.afIbSupport then rdmaBindAddr2 e id router
  else
    ask .bindIp <|
      if (router .bindIp).retErrno ≠ 0 then done (router .bindIp).retErrno id
      else ucmaQueryRoute e id router

/-- The query `rdma_listen` makes after its request. -/
def listenQuery (e : Env) (id : CmId) (router : Router) : Outcome :=
  if e.afIbSupport then ucmaQueryAddr e id router else ucmaQueryRoute e id router

def rdmaListen (e : Env) (id : CmId) (router : Router) : Outcome :=
  ask .listen (listenQuery e id router)

def rdmaResolveAddr (e : Env) (src : Option Sockaddr) (dst : Sockaddr) (id : CmId) : Outcome :=
  if ucmaAddrlen e dst = 0 then done (-1) id
  else if (src.map (ucmaAddrlen e)) = some 0 then done (-1) id
  else
    ask (if e.afIbSupport then .resolveAddr else .resolveIp)
      (ucmaComplete e {id with dstAddr := put id.dstAddr 0 (dst.bytes.take (ucmaAddrlen e dst))})

def rdmaSetOption (id : CmId) : Outcome := ask .setOption (done 0 id)

/-- Over InfiniBand the route is looked up and set as an option, and the request
is made only where that failed. -/
def rdmaResolveRoute (e : Env) (id : CmId) : Outcome :=
  if e.transportIb ∧ e.getaddrinfo = 0 ∧ e.routeLen ≠ 0 then
    (rdmaSetOption id).andThen fun id => ucmaComplete e id
  else ask .resolveRoute (ucmaComplete e id)

def rdmaConnect (e : Env) (id : CmId) : Outcome :=
  if e.validParam ≠ 0 then done e.validParam id else ask .connect (ucmaComplete e id)

/-- What the library changes in the attributes for a state. -/
def adjusted (e : Env) (state : QpState) (attr : QpAttr) : QpAttr :=
  match state with
  | .init => attr
  | .rtr =>
    {attr with
      mask := if e.linkInfiniband then attr.mask &&& ~~~0xe00000 else attr.mask
      maxDestRdAtomic :=
        if e.responderResources ≠ 0xff then e.responderResources else attr.maxDestRdAtomic}
  | .rts =>
    {attr with
      maxRdAtomic := if e.initiatorDepth ≠ 0xff then e.initiatorDepth else attr.maxRdAtomic}

/-- The attributes `ibv_modify_qp` gets for a state. -/
def qpAttr (e : Env) (router : Router) (state : QpState) : QpAttr :=
  adjusted e state (router (.initQpAttr state)).resp

/-- `rdma_init_qp_attr` and `ibv_modify_qp`. -/
def modifyQp (e : Env) (router : Router) (state : QpState) (id : CmId) : Outcome :=
  ⟨some (if e.modifyQp state (qpAttr e router state) ≠ 0 then -1 else 0),id,
    [.initQpAttr state],[(state,qpAttr e router state)]⟩

def ucmaModifyQpRtr (e : Env) (id : CmId) (router : Router) : Outcome :=
  if e.hasQp = false then done (-1) id
  else (modifyQp e router .init id).andThen fun id => modifyQp e router .rtr id

def ucmaModifyQpRts (e : Env) (id : CmId) (router : Router) : Outcome := modifyQp e router .rts id

def rdmaAccept (e : Env) (id : CmId) (router : Router) : Outcome :=
  if e.validParam ≠ 0 then done e.validParam id
  else if e.udQp then ask .accept (done 0 id)
  else (ucmaModifyQpRtr e id router).andThen fun id =>
    (ucmaModifyQpRts e id router).andThen fun id => ask .accept (ucmaComplete e id)

def rdmaDisconnect (e : Env) (id : CmId) : Outcome :=
  if e.shutdown ≠ 0 then done e.shutdown id else ask .disconnect (ucmaComplete e id)

/-- After the request the id moves to the new channel and the call waits until
the reported events have been completed. -/
def rdmaMigrateId (e : Env) (channel : Option ℤ) (id : CmId) (router : Router) : Outcome :=
  if id.sync ∧ channel = none then done (-1) id
  else
    let opened := openChannel e channel router
    match opened.1 with
    | none => ⟨some (-1),id,opened.2,[]⟩
    | some target =>
      let eventsReported : ℕ := (router .migrateId).resp
      -- The old channel is given up with the code of `CM_CREATE_EVENT_CHANNEL`.
      ⟨if e.eventsCompleted < eventsReported then none else some 0,
        {id with channel := target,sync := channel.isNone,
                 event := if id.sync then none else id.event},
        opened.2++.migrateId::(if id.sync then [.createChannel] else []),[]⟩

inductive Call
  | createId (channel : Option ℤ)
  | bindAddr (addr : Sockaddr)
  | listen
  | resolveAddr (src : Option Sockaddr) (dst : Sockaddr)
  | resolveRoute
  | connect
  | accept
  | disconnect
  | setOption
  | migrateId (channel : Option ℤ)

def Call.run (c : Call) (e : Env) (id : CmId) (router : Router) : Outcome :=
  match c with
  | .createId channel => rdmaCreateId e channel id router
  | .bindAddr addr => rdmaBindAddr e addr id router
  | .listen => rdmaListen e id router
  | .resolveAddr src dst => rdmaResolveAddr e src dst id
  | .resolveRoute => rdmaResolveRoute e id
  | .connect => rdmaConnect e id
  | .accept => rdmaAccept e id router
  | .disconnect => rdmaDisconnect e id
  | .setOption => rdmaSetOption id
  | .migrateId channel => rdmaMigrateId e channel id router

/-- The call returns a failure. -/
def Outcome.Fails (o : Outcome) : Prop := ∃ v, v ≠ 0 ∧ o.ret = some v

variable (e : Env) (id : CmId) (router : Router)

theorem fails_done (v : ℤ) : (done v id).Fails ↔ v ≠ 0 := by
  constructor
  · rintro ⟨w,hw,h⟩
    rwa [Option.some.inj h]
  · exact fun hv => ⟨v,hv,rfl⟩

theorem fails_ask (k : Kind) (o : Outcome) : (ask k o).Fails ↔ o.Fails := Iff.rfl

theorem ucmaComplete_asked : (ucmaComplete e id).asked = [] := by
  unfold ucmaComplete
  split
  · rfl
  · split
    · rfl
    · split <;> rfl

/-- The outcomes of the calls that wait. -/
theorem rdmaResolveAddr_cases (e : Env) (src : Option Sockaddr) (dst : Sockaddr) (id : CmId) :
    (rdmaResolveAddr e src dst id).asked = [] ∨ ∃ addr,
      rdmaResolveAddr e src dst id = ask (if e.afIbSupport then .resolveAddr else .resolveIp)
        (ucmaComplete e {id with dstAddr := addr}) := by
  unfold rdmaResolveAddr
  split
  · exact Or.inl rfl
  · split
    · exact Or.inl rfl
    · exact Or.inr ⟨_,rfl⟩

theorem rdmaResolveRoute_cases :
    rdmaResolveRoute e id = ask .setOption (ucmaComplete e id) ∨
      rdmaResolveRoute e id = ask .resolveRoute (ucmaComplete e id) := by
  unfold rdmaResolveRoute
  split
  · left
    have hset : (rdmaSetOption id).ret = some 0 := rfl
    rw [Outcome.andThen,if_pos hset]
    rfl
  · exact Or.inr rfl

/-- A check before the request either ends the call or changes nothing. -/
theorem guard_cases (v : ℤ) (id : CmId) (o : Outcome) :
    (if v ≠ 0 then done v id else o).asked = [] ∨ (if v ≠ 0 then done v id else o) = o := by
  by_cases hv : v = 0
  · exact Or.inr (if_neg (not_not.mpr hv))
  · rw [if_pos hv]
    exact Or.inl rfl

theorem rdmaConnect_cases :
    (rdmaConnect e id).asked = [] ∨ rdmaConnect e id = ask .connect (ucmaComplete e id) :=
  guard_cases e.validParam id _

theorem rdmaDisconnect_cases :
    (rdmaDisconnect e id).asked = [] ∨
      rdmaDisconnect e id = ask .disconnect (ucmaComplete e id) :=
  guard_cases e.shutdown id _

theorem ucmaQueryAddr_asked : (ucmaQueryAddr e id router).asked = [.queryAddr] := by
  simp only [ucmaQueryAddr,ask]
  split
  · split <;> rfl
  · rfl

theorem ucmaQueryRoute_asked : (ucmaQueryRoute e id router).asked = [.queryRoute] := by
  simp only [ucmaQueryRoute,ask]
  split
  · rfl
  · split
    · split <;> rfl
    · rfl

def addrResp (b : BitVec 8) : AddrResp := ⟨[b],[],0,0,0⟩

def routeResp (b : BitVec 8) : RouteResp := ⟨[],0,0,0,[b],[],0,0⟩

theorem ucmaQueryAddr_uses (b : BitVec 8) (h : (router .queryAddr).resp = addrResp b) :
    (ucmaQueryAddr e id router).ret = some 0 ∧ (ucmaQueryAddr e id router).id.srcAddr 0 = b := by
  have hresp : ucmaQueryAddr e id router = ask .queryAddr
      (done 0 {id with srcAddr := put id.srcAddr 0 [b],dstAddr := put id.dstAddr 0 []}) := by
    rw [ucmaQueryAddr,h]
    exact congrArg _ (if_neg fun hguid => hguid.2 rfl)
  rw [hresp]
  exact ⟨rfl,rfl⟩

theorem ucmaQueryRoute_uses (b : BitVec 8) (h : (router .queryRoute).resp = routeResp b) :
    (ucmaQueryRoute e id router).id.srcAddr 0 = b := by
  rw [ucmaQueryRoute,h]
  simp [routeResp,ask,done,put]

theorem mem_bindQuery_asked (k : Kind) (hk : k ∈ (bindQuery e id router).asked) :
    k = .queryAddr ∨ k = .queryGid ∧ (ucmaQueryAddr e id router).ret = some 0 := by
  unfold bindQuery Outcome.andThen at hk
  split at hk
  · rename_i hret
    rw [ucmaQueryAddr_asked] at hk
    obtain haddr | hgid := List.mem_cons.mp hk
    · exact Or.inl haddr
    · exact Or.inr ⟨List.mem_singleton.mp hgid,hret⟩
  · rw [ucmaQueryAddr_asked] at hk
    exact Or.inl (List.mem_singleton.mp hk)

theorem bindQuery_uses_addr (b : BitVec 8) (h : (router .queryAddr).resp = addrResp b) :
    (bindQuery e id router).id.srcAddr 0 = b := by
  obtain ⟨hret,hsrc⟩ := ucmaQueryAddr_uses e id router b h
  rw [bindQuery,Outcome.andThen,if_pos hret]
  exact hsrc

theorem bindQuery_uses_gid (hret : (ucmaQueryAddr e id router).ret = some 0) :
    (bindQuery e id router).id.sgid = GidResp.sgid (router .queryGid).resp := by
  rw [bindQuery,Outcome.andThen,if_pos hret]
  rfl

theorem listenQuery_asked :
    (listenQuery e id router).asked = [if e.afIbSupport then .queryAddr else .queryRoute] := by
  unfold listenQuery
  split
  · exact ucmaQueryAddr_asked e id router
  · exact ucmaQueryRoute_asked e id router

/-- A new channel is the one the response names. -/
theorem openChannel_uses (e : Env) (channel : Option ℤ) (router : Router) (k : Kind)
    (hk : k ∈ (openChannel e channel router).2) : k = .createChannel ∧
      ∀ (x : ℕ) (router' : Router), (router' .createChannel).resp = (x : ℤ) →
        openChannel e channel router' = (some (x : ℤ),[.createChannel]) := by
  cases channel with
  | some fd => exact absurd hk List.not_mem_nil
  | none =>
    by_cases hfail : e.ucmaInit ≠ 0 ∨ e.channelAllocated = false
    · rw [openChannel,rdmaCreateEventChannel,if_pos hfail] at hk
      exact absurd hk List.not_mem_nil
    · rw [openChannel,rdmaCreateEventChannel,if_neg hfail] at hk
      refine ⟨List.mem_singleton.mp hk,fun x router' h => ?_⟩
      rw [openChannel,rdmaCreateEventChannel,if_neg hfail,h]
      exact congrArg (fun fd => (fd,_)) (if_neg (by omega))

theorem adjusted_others (state : QpState) (attr : QpAttr) :
    (adjusted e state attr).others = attr.others := by
  cases state <;> rfl

theorem modifyQp_andThen (e : Env) (router : Router) (state : QpState) (id : CmId)
    (next : CmId → Outcome) :
    (modifyQp e router state id).andThen next =
      if e.modifyQp state (qpAttr e router state) = 0 then
        ⟨(next id).ret,(next id).id,.initQpAttr state::(next id).asked,
          (state,qpAttr e router state)::(next id).modified⟩
      else modifyQp e router state id := by
  by_cases h : e.modifyQp state (qpAttr e router state) = 0
  · simp [Outcome.andThen,modifyQp,h]
  · simp [Outcome.andThen,modifyQp,h]

theorem andThen_assoc (o : Outcome) (f g : CmId → Outcome) :
    (o.andThen f).andThen g = o.andThen fun id => (f id).andThen g := by
  by_cases ho : o.ret = some 0
  · by_cases hf : (f o.id).ret = some 0
    · simp [Outcome.andThen,ho,hf]
    · simp [Outcome.andThen,ho,hf]
  · simp [Outcome.andThen,ho]

/-- The QP is taken through some states. -/
def through (e : Env) (router : Router) (last : CmId → Outcome) : List QpState → CmId → Outcome
  | [], id => last id
  | state::states, id => (modifyQp e router state id).andThen (through e router last states)

theorem rdmaAccept_eq (hvalid : e.validParam = 0) (hud : e.udQp = false)
    (hqp : e.hasQp = true) :
    rdmaAccept e id router =
      through e router (fun id => ask .accept (ucmaComplete e id)) [.init,.rtr,.rts] id := by
  rw [rdmaAccept,if_neg (not_not.mpr hvalid),if_neg (ne_true_of_eq_false hud),ucmaModifyQpRtr,
    if_neg (ne_false_of_eq_true hqp),andThen_assoc]
  rfl

section

variable (last : CmId → Outcome)

/-- The requests on the way are for attributes, and behind them the call is `last`. -/
theorem mem_through_asked (states : List QpState) (id : CmId) (k : Kind)
    (hk : k ∈ (through e router last states id).asked) :
    (∃ state, k = .initQpAttr state) ∨
      (k ∈ (last id).asked ∧ (through e router last states id).ret = (last id).ret) := by
  induction states with
  | nil => exact .inr ⟨hk,rfl⟩
  | cons state states ih =>
    rw [through,modifyQp_andThen] at hk ⊢
    by_cases hok : e.modifyQp state (qpAttr e router state) = 0
    · rw [if_pos hok] at hk ⊢
      obtain hhead | htail := List.mem_cons.mp hk
      · exact .inl ⟨state,hhead⟩
      · exact ih htail
    · rw [if_neg hok] at hk
      exact .inl ⟨state,List.mem_singleton.mp hk⟩

/-- The QP gets what the response for a state held, whatever that was. -/
theorem through_uses (router' : Router) (state : QpState)
    (hlast : ∀ id, .initQpAttr state ∉ (last id).asked)
    (hsame : ∀ t, t ≠ state → qpAttr e router' t = qpAttr e router t)
    (states : List QpState) (id : CmId)
    (hk : .initQpAttr state ∈ (through e router last states id).asked) :
    (through e router' last states id).modified.lookup state =
      some (qpAttr e router' state) := by
  induction states with
  | nil => exact absurd hk (hlast id)
  | cons t states ih =>
    rw [through,modifyQp_andThen] at hk ⊢
    by_cases ht : t = state
    · subst ht
      split
      · exact List.lookup_cons_self
      · exact List.lookup_cons_self
    · rw [hsame t ht]
      have hne : Kind.initQpAttr state ≠ .initQpAttr t := fun h => ht (Kind.initQpAttr.inj h).symm
      by_cases hok : e.modifyQp t (qpAttr e router t) = 0
      · rw [if_pos hok] at hk ⊢
        have hbeq : (state == t) = false := beq_false_of_ne fun h => ht h.symm
        rw [List.lookup_cons,hbeq]
        exact ih ((List.mem_cons.mp hk).resolve_left hne)
      · rw [if_neg hok] at hk
        exact absurd (List.mem_singleton.mp hk) hne

end

end FreeFlow.CmCalls
