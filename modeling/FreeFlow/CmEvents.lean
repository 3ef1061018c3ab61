import FreeFlow.Runs
import Mathlib.Algebra.Order.Group.Nat
import Mathlib.Data.List.Basic

/-!
# Events of the connection manager

The kernel counts for every identifier the events it has reported, the library
of the client those that were acknowledged. `rdma_destroy_id` takes the
identifier out of the kernel and then waits until the two agree, because every
event carries the address of the `cma_id_private` it belongs to. Multicast
groups are counted a second time, for `rdma_leave_multicast`.

Between the two stands the router. Its handler of the channel's socket asks the
kernel and sends back its response buffer; when the kernel has refused, the
buffer still holds the event before, and the client does not look at
`ret_errno`. A channel that the client has made non-blocking is such a case, the
open file is shared with the router.

An event that `rdma_get_cm_event` has returned is in `held`, whether the caller
has it or `id->event`. The addresses of `cma_id_private` and `cma_multicast`
blocks are numbers other than 0; a block that was freed may be handed out again.
-/

set_option autoImplicit false

namespace FreeFlow.CmEvents

open Runs

inductive EventType
  | addrResolved
  | addrError
  | routeResolved
  | routeError
  | connectRequest
  | connectResponse
  | connectError
  | unreachable
  | rejected
  | established
  | disconnected
  | deviceRemoval
  | multicastJoin
  | multicastError
  | addrChange
  | timewaitExit
  deriving DecidableEq

def EventType.isMulticast : EventType → Bool
  | .multicastJoin => true
  | .multicastError => true
  | _ => false

/-- `ucma_abi_event_resp`. -/
structure Resp where
  uid : ℕ
  id : ℕ
  event : EventType
  status : ℤ
  deriving DecidableEq

/-- What the kernel has of an identifier: `uid` is the address of its `cma_id_private`, or 0 as long
as a connection was not accepted. -/
structure Ctx where
  uid : ℕ
  chan : ℕ
  reported : ℕ
  deriving DecidableEq

structure McCtx where
  uid : ℕ
  ctx : ℕ
  reported : ℕ
  deriving DecidableEq

structure Queued where
  ctx : ℕ
  mc : Option ℕ
  resp : Resp
  deriving DecidableEq

/-- `waiting` is the number of events that `rdma_destroy_id` waits for. -/
structure IdPriv where
  handle : ℕ
  channel : ℕ
  completed : ℕ
  connectError : Bool
  waiting : Option ℕ
  deriving DecidableEq

structure Multicast where
  idPriv : ℕ
  handle : ℕ
  completed : ℕ
  waiting : Option ℕ
  deriving DecidableEq

/-- `cma_event`. -/
structure Evt where
  idPriv : ℕ
  mc : Option ℕ
  id : ℕ
  event : EventType
  status : ℤ
  deriving DecidableEq

/-- The kernel, the replies on the way with the buffers of the handlers, and the client; `bad` is
set when a freed block is used. -/
structure World where
  ctxs : ℕ → Option Ctx
  groups : ℕ → Option McCtx
  queue : ℕ → List Queued
  transit : List (ℕ × Resp)
  last : ℕ → Option Resp
  ids : ℕ → Option IdPriv
  mcs : ℕ → Option Multicast
  idm : ℕ → Option ℕ
  held : List Evt
  bad : Bool

def started : World :=
  ⟨fun _ => none,fun _ => none,fun _ => [],[],fun _ => none,fun _ => none,fun _ => none,fun _ => none,[],false⟩

/-! ## The client -/

def idxMaxIndex : ℕ := 65535

def ucmaInsertId (w : World) (handle p : ℕ) : World :=
  {w with idm := if handle ≤ idxMaxIndex then Function.update w.idm handle (some p) else w.idm}

def ucmaRemoveId (w : World) (handle : ℕ) : World :=
  {w with idm := if handle ≤ idxMaxIndex then Function.update w.idm handle none else w.idm}

def ucmaLookupId (w : World) (handle : ℕ) : Option ℕ :=
  if handle ≤ idxMaxIndex then w.idm handle else none

def setId (w : World) (p : ℕ) (x : Option IdPriv) : World := {w with ids := Function.update w.ids p x}

def setMc (w : World) (m : ℕ) (y : Option Multicast) : World :=
  {w with mcs := Function.update w.mcs m y}

def hold (w : World) (e : Evt) : World := {w with held := w.held++[e]}

def ucmaCompleteEvent (w : World) (p : ℕ) : World :=
  match w.ids p with
  | some x => setId w p (some {x with completed := x.completed+1})
  | none => {w with bad := true}

def ucmaCompleteMcEvent (w : World) (m : ℕ) : World :=
  match w.mcs m with
  | some y => ucmaCompleteEvent (setMc w m (some {y with completed := y.completed+1})) y.idPriv
  | none => {w with bad := true}

def rdmaAckCmEvent (w : World) (e : Evt) : World :=
  match e.mc with
  | some m => ucmaCompleteMcEvent w m
  | none => ucmaCompleteEvent w e.idPriv

/-! ## The kernel -/

/-- The identifier is taken out, with its groups and the events that were not reported. -/
def destroyCtx (w : World) (h : ℕ) : World :=
  {w with
    ctxs := Function.update w.ctxs h none
    groups := fun k => (w.groups k).filter fun g => g.ctx ≠ h
    queue := fun ch => (w.queue ch).filter fun q => q.ctx ≠ h}

def raiseOn (w : World) (ch : ℕ) (q : Queued) : World :=
  {w with queue := Function.update w.queue ch (w.queue ch++[q])}

/-- One more event was reported for an identifier and for a group. -/
def countReport (w : World) (q : Queued) : World :=
  {w with
    ctxs := fun h => (w.ctxs h).map fun c =>
      if h = q.ctx then ⟨c.uid,c.chan,c.reported+1⟩ else c
    groups := fun k => (w.groups k).map fun g =>
      if some k = q.mc then ⟨g.uid,g.ctx,g.reported+1⟩ else g}

/-- A reply of the handler of channel `ch`. -/
def reply (w : World) (ch : ℕ) (r : Resp) : World := {w with transit := w.transit++[(ch,r)]}

/-! ## `rdma_get_cm_event` behind the reply -/

/-- What the calls inside `rdma_get_cm_event` answer: the block of a new identifier, the status of
the query or join, and whether the device is InfiniBand. -/
structure Answers where
  alloc : Option ℕ
  status : ℤ
  ib : Bool
  deriving DecidableEq

/-- `ucma_process_conn_req` up to its queries; when these fail, the new identifier is destroyed and
the event completed as by `rdma_ack_cm_event`. -/
def ucmaProcessConnReq (w : World) (p : ℕ) (x : IdPriv) (r : Resp) : Option ℕ → World
  | none => ucmaCompleteEvent (destroyCtx w r.id) p
  | some n =>
    hold (ucmaInsertId (setId w n (some ⟨r.id,x.channel,0,false,none⟩)) r.id n)
      ⟨p,none,n,.connectRequest,r.status⟩

/-- The `switch` of `rdma_get_cm_event` for an event of an identifier. -/
def processId (w : World) (p : ℕ) (x : IdPriv) (r : Resp) (ans : Answers) : World :=
  match r.event with
  | .addrResolved =>
    hold w ⟨p,none,p,if ans.status = 0 then .addrResolved else .addrError,ans.status⟩
  | .routeResolved =>
    if ans.ib then
      hold w ⟨p,none,p,if ans.status = 0 then .routeResolved else .routeError,ans.status⟩
    else hold w ⟨p,none,p,.routeResolved,r.status⟩
  | .connectRequest => ucmaProcessConnReq w p x r ans.alloc
  | .connectResponse =>
    if ans.status = 0 then hold w ⟨p,none,p,.established,0⟩
    else hold (setId w p (some {x with connectError := true})) ⟨p,none,p,.connectError,ans.status⟩
  | .rejected | .disconnected =>
    if x.connectError then ucmaCompleteEvent w p else hold w ⟨p,none,p,r.event,r.status⟩
  | ev => hold w ⟨p,none,p,ev,r.status⟩

def processMc (w : World) (m : ℕ) (y : Multicast) (r : Resp) (ans : Answers) : World :=
  let status := if r.event = .multicastJoin then ans.status else r.status
  hold w ⟨y.idPriv,some m,y.idPriv,
    if r.event = .multicastJoin ∧ ans.status ≠ 0 then .multicastError else r.event,status⟩

def process (w : World) (p : ℕ) (r : Resp) (ans : Answers) : World :=
  if r.event.isMulticast then
    match w.mcs r.uid with
    | some y => processMc w r.uid y r ans
    | none => {w with bad := true}
  else
    match w.ids p with
    | some x => processId w p x r ans
    | none => {w with bad := true}

/-- An event without `uid` is looked up by its handle, and kept when it says that a connection was
established. -/
def rdmaGetCmEvent (w : World) (r : Resp) (ans : Answers) : World :=
  if r.uid = 0 then
    match ucmaLookupId w r.id with
    | none => w
    | some p => if r.event = .established then process w p r ans else ucmaCompleteEvent w p
  else process w r.uid r ans

/-! ## Steps -/

inductive Act
  | create (p h ch : ℕ)
  | accept (p : ℕ)
  | raise (h : ℕ) (event : EventType) (status : ℤ)
  | request (h : ℕ)
  | join (p m k : ℕ)
  | raiseMc (k : ℕ) (event : EventType) (status : ℤ)
  | get (ch new : ℕ)
  | getFail (ch : ℕ) (junk : Resp)
  | arrive (i : ℕ) (ans : Answers)
  | ack (i : ℕ)
  | destroy (p : ℕ)
  | free (p : ℕ)
  | leave (m : ℕ)
  | freeMc (m : ℕ)
  | migrate (p ch : ℕ)
  deriving DecidableEq

/-- `calloc` may give the block. -/
def Fresh (w : World) (p : ℕ) : Prop := p ≠ 0 ∧ w.ids p = none ∧ w.mcs p = none

instance (w : World) (p : ℕ) : Decidable (Fresh w p) := inferInstanceAs (Decidable (_ ∧ _))

/-- An identifier that was not given to `rdma_destroy_id`, with what the kernel has of it. -/
def current (w : World) (p : ℕ) : Option (IdPriv × Ctx) :=
  (w.ids p).bind fun x => if x.waiting = none then (w.ctxs x.handle).map (Prod.mk x) else none

def create (w : World) (p h ch : ℕ) : World :=
  ucmaInsertId {setId w p (some ⟨h,ch,0,false,none⟩) with
    ctxs := Function.update w.ctxs h (some ⟨p,ch,0⟩)} h p

/-- The first event of a channel is reported; a connection request gets its identifier. -/
def report (w : World) (ch new : ℕ) (q : Queued) (rest : List Queued) : World :=
  let w := countReport {w with queue := Function.update w.queue ch rest} q
  if q.resp.event = .connectRequest then
    let r := {q.resp with id := new}
    reply {w with ctxs := Function.update w.ctxs new (some ⟨0,ch,0⟩),last := Function.update w.last ch (some r)} ch r
  else reply {w with last := Function.update w.last ch (some q.resp)} ch q.resp

def rdmaDestroyId (w : World) (p : ℕ) (x : IdPriv) (c : Ctx) : World :=
  destroyCtx (setId w p (some {x with waiting := some c.reported})) x.handle

def join (w : World) (p m k : ℕ) (x : IdPriv) : World :=
  {setMc w m (some ⟨p,k,0,none⟩) with groups := Function.update w.groups k (some ⟨m,x.handle,0⟩)}

def rdmaLeaveMulticast (w : World) (m : ℕ) (y : Multicast) (g : McCtx) : World :=
  {setMc w m (some {y with waiting := some g.reported}) with
    groups := Function.update w.groups y.handle none
    queue := fun ch => (w.queue ch).filter fun q => q.mc ≠ some y.handle}

/-- The events that were not reported go to the new channel. -/
def rdmaMigrateId (w : World) (p ch : ℕ) (x : IdPriv) (c : Ctx) : World :=
  {setId w p (some {x with channel := ch}) with
    ctxs := Function.update w.ctxs x.handle (some {c with chan := ch})
    queue := if ch = c.chan then w.queue else
      Function.update (Function.update w.queue c.chan ((w.queue c.chan).filter fun q => q.ctx ≠ x.handle))
        ch (w.queue ch++(w.queue c.chan).filter fun q => q.ctx = x.handle)}

def step (w : World) : Act → Option World
  | .create p h ch => if Fresh w p ∧ w.ctxs h = none then some (create w p h ch) else none
  | .accept p => (current w p).map fun xc =>
      {w with ctxs := Function.update w.ctxs xc.1.handle (some {xc.2 with uid := p})}
  | .raise h event status =>
    if event ≠ .connectRequest ∧ event.isMulticast = false then
      (w.ctxs h).map fun c => raiseOn w c.chan ⟨h,none,⟨c.uid,h,event,status⟩⟩
    else none
  | .request h => (w.ctxs h).map fun c => raiseOn w c.chan ⟨h,none,⟨c.uid,h,.connectRequest,0⟩⟩
  | .join p m k =>
    if Fresh w m ∧ w.groups k = none then (current w p).map fun xc => join w p m k xc.1 else none
  | .raiseMc k event status =>
    if event.isMulticast then
      (w.groups k).bind fun g => (w.ctxs g.ctx).map fun c =>
        raiseOn w c.chan ⟨g.ctx,some k,⟨g.uid,k,event,status⟩⟩
    else none
  | .get ch new =>
    match w.queue ch with
    | q::rest =>
      if q.resp.event = .connectRequest → w.ctxs new = none
      then some (report w ch new q rest) else none
    | [] => none
  | .getFail ch junk => some (reply w ch ((w.last ch).getD junk))
  | .arrive i ans => (w.transit[i]?).bind fun t =>
      if ∀ n ∈ ans.alloc, Fresh w n then
        some (rdmaGetCmEvent {w with transit := w.transit.eraseIdx i} t.2 ans)
      else none
  | .ack i => (w.held[i]?).map fun e => rdmaAckCmEvent {w with held := w.held.eraseIdx i} e
  | .destroy p => (current w p).map fun xc => rdmaDestroyId w p xc.1 xc.2
  | .free p => (w.ids p).bind fun x => x.waiting.bind fun n =>
      if n ≤ x.completed then some (ucmaRemoveId (setId w p none) x.handle) else none
  -- a group that has outlived its identifier is on no `mc_list` any more
  | .leave m => (w.mcs m).bind fun y => (current w y.idPriv).bind fun _ =>
      if y.waiting = none then
        ((w.groups y.handle).filter fun g => g.uid = m).map fun g => rdmaLeaveMulticast w m y g
      else none
  | .freeMc m => (w.mcs m).bind fun y => y.waiting.bind fun n =>
      if n ≤ y.completed then some (setMc w m none) else none
  | .migrate p ch => (current w p).map fun xc => rdmaMigrateId w p ch xc.1 xc.2

def runs : World → List Act → Option World := run step

end FreeFlow.CmEvents
