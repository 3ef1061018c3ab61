import FreeFlow.LockPrograms
import FreeFlow.Wire

/-!
# The router's mutexes

`CtrlChannelLoop`, `UDPServer` and `HandleRequest` as far as they take and
release mutexes, statement by statement, with every `goto`, `break` and `return`.
What the source decides on data is left open, so that a thread may take any
branch and repeat any loop; only the request header's `func` is kept, since the
switch and the end of `HandleRequest`'s loop depend on it. A `continue` and a
`break` out of a `switch` end a branch and do nothing to mutexes.

Loops over vectors hold one of the three vector mutexes and take a table mutex
inside; every other section holds one mutex alone.
-/

set_option autoImplicit false

namespace FreeFlow.RouterLocks

open LockPrograms LockPrograms.Program Wire

inductive Mutex
  | qpShmVec
  | cqShmVec
  | srqShmVec
  | rkeyMrShm
  | lkeyPtr
  | shm
  deriving DecidableEq

open Mutex

/-- Where `HandleRequest` reads a request header, and its label `kill`. -/
inductive Point
  | header
  | kill

/-- `none` is a `func` outside the enumeration. -/
abbrev Skeleton := Program Mutex Point (Option RdmaFunctionCall)

def addShmPiece : Skeleton := holding shm skip

def addShmPieceNamed : Skeleton :=
  block (sequence [lock shm,may (sequence [unlock shm,exit 0]),unlock shm])

/-- The scatter/gather lists of a chain of work requests. -/
def translateSges : Skeleton := loop (may (holding lkeyPtr (loop skip)))

/-- The search for the key of a one-sided work request. -/
def awaitRkey : Skeleton :=
  block (loop (sequence [lock rkeyMrShm,
    alt (may (sequence [unlock rkeyMrShm,exit 0])) (sequence [unlock rkeyMrShm,exit 0]),
    unlock rkeyMrShm]))

def loopPostSend : Skeleton :=
  loop (sequence [may awaitRkey,may (holding lkeyPtr (loop skip))])

def ctrlChannelLoop : Skeleton :=
  loop (sequence [
    holding qpShmVec (loop (may (alt loopPostSend (may translateSges)))),
    holding cqShmVec (loop skip),
    holding srqShmVec (loop (may translateSges))])

def udpServer : Skeleton :=
  block (sequence [may (exit 0),may (exit 0),loop (alt (exit 0) (holding rkeyMrShm skip))])

def gotoEnd : Skeleton := exit 0

def gotoKill : Skeleton := exit 1

def returns : Skeleton := exit 2

def requestCase : RdmaFunctionCall → Skeleton
  | .ibvGetContext | .ibvQueryDev | .ibvAllocPd | .ibvCreateCompChannel
  | .cmCreateEventChannel => skip
  | .ibvExpQueryDev | .ibvQueryPort | .ibvDeregMr | .ibvModifyQp | .ibvQueryQp | .ibvCreateFlow
  | .ibvDestroyFlow | .cmCreateId | .cmBindIp | .cmBind | .cmGetEvent | .cmQueryRoute | .cmListen
  | .cmResolveIp | .cmResolveAddr | .cmUcmaQueryAddr | .cmUcmaQueryGid | .cmUcmaProcessConnResp
  | .cmDestroyId | .cmResolveRoute | .cmUcmaQueryPath | .cmInitQpAttr | .cmConnect | .cmAccept
  | .cmSetOption | .cmMigrateId | .cmDisconnect | .socketSocket | .socketBind | .socketAccept =>
      may gotoKill
  | .socketAccept4 | .socketConnect => sequence [may gotoKill,may gotoKill]
  | .ibvDeallocPd | .ibvReqNotifyCq | .ibvPollCq | .ibvDestroyCompChannel | .ibvAckCqEvent
  | .ibvCreateAh | .ibvDestroyAh | .ibvModifySrq | .cmDestroyEventChannel =>
      sequence [may gotoKill,may gotoEnd]
  | .ibvGetCqEvent => sequence [may gotoKill,may gotoEnd,may gotoEnd]
  | .ibvCreateCq | .ibvDestroyCq =>
      sequence [may gotoKill,may gotoEnd,holding cqShmVec skip]
  | .ibvCreateQp | .ibvDestroyQp =>
      sequence [may gotoKill,may gotoEnd,holding qpShmVec skip]
  | .ibvCreateSrq | .ibvDestroySrq =>
      sequence [may gotoKill,may gotoEnd,holding srqShmVec skip]
  | .ibvRegMr => sequence [may gotoKill,alt addShmPiece addShmPieceNamed,
      may gotoEnd,may gotoEnd,may gotoEnd,holding lkeyPtr skip]
  | .ibvRegMrMapping => sequence [may gotoKill,holding lkeyPtr skip,loop (may returns)]
  -- In `IBV_POST_SEND` the inner loop waits for the token bucket with `lkey_ptr_mtx` held.
  | .ibvPostSend => sequence [may gotoEnd,loop (may (holding lkeyPtr (loop (loop skip))))]
  | .ibvPostRecv | .ibvPostSrqRecv => sequence [may gotoEnd,translateSges]
  -- The enumeration's codes without a case go to `default`.
  | .ibvGetDeviceList | .ibvRegCm | .ibvMalloc | .ibvFree | .ibvResizeCq => skip

def requestSwitch : Option RdmaFunctionCall → Skeleton
  | some f => requestCase f
  | none => skip

def isSocketCall : Option RdmaFunctionCall → Bool
  | some .socketSocket | some .socketBind | some .socketAccept | some .socketAccept4
  | some .socketConnect => true
  | _ => false

/-- From the label `end` on: a socket call breaks out of the loop. -/
def atEnd (func : Option RdmaFunctionCall) : Skeleton :=
  if isSocketCall func then exit 0 else skip

/-- One request, with the labels `end` inside and `kill` around it. -/
def serveRequest (func : Option RdmaFunctionCall) : Skeleton :=
  sequence [block (sequence [requestSwitch func,may gotoKill]),atEnd func]

def handleRequest : Skeleton :=
  block (sequence [
    block (loop (sequence [mark .header,may (exit 0),pick serveRequest])),
    mark .kill])

inductive Thread
  | ctrlChannelLoop
  | udpServer
  | handleRequest (n : ℕ)
  deriving DecidableEq

def program : Thread → Skeleton
  | .ctrlChannelLoop => ctrlChannelLoop
  | .udpServer => udpServer
  | .handleRequest _ => handleRequest

abbrev Reachable (s : State Mutex Point (Option RdmaFunctionCall) Thread) : Prop :=
  Relation.ReflTransGen Move (initial program) s

def rank : Mutex → ℕ
  | qpShmVec | cqShmVec | srqShmVec => 0
  | rkeyMrShm | lkeyPtr | shm => 1

variable {Q : Finset Mutex → Prop} {E : ℕ → Finset Mutex → Prop} {h : Finset Mutex}

theorem ordered_translateSges (hh : ∀ m ∈ h, rank m < rank lkeyPtr) (hQ : Q h) :
    Ordered rank translateSges Q E h :=
  ⟨hQ,ordered_holding hh ⟨rfl,rfl⟩ rfl,rfl⟩

theorem ordered_awaitRkey (hh : ∀ m ∈ h, rank m < rank rkeyMrShm) (hQ : Q h) :
    Ordered rank awaitRkey Q E h := by
  have hnot : rkeyMrShm ∉ h := notMem_of_above hh
  exact ⟨hQ,hh,⟨unlock_taken hnot hQ,unlock_taken hnot rfl⟩,unlock_taken hnot hQ⟩

theorem ordered_loopPostSend (hh : ∀ m ∈ h, rank m < 1) (hQ : Q h) :
    Ordered rank loopPostSend Q E h := by
  have hsges : Ordered rank (may (holding lkeyPtr (loop skip)) : Skeleton) (· = h) E h :=
    ⟨ordered_holding hh ⟨rfl,rfl⟩ rfl,rfl⟩
  exact ⟨hQ,ordered_awaitRkey hh hsges,hsges⟩

theorem finishing_ctrlChannelLoop : Finishing rank ctrlChannelLoop ∅ := by
  have hvec : ∀ m : Mutex, rank m = 0 → ∀ m' ∈ insert m (∅ : Finset Mutex), rank m' < 1 := by
    intro m hm m' hm'
    rw [Finset.mem_singleton.mp hm',hm]
    exact Nat.one_pos
  refine ⟨rfl,?_⟩
  refine ordered_holding nofun ⟨rfl,⟨?_,?_,rfl⟩,rfl⟩ ?_
  · exact ordered_loopPostSend (hvec _ rfl) rfl
  · exact ordered_translateSges (hvec _ rfl) rfl
  refine ordered_holding nofun ⟨rfl,rfl⟩ ?_
  exact ordered_holding nofun ⟨rfl,ordered_translateSges (hvec _ rfl) rfl,rfl⟩ rfl

theorem finishing_udpServer : Finishing rank udpServer ∅ :=
  ⟨rfl,rfl,rfl,rfl,ordered_holding nofun rfl rfl⟩

theorem ordered_addShmPieceNamed (hQ : Q ∅) : Ordered rank addShmPieceNamed Q E ∅ := by
  have hnot : shm ∉ (∅ : Finset Mutex) := Finset.notMem_empty shm
  exact ⟨nofun,unlock_taken hnot hQ,unlock_taken hnot hQ⟩

theorem ordered_requestCase (f : RdmaFunctionCall) (hQ : Q ∅) (hEnd : E 0 ∅) (hKill : E 1 ∅)
    (hReturn : E 2 ∅) : Ordered rank (requestCase f) Q E ∅ := by
  have hsection : ∀ m, Ordered rank (holding m skip : Skeleton) Q E ∅ :=
    fun m => ordered_holding nofun rfl hQ
  cases f with
  | ibvGetContext | ibvQueryDev | ibvAllocPd | ibvCreateCompChannel | cmCreateEventChannel
  | ibvGetDeviceList | ibvRegCm | ibvMalloc | ibvFree | ibvResizeCq => exact hQ
  | socketAccept4 | socketConnect => exact ⟨hKill,hKill,hQ⟩
  | ibvDeallocPd | ibvReqNotifyCq | ibvPollCq | ibvDestroyCompChannel | ibvAckCqEvent
  | ibvCreateAh | ibvDestroyAh | ibvModifySrq | cmDestroyEventChannel => exact ⟨hKill,hEnd,hQ⟩
  | ibvGetCqEvent => exact ⟨hKill,hEnd,hEnd,hQ⟩
  | ibvCreateCq | ibvDestroyCq | ibvCreateQp | ibvDestroyQp | ibvCreateSrq | ibvDestroySrq =>
    exact ⟨hKill,hEnd,hsection _⟩
  | ibvRegMr =>
    have hrest : Ordered rank (sequence [may gotoEnd,may gotoEnd,may gotoEnd,
        holding lkeyPtr skip]) Q E ∅ := ⟨hEnd,hEnd,hEnd,hsection lkeyPtr⟩
    exact ⟨hKill,ordered_holding nofun rfl hrest,ordered_addShmPieceNamed hrest⟩
  | ibvRegMrMapping => exact ⟨hKill,ordered_holding nofun rfl ⟨hQ,hReturn,rfl⟩⟩
  | ibvPostSend => exact ⟨hEnd,hQ,ordered_holding nofun ⟨rfl,rfl,rfl⟩ rfl,rfl⟩
  | ibvPostRecv | ibvPostSrqRecv => exact ⟨hEnd,ordered_translateSges nofun hQ⟩
  | _ => exact ⟨hKill,hQ⟩

theorem ordered_requestSwitch (func : Option RdmaFunctionCall) (hQ : Q ∅) (hEnd : E 0 ∅)
    (hKill : E 1 ∅) (hReturn : E 2 ∅) : Ordered rank (requestSwitch func) Q E ∅ := by
  cases func with
  | none => exact hQ
  | some f => exact ordered_requestCase f hQ hEnd hKill hReturn

theorem ordered_atEnd (func : Option RdmaFunctionCall) (hQ : Q ∅) (hKill : E 0 ∅) :
    Ordered rank (atEnd func) Q E ∅ := by
  by_cases hsocket : isSocketCall func
  · rw [atEnd,if_pos hsocket]
    exact hKill
  · rw [atEnd,if_neg hsocket]
    exact hQ

theorem ordered_serveRequest (func : Option RdmaFunctionCall) (hQ : Q ∅) (hKill : E 0 ∅)
    (hReturn : E 1 ∅) : Ordered rank (serveRequest func) Q E ∅ := by
  have hend : Ordered rank (sequence [atEnd func]) Q E ∅ := ordered_atEnd func hQ hKill
  exact ordered_requestSwitch func ⟨hKill,hend⟩ hend hKill hReturn

theorem finishing_handleRequest : Finishing rank handleRequest ∅ := by
  have hkill : (∅ : Finset Mutex) = ∅ ∧ (∅ : Finset Mutex) = ∅ := ⟨rfl,rfl⟩
  refine ⟨hkill,rfl,hkill,?_⟩
  exact fun func => ordered_serveRequest func rfl hkill rfl

theorem finishing_program (t : Thread) : Finishing rank (program t) ∅ := by
  cases t with
  | ctrlChannelLoop => exact finishing_ctrlChannelLoop
  | udpServer => exact finishing_udpServer
  | handleRequest n => exact finishing_handleRequest

theorem router_mutexes_safe (s : State Mutex Point (Option RdmaFunctionCall) Thread)
    (hs : Reachable s) :
    (∀ t, ¬ Relation.TransGen (WaitsFor s) t t) ∧
      ∀ n l, At s (.handleRequest n) l → ∀ m, s.owner m ≠ some (.handleRequest n) := by
  have hi : Inv rank s := inv_reachable finishing_program hs
  exact ⟨no_circle hi,fun _ _ hl => at_free hi hl⟩

/-- A thread makes a step that no mutex takes part in. -/
theorem Reachable.silent {s : State Mutex Point (Option RdmaFunctionCall) Thread} (hs : Reachable s)
    (t : Thread) {p : Skeleton} (h : Step (s.programs t) .silent p) :
    Reachable ⟨Function.update s.programs t p,s.owner⟩ :=
  hs.tail (.mk t .silent p h trivial)

/-- A step inside the loop of `HandleRequest` over the requests. -/
theorem step_request {p p' rest kill : Skeleton} {a : Action Mutex Point} (h : Step p a p') :
    Step (block (seq (block (seq p rest)) kill)) a (block (seq (block (seq p' rest)) kill)) :=
  .block (.seq _ (.block (.seq _ h)))

/-- A step inside the case of a request. -/
theorem step_case {p p' reply close next rest kill : Skeleton} {a : Action Mutex Point}
    (h : Step p a p') :
    Step (block (seq (block (seq (seq (seq (block (seq p reply)) close) next) rest)) kill)) a
      (block (seq (block (seq (seq (seq (block (seq p' reply)) close) next) rest)) kill)) :=
  step_request (.seq _ (.seq _ (.block (.seq _ h))))

/-- The loop is in its first section, and a thread that serves `IBV_CREATE_QP`
waits for its mutex. -/
theorem waiting_create_safe :
    ∃ s, Reachable s ∧ WaitsFor s (.handleRequest 0) .ctrlChannelLoop ∧
      (∀ t, ¬ Relation.TransGen (WaitsFor s) t t) ∧
      ∀ n l, At s (.handleRequest n) l → ∀ m, s.owner m ≠ some (.handleRequest n) := by
  have hloop : Reachable _ := (Reachable.silent .refl .ctrlChannelLoop (.again _)).tail
    (Move.mk Thread.ctrlChannelLoop (.lock qpShmVec) _
      (.seq _ (.seq _ (.seq _ (.lock qpShmVec)))) rfl)
  have hheader : Reachable _ := (hloop.silent (.handleRequest 0)
    (.block (.seq _ (.block (.again _))))).tail
    (Move.mk (Thread.handleRequest 0) (.reach .header) _ (step_request (.seq _ (.mark _))) trivial)
  -- the header is read and names `IBV_CREATE_QP`
  have hpicked := (((hheader.silent (.handleRequest 0) (step_request (.next _))).silent
    (.handleRequest 0) (step_request (.seq _ (.right _ _)))).silent
    (.handleRequest 0) (step_request (.next _))).silent
    (.handleRequest 0) (step_request (.seq _ (.pick _ (some .ibvCreateQp))))
  -- the body is read and the queue pair is created
  have hcreated := (((hpicked.silent (.handleRequest 0) (step_case (.seq _ (.right _ _)))).silent
    (.handleRequest 0) (step_case (.next _))).silent
    (.handleRequest 0) (step_case (.seq _ (.right _ _)))).silent
    (.handleRequest 0) (step_case (.next _))
  refine ⟨_,hcreated,?_,router_mutexes_safe _ hcreated⟩
  exact ⟨qpShmVec,⟨_,step_case (.seq _ (.seq _ (.lock qpShmVec)))⟩,rfl⟩

end FreeFlow.RouterLocks
