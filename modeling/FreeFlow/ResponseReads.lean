import FreeFlow.ReadLoop
import FreeFlow.Wire

/-!
# Reading a response from the router

`request_router` of both client libraries reads a response of known size in
one loop. For `IBV_POLL_CQ` a first loop reads the header with the size of the
rest. Both loops end on an error only: `read` returns 0 once the router has
closed the connection, and a loop that still misses a byte goes on for ever.
-/

set_option autoImplicit false

namespace FreeFlow.ResponseReads

open ReadLoop Wire

inductive Library
  | verbs
  | rdmacm
  deriving DecidableEq

/-- The response a request waits for. -/
inductive Response
  | fixed (size : ℕ)
  | sized
  deriving DecidableEq

def verbsFunctions : List RdmaFunctionCall :=
  [.ibvGetContext,.ibvQueryDev,.ibvExpQueryDev,.ibvQueryPort,.ibvAllocPd,.ibvDeallocPd,
    .ibvCreateCq,.ibvDestroyCq,.ibvReqNotifyCq,.ibvCreateQp,.ibvDestroyQp,.ibvRegMr,
    .ibvRegMrMapping,.ibvDeregMr,.ibvModifyQp,.ibvQueryQp,.ibvPostSend,.ibvPostRecv,
    .ibvPostSrqRecv,.ibvCreateCompChannel,.ibvDestroyCompChannel,.ibvGetCqEvent,.ibvAckCqEvent,
    .ibvCreateAh,.ibvDestroyAh,.ibvCreateFlow,.ibvDestroyFlow,.ibvCreateSrq,.ibvModifySrq,
    .ibvDestroySrq]

def rdmacmFunctions : List RdmaFunctionCall :=
  [.cmCreateEventChannel,.cmDestroyEventChannel,.cmCreateId,.cmBindIp,.cmBind,.cmGetEvent,
    .cmQueryRoute,.cmListen,.cmResolveIp,.cmResolveAddr,.cmUcmaQueryAddr,.cmUcmaQueryGid,
    .cmDestroyId,.cmResolveRoute,.cmUcmaQueryPath,.cmUcmaProcessConnResp,.cmInitQpAttr,
    .cmConnect,.cmAccept,.cmSetOption,.cmMigrateId,.cmDisconnect]

/-- The switch on the function; the default goes to `end`. -/
def awaits : Library → RdmaFunctionCall → Option Response
  | .verbs, f =>
    if f = .ibvPollCq then some .sized
    else if f ∈ verbsFunctions then some (.fixed (sizeofRsp f)) else none
  | .rdmacm, f => if f ∈ rdmacmFunctions then some (.fixed (sizeofRsp f)) else none

/-- The two loops; `rspSize` is the size in the header of the response. -/
def readResponse (r : Source) (rspSize : ℤ) (fuel : ℕ) : Response → Option Outcome
  | .fixed size => r.readLoop size fuel 0 0
  | .sized =>
    match r.readLoop sizeofResponseHeader fuel 0 0 with
    | none => none
    | some (.failed n) => some (.failed n)
    | some (.complete n) => r.readLoop rspSize fuel 0 n

/-- `connected` is false when there is no valid socket. -/
def requestRouter (lib : Library) (connected : Bool) (req : RdmaFunctionCall) (r : Source)
    (rspSize : ℤ) (fuel : ℕ) : Option Outcome :=
  if connected then
    match awaits lib req with
    | none => some (.complete 0)
    | some rsp => readResponse r rspSize fuel rsp
  else some (.complete 0)

def Returns (lib : Library) (connected : Bool) (req : RdmaFunctionCall) (r : Source)
    (rspSize : ℤ) : Prop := ∃ fuel o, requestRouter lib connected req r rspSize fuel = some o

/-- The stream does not end inside the response. -/
def Whole (r : Source) (rspSize : ℤ) : Response → Prop
  | .fixed size => ¬r.Stalls size 0 0
  | .sized => ¬r.Stalls sizeofResponseHeader 0 0 ∧
      ∀ n, r.Completes sizeofResponseHeader 0 0 n → ¬r.Stalls rspSize 0 n

theorem sized_returns (r : Source) (rspSize : ℤ) (fuel more n : ℕ) (o : Outcome)
    (hheader : r.readLoop sizeofResponseHeader fuel 0 0 = some (.complete n))
    (hbody : r.readLoop rspSize more 0 n = some o) :
    readResponse r rspSize (fuel+more) .sized = some o := by
  rw [readResponse,Source.readLoop_mono fuel more 0 0 _ hheader]
  dsimp only
  rw [Nat.add_comm]
  exact Source.readLoop_mono more fuel 0 n _ hbody

theorem readResponse_returns_iff (r : Source) (rspSize : ℤ) (rsp : Response) :
    (∃ fuel o, readResponse r rspSize fuel rsp = some o) ↔ Whole r rspSize rsp := by
  cases rsp with
  | fixed size => exact Source.returns_iff 0 0
  | sized =>
    constructor
    · rintro ⟨fuel,o,h⟩
      rw [readResponse] at h
      cases hheader : r.readLoop sizeofResponseHeader fuel 0 0 with
      | none =>
        rw [hheader] at h
        cases h
      | some header =>
        refine ⟨(Source.returns_iff 0 0).mp ⟨fuel,header,hheader⟩,fun n hn => ?_⟩
        obtain ⟨fuel',hcomplete⟩ := (Source.readLoop_complete_iff 0 0 n).mpr ⟨n,by omega,hn⟩
        -- more fuel does not change how the first loop ends
        have hsame : header = .complete n := by
          have hleft := Source.readLoop_mono fuel fuel' 0 0 header hheader
          have hright := Source.readLoop_mono fuel' fuel 0 0 _ hcomplete
          rw [Nat.add_comm,hright] at hleft
          exact (Option.some.inj hleft).symm
        rw [hheader,hsame] at h
        exact (Source.returns_iff 0 n).mp ⟨fuel,o,h⟩
    · rintro ⟨hheader,hbody⟩
      obtain ⟨fuel,header,h⟩ := (Source.returns_iff 0 0).mpr hheader
      cases header with
      | failed n => exact ⟨fuel,.failed n,by rw [readResponse,h]⟩
      | complete n =>
        obtain ⟨m,hm,hcomplete⟩ := (Source.readLoop_complete_iff 0 0 n).mp ⟨fuel,h⟩
        obtain rfl : n = m := by omega
        obtain ⟨more,o,ho⟩ := (Source.returns_iff 0 n).mpr (hbody n hcomplete)
        exact ⟨fuel+more,o,sized_returns r rspSize fuel more n o h ho⟩

/-- A call returns exactly when the connection is not closed before the last
byte of the response it waits for. -/
theorem request_returns_iff (lib : Library) (connected : Bool) (req : RdmaFunctionCall)
    (r : Source) (rspSize : ℤ) :
    Returns lib connected req r rspSize ↔
      (connected = true → ∀ rsp, awaits lib req = some rsp → Whole r rspSize rsp) := by
  unfold Returns requestRouter
  cases connected with
  | false => simp
  | true =>
    cases hrsp : awaits lib req with
    | none => simp
    | some rsp => simpa using readResponse_returns_iff r rspSize rsp

theorem not_returns_of_stalls (lib : Library) (req : RdmaFunctionCall) (r : Source) (rspSize : ℤ)
    (size : ℕ) (hrsp : awaits lib req = some (.fixed size)) (hstall : r.Stalls size 0 0) :
    ¬Returns lib true req r rspSize := by
  rintro ⟨fuel,o,h⟩
  have hnone : readResponse r rspSize fuel (.fixed size) = none :=
    Source.readLoop_stalled fuel 0 0 hstall
  rw [requestRouter,if_pos rfl,hrsp] at h
  exact absurd (hnone.symm.trans h) nofun

/-- When the router closes the connection after any part of a response, in
whatever pieces it arrives, the call does not return. -/
theorem closed_early_never_returns (lib : Library) (req : RdmaFunctionCall) (size : ℕ)
    (hrsp : awaits lib req = some (.fixed size)) (counts : List ℕ) (hpos : ∀ c ∈ counts, 0 < c)
    (hless : counts.sum < size) (rspSize : ℤ) :
    ¬Returns lib true req (Source.ofCounts counts hpos) rspSize :=
  not_returns_of_stalls lib req _ rspSize size hrsp
    (Source.ofCounts_stalls counts hpos (by exact_mod_cast hless))

/-- Closed after two of the four bytes, and before the first byte. -/
theorem closed_connection_loops :
    ¬Returns .verbs true .ibvAllocPd (Source.ofCounts [2] (by decide)) 0 ∧
    ¬Returns .rdmacm true .cmListen (Source.ofCounts [] (by decide)) 0 :=
  ⟨not_returns_of_stalls .verbs .ibvAllocPd _ 0 4 rfl (Source.ofCounts_stalls [2] (by decide) (by decide)),
    not_returns_of_stalls .rdmacm .cmListen _ 0 4 rfl (Source.ofCounts_stalls [] (by decide) (by decide))⟩

end FreeFlow.ResponseReads
