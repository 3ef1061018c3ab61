import Mathlib.Data.Int.Notation
import Mathlib.Data.Nat.Notation

/-!
# Function codes and sizes shared by the client libraries and the router

The enumeration is `RDMA_FUNCTION_CALL`, in the order of the header, so that
`code` is the number stored in `FfrRequestHeader.func`. The constants are the
ones both sides include.
-/

set_option autoImplicit false

namespace FreeFlow.Wire

inductive RdmaFunctionCall
  | ibvGetDeviceList
  | ibvGetContext
  | ibvQueryDev
  | ibvExpQueryDev
  | ibvQueryPort
  | ibvAllocPd
  | ibvDeallocPd
  | ibvCreateQp
  | ibvModifyQp
  | ibvQueryQp
  | ibvDestroyQp
  | ibvCreateSrq
  | ibvModifySrq
  | ibvPostSrqRecv
  | ibvDestroySrq
  | ibvCreateCq
  | ibvDestroyCq
  | ibvPollCq
  | ibvGetCqEvent
  | ibvAckCqEvent
  | ibvReqNotifyCq
  | ibvRegMr
  | ibvRegMrMapping
  | ibvDeregMr
  | ibvRegCm
  | ibvPostSend
  | ibvPostRecv
  | ibvCreateCompChannel
  | ibvDestroyCompChannel
  | ibvCreateAh
  | ibvDestroyAh
  | ibvCreateFlow
  | ibvDestroyFlow
  | ibvMalloc
  | ibvFree
  | ibvResizeCq
  | cmCreateEventChannel
  | cmDestroyEventChannel
  | cmCreateId
  | cmBindIp
  | cmBind
  | cmGetEvent
  | cmQueryRoute
  | cmListen
  | cmResolveIp
  | cmResolveAddr
  | cmUcmaQueryAddr
  | cmUcmaQueryGid
  | cmUcmaProcessConnResp
  | cmDestroyId
  | cmResolveRoute
  | cmUcmaQueryPath
  | cmInitQpAttr
  | cmConnect
  | cmAccept
  | cmSetOption
  | cmMigrateId
  | cmDisconnect
  | socketSocket
  | socketBind
  | socketAccept
  | socketAccept4
  | socketConnect
  deriving DecidableEq

def RdmaFunctionCall.code (f : RdmaFunctionCall) : ℤ := f.ctorIdx

/-- `MAP_SIZE`: the length of every handle table. -/
def mapSize : ℕ := 10240

/-- `CTRL_RSP_SIZE`: the response half of a control slot. -/
def ctrlRspSize : ℕ := 1024*1024

/-- `sizeof(struct FfrResponseHeader)`. -/
def sizeofResponseHeader : ℕ := 4

/-- `sizeof(struct ibv_wc)`. -/
def sizeofWc : ℕ := 48

/-- `sizeof` of the `_REQ` struct of a function, 0 if it has none. A posted
request gives the size of its body in the header. -/
def sizeofReq : RdmaFunctionCall → ℕ
  | .ibvExpQueryDev => 32
  | .ibvQueryPort => 1
  | .ibvDeallocPd => 4
  | .ibvCreateQp => 44
  | .ibvModifyQp => 152
  | .ibvQueryQp => 104
  | .ibvDestroyQp => 4
  | .ibvCreateSrq => 32
  | .ibvModifySrq => 20
  | .ibvDestroySrq => 4
  | .ibvCreateCq => 12
  | .ibvDestroyCq => 4
  | .ibvPollCq => 8
  | .ibvGetCqEvent => 4
  | .ibvAckCqEvent => 8
  | .ibvReqNotifyCq => 8
  | .ibvRegMr => 112
  | .ibvRegMrMapping => 24
  | .ibvDeregMr => 4
  | .ibvDestroyCompChannel => 4
  | .ibvCreateAh => 40
  | .ibvDestroyAh => 4
  | .ibvCreateFlow => 1032
  | .ibvDestroyFlow => 32
  | .cmDestroyEventChannel => 4
  | .cmCreateId => 40
  | .cmBindIp => 56
  | .cmBind => 152
  | .cmGetEvent => 24
  | .cmQueryRoute => 32
  | .cmListen => 20
  | .cmResolveIp => 76
  | .cmResolveAddr => 288
  | .cmUcmaQueryAddr => 32
  | .cmUcmaQueryGid => 32
  | .cmUcmaProcessConnResp => 304
  | .cmDestroyId => 32
  | .cmResolveRoute => 20
  | .cmUcmaQueryPath => 32
  | .cmInitQpAttr => 32
  | .cmConnect => 292
  | .cmAccept => 304
  | .cmSetOption => 144
  | .cmMigrateId => 32
  | .cmDisconnect => 16
  | _ => 0

/-- `sizeof` of the `_RSP` struct of a function, the same in the headers of
the router and of the client libraries. `IBV_POLL_CQ` has none. -/
def sizeofRsp : RdmaFunctionCall → ℕ
  | .ibvGetContext => 8
  | .ibvQueryDev => 232
  | .ibvExpQueryDev => 424
  | .ibvQueryPort => 48
  | .ibvAllocPd => 4
  | .ibvDeallocPd => 4
  | .ibvCreateQp => 128
  | .ibvModifyQp => 8
  | .ibvQueryQp => 136
  | .ibvDestroyQp => 4
  | .ibvCreateSrq => 104
  | .ibvModifySrq => 4
  | .ibvPostSrqRecv => 8
  | .ibvDestroySrq => 4
  | .ibvCreateCq => 108
  | .ibvDestroyCq => 4
  | .ibvGetCqEvent => 12
  | .ibvAckCqEvent => 12
  | .ibvReqNotifyCq => 4
  | .ibvRegMr => 112
  | .ibvRegMrMapping => 4
  | .ibvDeregMr => 4
  | .ibvPostSend => 8
  | .ibvPostRecv => 8
  | .ibvCreateCompChannel => 4
  | .ibvDestroyCompChannel => 4
  | .ibvCreateAh => 8
  | .ibvDestroyAh => 4
  | .ibvCreateFlow => 12
  | .ibvDestroyFlow => 4
  | .cmCreateEventChannel => 8
  | .cmDestroyEventChannel => 4
  | .cmCreateId => 8
  | .cmBindIp => 4
  | .cmBind => 4
  | .cmGetEvent => 336
  | .cmQueryRoute => 208
  | .cmListen => 4
  | .cmResolveIp => 4
  | .cmResolveAddr => 4
  | .cmUcmaQueryAddr => 280
  | .cmUcmaQueryGid => 280
  | .cmUcmaProcessConnResp => 4
  | .cmDestroyId => 8
  | .cmResolveRoute => 4
  | .cmUcmaQueryPath => 448
  | .cmInitQpAttr => 148
  | .cmConnect => 4
  | .cmAccept => 4
  | .cmSetOption => 4
  | .cmMigrateId => 8
  | .cmDisconnect => 4
  | _ => 0

end FreeFlow.Wire
