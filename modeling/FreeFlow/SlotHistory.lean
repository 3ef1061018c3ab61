import FreeFlow.PostRecv

/-!
# Requests through one slot

The slot of a queue pair keeps its bytes from one request to the next. The
client overwrites the command and the arrays of its list, the control loop
repairs them in place, and the driver walks the chain that starts at the first
position. All this happens also when the list is empty; the chain is then what
an earlier request left there.

The router's tables and the client's MRs are those of the moment, so each
request comes with its own. A list left by a send and walked as receives, or the
other way round, is not split into bytes; nothing below depends on what such a
walk reads.
-/

set_option autoImplicit false

namespace FreeFlow.SlotHistory

open CellRecords PostRecv PostSend Runs

/-- A request; `slot` is where the client has mapped the command. -/
inductive Request
  | postSend (r : Router) (mr : ℕ → BitVec 64) (ws : List SendWr)
  | postRecv (r : Router) (mr : ℕ → BitVec 64) (slot : ℕ) (ws : List RecvWr)

/-- A request and the number of pointers the driver follows until it stops. -/
structure Service where
  request : Request
  walk : ℕ

/-- The bytes of the slot. The four lists are ghost state: what the driver was
handed and what the client submitted. -/
structure Slot where
  mem : ℕ → ℕ
  sends : List PostedWr
  recvs : List PostedWr
  submittedSends : List PostedWr
  submittedRecvs : List PostedWr

variable (b : Buffer) (handle : ℕ)

def fixSend (r : Router) (mem : ℕ → ℕ) : Option (ℕ → ℕ) :=
  (fixWrs r noWait 0 b (r.ud (mem 16)) (mem 20) (mem 20) 0
    ⟨mem,32+128*mem 20,32+128*mem 20+16*mem 24,[]⟩).map Cursor.mem

def step (s : Slot) (a : Service) : Option Slot :=
  match a.request with
  | .postSend r mr ws =>
    (fixSend b r (ibvCmdPostSend (r.ud handle) (fun key => (mr key).toNat) s.mem handle ws)).bind
      fun mem => (chain b mem a.walk (b.addr+32)).map fun posted =>
        {s with mem := mem
                sends := s.sends++posted
                submittedSends := s.submittedSends++ws.map (arrivedSend r mr (r.ud handle))}
  | .postRecv r mr slot ws =>
    let mem := fixRecv r true b (ibvCmdPostRecv (fun key => (mr key).toNat) slot s.mem handle ws)
    (recvChain b mem a.walk (b.addr+32)).map fun posted =>
      {s with mem := mem
              recvs := s.recvs++posted
              submittedRecvs := s.submittedRecvs++ws.map (arrivedRecv r mr)}

/-- The driver was handed what the client submitted. -/
def Slot.Exact (s : Slot) : Prop := s.sends = s.submittedSends ∧ s.recvs = s.submittedRecvs

/-- The list is not empty, and on a UD queue pair all its address handles
denote the one of the first request. -/
def Request.Sound (handle : ℕ) : Request → Prop
  | .postSend _ _ [] => False
  | .postSend r _ (w::ws) =>
    r.ud handle = true → ∀ v ∈ ws, r.ahMap v.ahHandle = r.ahMap w.ahHandle
  | .postRecv _ _ _ ws => ws ≠ []

def Request.size : Request → ℕ
  | .postSend _ _ ws => ws.length
  | .postRecv _ _ _ ws => ws.length

section Walks

variable {b}

end Walks

section Services

variable {b} {handle} {r : Router} {mr : ℕ → BitVec 64}

end Services

section Histories

def Slot.Ahead (s : Slot) : Prop :=
  s.submittedSends.length ≤ s.sends.length ∧ s.submittedRecvs.length ≤ s.recvs.length

variable {b} {handle}

end Histories

end FreeFlow.SlotHistory
