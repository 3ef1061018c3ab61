import FreeFlow.ByteMemory
import FreeFlow.PostSend
import FreeFlow.Runs
import FreeFlow.Wire

/-!
# Table entries and reads of the request handler

`HandleRequest` reads a header and a body from the socket of its client and uses
words of the body, and handles that the driver returns, as indices into tables of
`MAP_SIZE` entries. Every index into a table and every length given to `read` for
`req_body` is logged here, from the bytes of the stream on.

What the threads of other clients leave in the tables, how much each `read`
returns and what the driver returns are inputs of a turn. `req_body` keeps its content
from one request to the next, and a post can make the handler look at the memory
behind it.
-/

set_option autoImplicit false

namespace FreeFlow.TableBounds

open ByteMemory Runs Wire
open PostSend (OneSided)

inductive Table
  | pdMap
  | cqMap
  | qpMap
  | mrMap
  | ahMap
  | srqMap
  | channelMap
  | eventChannelMap
  | shmrMap
  | qpShmMap
  | cqShmMap
  | srqShmMap
  deriving DecidableEq

inductive Access
  | entry (table : Table) (index : ℤ)
  | read (size : ℕ)
  deriving DecidableEq

/-- The bytes that `req_body` is allocated with. -/
def allocated (disableRdma : Bool) : ℕ := if disableRdma then 0xff else 0xfffff

def Access.InBounds (disableRdma : Bool) : Access → Prop
  | .entry _ i => 0 ≤ i ∧ i < mapSize
  | .read n => n ≤ allocated disableRdma

/-- The tables as a request meets them. An entry of a handle table is NULL or not. -/
structure Tables where
  pdMap : ℕ → Bool
  cqMap : ℕ → Bool
  qpMap : ℕ → Bool
  srqMap : ℕ → Bool
  channelMap : ℕ → Bool
  eventChannelMap : ℕ → Bool
  ud : ℕ → Bool
  lkeyPtr : BitVec 32 → BitVec 64
  rkeyMrShm : ℕ → Option RemoteMapping.MrShm
  ahMap : BitVec 32 → BitVec 64

section AddressHandles

variable (t : Tables) (base : BitVec 64)

/-- The loop of a UD post over its work requests. -/
structure Cursor where
  mem : Memory
  sge : ℕ
  ah : ℕ
  handles : List (BitVec 32)

def fixRemote (mem : Memory) (wr : ℕ) : Memory :=
  if OneSided (word mem (wr+28)).toNat then
    putDword mem (wr+40)
      (RemoteMapping.translate t.rkeyMrShm (word mem (wr+48)).toNat (dword mem (wr+40)))
  else mem

def fixSge (mem : Memory) (p : ℕ) : Memory :=
  putDword mem p (t.lkeyPtr (word mem (p+12))+dword mem p)

def fixSges : ℕ → Memory → ℕ → Memory
  | 0, mem, _ => mem
  | n+1, mem, p => fixSges n (fixSge t mem p) (p+16)

/-- The rounds of the inner loop: `num_sge` is signed. -/
def numSge (mem : Memory) (wr : ℕ) : ℕ := (word mem (wr+24)).toInt.toNat

/-- The pointers of a work request are repaired. -/
def prepareWr (count i sge : ℕ) (mem : Memory) : Memory :=
  let wr := 32+128*i
  let mem := fixRemote t mem wr
  let mem := putDword mem (wr+8) (if count-1 ≤ i then 0 else base+BitVec.ofNat 64 (wr+128))
  putDword mem (wr+16) (if 0 < numSge mem wr then base+BitVec.ofNat 64 sge else 0)

def fixWr (count i : ℕ) (c : Cursor) : Cursor :=
  let wr := 32+128*i
  let mem := prepareWr t base count i c.sge c.mem
  let num := numSge mem wr
  let mem := fixSges t num mem c.sge
  let handle := word mem c.ah
  ⟨putDword mem (wr+40) (t.ahMap handle),c.sge+16*num,c.ah+4,c.handles++[handle]⟩

def wrCount (body : Memory) : ℕ := (word body 20).toNat

def sgeStart (body : Memory) : ℕ := 32+128*wrCount body

def ahStart (body : Memory) : ℕ := sgeStart body+16*(word body 24).toNat

def afterRounds (body : Memory) : ℕ → Cursor
  | 0 => ⟨body,sgeStart body,ahStart body,[]⟩
  | n+1 => fixWr t base (wrCount body) n (afterRounds body n)

end AddressHandles

/-- What one turn of the handler's loop meets. A `read` returns a number of bytes,
or -1. `stack` is the memory of the header before the read, `rounds` how far the
loop over the work requests gets: it may wait for tokens or fault. `stops` is any
other end of the thread: a NULL pointer, a failed write, a `return`. -/
structure Turn where
  header : Option ℕ
  stack : Memory
  body : Option ℕ
  tables : Tables
  created : Option (BitVec 32)
  shmPiece : Bool
  base : BitVec 64
  rounds : ℕ
  stops : Bool

def entry (t : Table) (h : BitVec 32) : Access := .entry t h.toNat

def fdEntry (t : Table) (fd : BitVec 32) : Access := .entry t fd.toInt

/-- The entry is used only if the handle is below `MAP_SIZE`. -/
def tested (t : Table) (h : BitVec 32) : List Access :=
  if mapSize ≤ h.toNat then [] else [entry t h]

/-- The test of a descriptor compares signed numbers. -/
def testedFd (t : Table) (fd : BitVec 32) : List Access :=
  if (mapSize : ℤ) ≤ fd.toInt then [] else [fdEntry t fd]

/-- A new object with a control segment, whose table is not behind the test. -/
def withSegment (t shm : Table) (created : Option (BitVec 32)) : List Access :=
  created.elim [] fun h => tested t h++[entry shm h]

/-- An entry is looked up; what follows needs an object. -/
def whenFound (a : Access) (found : Bool) (rest : List Access) : List Access :=
  a::if found then rest else []

/-- A QP, CQ or SRQ is taken out of its table and its segment deleted. -/
def destroyed (t shm : Table) (found : Bool) (h : BitVec 32) : List Access :=
  whenFound (entry t h) found [entry t h,entry shm h,entry shm h]

def udHandles (e : Turn) (body : Memory) : List (BitVec 32) :=
  (afterRounds e.tables e.base body (min e.rounds (wrCount body))).handles

def IsUd (e : Turn) (h : BitVec 32) : Prop :=
  h.toNat < mapSize ∧ e.tables.qpMap h.toNat = true ∧ e.tables.ud h.toNat = true

instance (e : Turn) (h : BitVec 32) : Decidable (IsUd e h) := inferInstanceAs (Decidable (_ ∧ _))

/-- The entries that each case uses, in the order of the source. -/
def accesses (e : Turn) (body : Memory) : RdmaFunctionCall → List Access
  | .ibvAllocPd => e.created.elim [] (tested .pdMap)
  | .ibvDeallocPd => whenFound (entry .pdMap (word body 0)) (e.tables.pdMap (word body 0).toNat)
      [entry .pdMap (word body 0)]
  | .ibvCreateCq =>
      if (word body 0).toInt < 0 then withSegment .cqMap .cqShmMap e.created
      else whenFound (fdEntry .channelMap (word body 0))
        (e.tables.channelMap (word body 0).toInt.toNat) (withSegment .cqMap .cqShmMap e.created)
  | .ibvDestroyCq => destroyed .cqMap .cqShmMap (e.tables.cqMap (word body 0).toNat) (word body 0)
  | .ibvReqNotifyCq => [entry .cqMap (word body 0)]
  | .ibvCreateQp => [entry .srqMap (word body 20),entry .cqMap (word body 12),
      entry .cqMap (word body 16),entry .pdMap (word body 0)]++
        withSegment .qpMap .qpShmMap e.created
  | .ibvDestroyQp => destroyed .qpMap .qpShmMap (e.tables.qpMap (word body 0).toNat) (word body 0)
  | .ibvRegMr =>
      if e.shmPiece then whenFound (entry .pdMap (word body 0)) (e.tables.pdMap (word body 0).toNat)
        (e.created.elim [] fun h => tested .shmrMap h++tested .mrMap h)
      else []
  | .ibvDeregMr => [entry .shmrMap (word body 0),entry .mrMap (word body 0),
      entry .shmrMap (word body 0),entry .mrMap (word body 0)]
  | .ibvModifyQp => tested .qpMap (word body 0)
  | .ibvPostSend => tested .qpMap (word body 16)++
      if IsUd e (word body 16) then (udHandles e body).map (entry .ahMap) else []
  | .ibvPostRecv => tested .qpMap (word body 16)
  | .ibvPollCq => tested .cqMap (word body 0)
  | .ibvCreateCompChannel => e.created.elim [] (testedFd .channelMap)
  | .ibvDestroyCompChannel => whenFound (fdEntry .channelMap (word body 0))
      (e.tables.channelMap (word body 0).toInt.toNat) [fdEntry .channelMap (word body 0)]
  | .ibvGetCqEvent => [fdEntry .channelMap (word body 0)]
  | .ibvAckCqEvent => [entry .cqMap (word body 0)]
  | .ibvCreateAh => whenFound (entry .pdMap (word body 0)) (e.tables.pdMap (word body 0).toNat)
      (e.created.elim [] (tested .ahMap))
  -- read through the struct of `IBV_CREATE_AH`, whose first field has the same place
  | .ibvDestroyAh => [entry .ahMap (word body 0)]
  | .ibvCreateSrq => whenFound (entry .pdMap (word body 0)) (e.tables.pdMap (word body 0).toNat)
      (withSegment .srqMap .srqShmMap e.created)
  | .ibvModifySrq => [entry .srqMap (word body 0)]
  | .ibvDestroySrq =>
      destroyed .srqMap .srqShmMap (e.tables.srqMap (word body 0).toNat) (word body 0)
  | .ibvPostSrqRecv => tested .srqMap (word body 16)
  | .cmCreateEventChannel => e.created.elim [] (testedFd .eventChannelMap)
  | .cmDestroyEventChannel => whenFound (fdEntry .eventChannelMap (word body 0))
      (e.tables.eventChannelMap (word body 0).toInt.toNat) [fdEntry .eventChannelMap (word body 0)]
  | _ => []

/-- The three cases that read as many bytes as the header says. -/
def posts : RdmaFunctionCall → Bool
  | .ibvPostSend => true
  | .ibvPostRecv => true
  | .ibvPostSrqRecv => true
  | _ => false

/-- The socket cases leave the loop. -/
def leaves : RdmaFunctionCall → Bool
  | .socketSocket => true
  | .socketBind => true
  | .socketAccept => true
  | .socketAccept4 => true
  | .socketConnect => true
  | _ => false

/-- The length that a case gives to `read`, if it reads a body. -/
def bodyLength (bodySize : ℕ) : RdmaFunctionCall → Option ℕ
  | .ibvPostSend => some bodySize
  | .ibvPostRecv => some bodySize
  | .ibvPostSrqRecv => some bodySize
  | .socketSocket => some 12
  | .socketAccept4 => some 4
  | .socketConnect => some 20
  | f => if sizeofReq f = 0 then none else some (sizeofReq f)

structure State where
  stream : List (BitVec 8)
  reqBody : Memory
  alive : Bool
  log : List Access

def started (stream : List (BitVec 8)) (reqBody : Memory) : State := ⟨stream,reqBody,true,[]⟩

/-- `read` of `n` bytes can return `got`. -/
def canReturn (stream : List (BitVec 8)) (n : ℕ) (got : Option ℕ) : Bool :=
  got.all fun k => k ≤ n && k ≤ stream.length

def taken (stream : List (BitVec 8)) (got : Option ℕ) : List (BitVec 8) := stream.take (got.getD 0)

def left (stream : List (BitVec 8)) (got : Option ℕ) : List (BitVec 8) := stream.drop (got.getD 0)

/-- The comparison with `sizeof` is unsigned, so -1 passes. -/
def short (n : ℕ) (got : Option ℕ) : Bool := got.any (· < n)

/-- The comparison with `body_size` is signed, so -1 fails. -/
def shortOrFailed (n : ℕ) (got : Option ℕ) : Bool := got.all (· < n)

def headerSize : ℕ := 12

def headerOf (s : State) (e : Turn) : Memory := fill e.stack (taken s.stream e.header)

def callOf (header : Memory) : Option RdmaFunctionCall :=
  if (word header 4).toNat < 63 then some (.ofNat (word header 4).toNat) else none

/-- The function and the body size of the request that a turn hears. -/
def hears (s : State) (e : Turn) : Option (RdmaFunctionCall × ℕ) :=
  if short headerSize e.header then none
  else (callOf (headerOf s e)).map fun f => (f,(word (headerOf s e) 8).toNat)

def bodyFailed (e : Turn) (f : RdmaFunctionCall) (bodySize : ℕ) : Bool :=
  (bodyLength bodySize f).any fun n =>
    if posts f then shortOrFailed n e.body else short n e.body

/-- `req_body` after the read. -/
def bodyOf (s : State) (e : Turn) : Memory :=
  fill s.reqBody (taken (left s.stream e.header) e.body)

def served (s : State) (e : Turn) (f : RdmaFunctionCall) (bodySize : ℕ) : List Access :=
  (bodyLength bodySize f).toList.map .read++
    if bodyFailed e f bodySize then [] else accesses e (bodyOf s e) f

/-- The loop goes on: a failed read of a post jumps to `end`, any other one to
`kill`. -/
def goesOn (e : Turn) (f : RdmaFunctionCall) (bodySize : ℕ) : Bool :=
  if bodyFailed e f bodySize then posts f else !(e.stops || leaves f)

def step (s : State) (e : Turn) : Option State :=
  if s.alive && canReturn s.stream headerSize e.header then
    match hears s e with
    | none => some {s with stream := left s.stream e.header,
                           alive := !(e.stops || short headerSize e.header)}
    | some (f,bodySize) =>
      if canReturn (left s.stream e.header) ((bodyLength bodySize f).getD 0) e.body then
        some ⟨left (left s.stream e.header) e.body,bodyOf s e,goesOn e f bodySize,
          s.log++served s e f bodySize⟩
      else none
  else none

/-- Every access so far was in bounds. -/
def Safe (disableRdma : Bool) (s : State) : Prop := ∀ a ∈ s.log, a.InBounds disableRdma

/-- The handle of the body is below `MAP_SIZE`. -/
def Below (h : BitVec 32) : Prop := h.toNat < mapSize

def BelowFd (fd : BitVec 32) : Prop := 0 ≤ fd.toInt ∧ fd.toInt < mapSize

/-- The handles that a request names, or the driver returns for it, have a place
in the tables. -/
def Placed (e : Turn) (body : Memory) : RdmaFunctionCall → Prop
  | .ibvDeallocPd => Below (word body 0)
  | .ibvCreateCq => (0 ≤ (word body 0).toInt → BelowFd (word body 0)) ∧
      ((word body 0).toInt < 0 ∨ e.tables.channelMap (word body 0).toInt.toNat = true →
        ∀ h ∈ e.created, Below h)
  | .ibvDestroyCq => Below (word body 0)
  | .ibvReqNotifyCq => Below (word body 0)
  | .ibvCreateQp => Below (word body 20) ∧ Below (word body 12) ∧ Below (word body 16) ∧
      Below (word body 0) ∧ ∀ h ∈ e.created, Below h
  | .ibvDestroyQp => Below (word body 0)
  | .ibvRegMr => e.shmPiece = true → Below (word body 0)
  | .ibvDeregMr => Below (word body 0)
  | .ibvPostSend => IsUd e (word body 16) → ∀ h ∈ udHandles e body, Below h
  | .ibvCreateCompChannel => ∀ fd ∈ e.created, 0 ≤ fd.toInt
  | .ibvDestroyCompChannel => BelowFd (word body 0)
  | .ibvGetCqEvent => BelowFd (word body 0)
  | .ibvAckCqEvent => Below (word body 0)
  | .ibvCreateAh => Below (word body 0)
  | .ibvDestroyAh => Below (word body 0)
  | .ibvCreateSrq => Below (word body 0) ∧
      (e.tables.pdMap (word body 0).toNat = true → ∀ h ∈ e.created, Below h)
  | .ibvModifySrq => Below (word body 0)
  | .ibvDestroySrq => Below (word body 0)
  | .cmCreateEventChannel => ∀ fd ∈ e.created, 0 ≤ fd.toInt
  | .cmDestroyEventChannel => BelowFd (word body 0)
  | _ => True

/-- The body of a post fits into the buffer; the five structs that are larger
than the small buffer are not asked for when RDMA is disabled. -/
def Fits (disableRdma : Bool) (bodySize : ℕ) : RdmaFunctionCall → Prop
  | .ibvPostSend => bodySize ≤ allocated disableRdma
  | .ibvPostRecv => bodySize ≤ allocated disableRdma
  | .ibvPostSrqRecv => bodySize ≤ allocated disableRdma
  | .ibvCreateFlow => disableRdma = false
  | .cmResolveAddr => disableRdma = false
  | .cmUcmaProcessConnResp => disableRdma = false
  | .cmConnect => disableRdma = false
  | .cmAccept => disableRdma = false
  | _ => True

/-- A turn hears no request, or one that fits and, if its body arrives, names
places of the tables. -/
def Wellformed (disableRdma : Bool) (s : State) (e : Turn) : Prop :=
  ∀ f bodySize, hears s e = some (f,bodySize) → Fits disableRdma bodySize f ∧
    (bodyFailed e f bodySize = false → Placed e (bodyOf s e) f)

section Entries

variable {d : Bool}

theorem entry_inBounds (t : Table) (h : BitVec 32) : (entry t h).InBounds d ↔ Below h := by
  simp [entry,Access.InBounds,Below]

theorem fdEntry_inBounds (t : Table) (fd : BitVec 32) :
    (fdEntry t fd).InBounds d ↔ BelowFd fd := Iff.rfl

theorem tested_inBounds (t : Table) (h : BitVec 32) : ∀ a ∈ tested t h, a.InBounds d := by
  intro a ha
  rw [tested] at ha
  split at ha
  · cases ha
  · next hlt =>
    obtain rfl := List.mem_singleton.mp ha
    exact (entry_inBounds t h).mpr (Nat.lt_of_not_le hlt)

theorem testedFd_inBounds (t : Table) (fd : BitVec 32) :
    (∀ a ∈ testedFd t fd, a.InBounds d) ↔ 0 ≤ fd.toInt := by
  rw [testedFd]
  split
  · next hge =>
    have : (0 : ℤ) ≤ mapSize := Int.natCast_nonneg _
    simpa using this.trans hge
  · next hlt =>
    rw [List.forall_mem_singleton,fdEntry_inBounds,BelowFd]
    exact and_iff_left (not_le.mp hlt)

theorem created_inBounds (created : Option (BitVec 32)) (use : BitVec 32 → List Access)
    (P : BitVec 32 → Prop) (huse : ∀ h, (∀ a ∈ use h, a.InBounds d) ↔ P h) :
    (∀ a ∈ created.elim [] use, a.InBounds d) ↔ ∀ h ∈ created, P h := by
  cases created with
  | none => simp
  | some h => simpa using huse h

theorem withSegment_inBounds (t shm : Table) (created : Option (BitVec 32)) :
    (∀ a ∈ withSegment t shm created, a.InBounds d) ↔ ∀ h ∈ created, Below h := by
  apply created_inBounds
  intro h
  rw [List.forall_mem_append,List.forall_mem_singleton,entry_inBounds]
  exact and_iff_right (tested_inBounds t h)

theorem whenFound_inBounds (a : Access) (found : Bool) (rest : List Access) :
    (∀ x ∈ whenFound a found rest, x.InBounds d) ↔
      a.InBounds d ∧ (found = true → ∀ x ∈ rest, x.InBounds d) := by
  rw [whenFound,List.forall_mem_cons]
  cases found <;> simp

/-- What follows a successful look-up adds nothing, if it is in bounds with it. -/
theorem whenFound_inBounds_self (a : Access) (found : Bool) (rest : List Access)
    (hrest : a.InBounds d → ∀ x ∈ rest, x.InBounds d) :
    (∀ x ∈ whenFound a found rest, x.InBounds d) ↔ a.InBounds d := by
  rw [whenFound_inBounds]
  exact and_iff_left_of_imp fun ha _ => hrest ha

theorem destroyed_inBounds (t shm : Table) (found : Bool) (h : BitVec 32) :
    (∀ a ∈ destroyed t shm found h, a.InBounds d) ↔ Below h := by
  rw [destroyed,whenFound_inBounds_self,entry_inBounds]
  simp [entry_inBounds]

theorem created_tested (created : Option (BitVec 32)) (t : Table) :
    ∀ a ∈ created.elim [] (tested t), a.InBounds d := by
  cases created with
  | none => simp
  | some h => exact tested_inBounds t h

end Entries

section Requests

variable {d : Bool}

theorem createCq_inBounds (e : Turn) (body : Memory) :
    (∀ a ∈ accesses e body .ibvCreateCq, a.InBounds d) ↔ Placed e body .ibvCreateCq := by
  rw [accesses,Placed]
  split
  · next hneg =>
    rw [withSegment_inBounds]
    simp [hneg]
  · next hnonneg =>
    rw [whenFound_inBounds,withSegment_inBounds,fdEntry_inBounds]
    simp [hnonneg,not_lt.mp hnonneg]

theorem createQp_inBounds (e : Turn) (body : Memory) :
    (∀ a ∈ accesses e body .ibvCreateQp, a.InBounds d) ↔ Placed e body .ibvCreateQp := by
  rw [accesses,Placed,List.forall_mem_append,withSegment_inBounds]
  simp [entry_inBounds,and_assoc]

theorem regMr_inBounds (e : Turn) (body : Memory) :
    (∀ a ∈ accesses e body .ibvRegMr, a.InBounds d) ↔ Placed e body .ibvRegMr := by
  rw [accesses,Placed]
  split
  · next hpiece =>
    rw [whenFound_inBounds_self,entry_inBounds]
    · simp [hpiece]
    · intro _
      cases e.created with
      | none => simp
      | some h => exact List.forall_mem_append.mpr ⟨tested_inBounds _ h,tested_inBounds _ h⟩
  · next hpiece => simp [hpiece]

theorem postSend_inBounds (e : Turn) (body : Memory) :
    (∀ a ∈ accesses e body .ibvPostSend, a.InBounds d) ↔ Placed e body .ibvPostSend := by
  rw [accesses,Placed,List.forall_mem_append,and_iff_right (tested_inBounds _ _)]
  split
  · next hud => simp [hud,entry_inBounds]
  · next hud => simp [hud]

/-- The entries of a request are in bounds exactly when its handles are placed. -/
theorem accesses_inBounds (e : Turn) (body : Memory) (f : RdmaFunctionCall) :
    (∀ a ∈ accesses e body f, a.InBounds d) ↔ Placed e body f := by
  cases f with
  | ibvCreateCq => exact createCq_inBounds e body
  | ibvCreateQp => exact createQp_inBounds e body
  | ibvRegMr => exact regMr_inBounds e body
  | ibvPostSend => exact postSend_inBounds e body
  | ibvAllocPd => exact iff_true_intro (created_tested e.created .pdMap)
  | ibvModifyQp => exact iff_true_intro (tested_inBounds _ _)
  | ibvPostRecv => exact iff_true_intro (tested_inBounds _ _)
  | ibvPostSrqRecv => exact iff_true_intro (tested_inBounds _ _)
  | ibvPollCq => exact iff_true_intro (tested_inBounds _ _)
  | ibvDestroyCq => exact destroyed_inBounds _ _ _ _
  | ibvDestroyQp => exact destroyed_inBounds _ _ _ _
  | ibvDestroySrq => exact destroyed_inBounds _ _ _ _
  | ibvCreateCompChannel => exact created_inBounds _ _ _ (testedFd_inBounds _)
  | cmCreateEventChannel => exact created_inBounds _ _ _ (testedFd_inBounds _)
  | ibvCreateAh =>
    rw [accesses,whenFound_inBounds_self _ _ _ fun _ => created_tested e.created .ahMap]
    exact entry_inBounds _ _
  | ibvCreateSrq =>
    rw [accesses,whenFound_inBounds,withSegment_inBounds,entry_inBounds]
    rfl
  | _ => simp [accesses,Placed,whenFound_inBounds_self,entry_inBounds,fdEntry_inBounds]

theorem small_fits (n : ℕ) (hn : n ≤ 0xff) : n ≤ allocated d := by
  cases d with
  | false => exact hn.trans (by decide)
  | true => exact hn

/-- A struct that only the large buffer holds. -/
theorem large_fits (n : ℕ) (hn : 0xff < n) (hn' : n ≤ 0xfffff) : n ≤ allocated d ↔ d = false := by
  cases d with
  | false => exact iff_of_true hn' rfl
  | true => exact iff_of_false (Nat.not_le_of_lt hn) (by decide)

theorem reads_inBounds (bodySize : ℕ) (f : RdmaFunctionCall) :
    (∀ a ∈ (bodyLength bodySize f).toList.map Access.read, a.InBounds d) ↔ Fits d bodySize f := by
  cases f with
  | ibvPostSend | ibvPostRecv | ibvPostSrqRecv => exact List.forall_mem_singleton
  | ibvCreateFlow | cmResolveAddr | cmUcmaProcessConnResp | cmConnect | cmAccept =>
    exact List.forall_mem_singleton.trans (large_fits _ (by decide) (by decide))
  | ibvGetDeviceList | ibvGetContext | ibvQueryDev | ibvAllocPd | ibvRegCm | ibvCreateCompChannel
  | ibvMalloc | ibvFree | ibvResizeCq | cmCreateEventChannel | socketBind | socketAccept =>
    exact iff_true_intro (List.forall_mem_nil _)
  | _ => exact iff_true_intro (List.forall_mem_singleton.mpr (small_fits _ (by decide)))

theorem served_inBounds (s : State) (e : Turn) (f : RdmaFunctionCall) (bodySize : ℕ) :
    (∀ a ∈ served s e f bodySize, a.InBounds d) ↔
      Fits d bodySize f ∧ (bodyFailed e f bodySize = false → Placed e (bodyOf s e) f) := by
  rw [served,List.forall_mem_append,reads_inBounds]
  cases bodyFailed e f bodySize <;> simp [accesses_inBounds]

theorem step_safe_iff (s : State) (e : Turn) (s' : State) (hstep : step s e = some s') :
    Safe d s' ↔ Safe d s ∧ Wellformed d s e := by
  rw [step] at hstep
  split at hstep
  · split at hstep
    · next hnone =>
      obtain rfl := Option.some.inj hstep
      simp [Safe,Wellformed,hnone]
    · next f bodySize hsome =>
      split at hstep
      · obtain rfl := Option.some.inj hstep
        have hwell : Wellformed d s e ↔ ∀ a ∈ served s e f bodySize, a.InBounds d := by
          rw [served_inBounds]
          simp [Wellformed,hsome]
        rw [hwell,Safe,List.forall_mem_append]
        rfl
      · cases hstep
  · cases hstep

end Requests

section WellLaid

variable {region : ℕ → Prop} (t : Tables) (base : BitVec 64)

theorem fixRemote_agree (mem : Memory) (wr : ℕ) (hwr : ∀ a, region a → a < wr+40 ∨ wr+48 ≤ a) :
    Agree region mem (fixRemote t mem wr) := by
  rw [fixRemote]
  split
  · exact agree_putDword mem _ _ hwr
  · exact Agree.refl mem

theorem fixSges_agree (n : ℕ) (mem : Memory) (p : ℕ)
    (hp : ∀ a, region a → a < p ∨ p+16*n ≤ a) : Agree region mem (fixSges t n mem p) := by
  induction n generalizing mem p with
  | zero => exact Agree.refl mem
  | succ n ih =>
    have hsge : Agree region mem (fixSge t mem p) := by
      apply agree_putDword
      intro a ha
      have := hp a ha
      omega
    apply hsge.trans
    apply ih
    intro a ha
    have := hp a ha
    omega

theorem prepareWr_agree (count i sge : ℕ) (mem : Memory)
    (hwr : ∀ a, region a → a < 32+128*i+8 ∨ 32+128*i+24 ≤ a ∧ a < 32+128*i+40 ∨
      32+128*i+48 ≤ a) :
    Agree region mem (prepareWr t base count i sge mem) := by
  refine (fixRemote_agree t mem (32+128*i) ?_).trans ((agree_putDword _ _ _ ?_).trans
    (agree_putDword _ _ _ ?_)) <;>
  · intro a ha
    have := hwr a ha
    omega

/-- What the loop only reads: the numbers of sges, and all from the address
handles on. -/
def ReadOnly (body : Memory) (a : ℕ) : Prop :=
  (∃ k < wrCount body, 32+128*k+24 ≤ a ∧ a < 32+128*k+28) ∨ ahStart body ≤ a

/-- The sges of the first `n` work requests. -/
def usedSges (body : Memory) : ℕ → ℕ
  | 0 => 0
  | n+1 => usedSges body n+numSge body (32+128*n)

theorem usedSges_mono (body : Memory) {n n' : ℕ} (h : n ≤ n') :
    usedSges body n ≤ usedSges body n' := by
  induction h with
  | refl => exact le_rfl
  | step _ ih => exact ih.trans (Nat.le_add_right _ _)

/-- The work requests use no more sges than the post announces. -/
def WellLaid (body : Memory) : Prop := usedSges body (wrCount body) ≤ (word body 24).toNat

structure Advanced (body : Memory) (n : ℕ) (c : Cursor) : Prop where
  agree : Agree (ReadOnly body) body c.mem
  sge : c.sge = sgeStart body+16*usedSges body n
  ah : c.ah = ahStart body+4*n
  handles : c.handles = (List.range n).map fun i => word body (ahStart body+4*i)

theorem advanced_fixWr {body : Memory} (hbody : WellLaid body) {n : ℕ} (hn : n < wrCount body)
    {c : Cursor} (hc : Advanced body n c) :
    Advanced body (n+1) (fixWr t base (wrCount body) n c) := by
  have hstart : ahStart body = sgeStart body+16*(word body 24).toNat := rfl
  have hsges : sgeStart body = 32+128*wrCount body := rfl
  have hroom : usedSges body (n+1) ≤ (word body 24).toNat := (usedSges_mono body hn).trans hbody
  have hprep : Agree (ReadOnly body) body (prepareWr t base (wrCount body) n c.sge c.mem) := by
    apply hc.agree.trans
    apply prepareWr_agree
    rintro a (⟨k,hk,hlo,hhi⟩ | ha) <;> omega
  have hnum : numSge (prepareWr t base (wrCount body) n c.sge c.mem) (32+128*n) =
      numSge body (32+128*n) := by
    rw [numSge,hprep.word _ fun a hlo hhi => Or.inl ⟨n,hn,hlo,hhi⟩]
    rfl
  have hfixed : Agree (ReadOnly body) body (fixSges t (numSge body (32+128*n))
      (prepareWr t base (wrCount body) n c.sge c.mem) c.sge) := by
    apply hprep.trans
    apply fixSges_agree
    rw [usedSges] at hroom
    rintro a (⟨k,hk,hlo,hhi⟩ | ha)
    · rw [hc.sge]
      omega
    · rw [hc.sge]
      omega
  have hhandle : word (fixSges t (numSge body (32+128*n))
      (prepareWr t base (wrCount body) n c.sge c.mem) c.sge) c.ah =
        word body (ahStart body+4*n) := by
    rw [hc.ah]
    exact hfixed.word _ fun a hlo _ => Or.inr (by omega)
  rw [fixWr,hnum]
  constructor
  · apply hfixed.trans
    apply agree_putDword
    rintro a (⟨k,hk,hlo,hhi⟩ | ha) <;> omega
  · show c.sge+16*numSge body (32+128*n) = _
    rw [hc.sge,usedSges]
    omega
  · show c.ah+4 = _
    rw [hc.ah]
    omega
  · show c.handles++[_] = _
    rw [hc.handles,hhandle,List.range_succ,List.map_append]
    rfl

theorem advanced_afterRounds {body : Memory} (hbody : WellLaid body) (n : ℕ)
    (hn : n ≤ wrCount body) : Advanced body n (afterRounds t base body n) := by
  induction n with
  | zero => exact ⟨Agree.refl body,rfl,rfl,rfl⟩
  | succ n ih => exact advanced_fixWr t base hbody hn (ih (Nat.le_of_succ_le hn))

/-- A post whose sges are in their place uses the handles that the client put
behind them. -/
theorem placed_of_wellLaid (e : Turn) (body : Memory) (hbody : WellLaid body)
    (hah : ∀ i < wrCount body, Below (word body (ahStart body+4*i))) :
    Placed e body .ibvPostSend := by
  intro _ h hh
  have hadvanced := advanced_afterRounds e.tables e.base hbody (min e.rounds (wrCount body))
    (Nat.min_le_right _ _)
  rw [udHandles,hadvanced.handles] at hh
  obtain ⟨i,hi,rfl⟩ := List.mem_map.mp hh
  exact hah i ((List.mem_range.mp hi).trans_le (Nat.min_le_right _ _))

end WellLaid

/-- All accesses of a run are in bounds exactly when every request was well
formed. -/
theorem accesses_safe_iff (disableRdma : Bool) (stream : List (BitVec 8)) (reqBody : Memory)
    (turns : List Turn) (s : State) (hrun : run step (started stream reqBody) turns = some s) :
    Safe disableRdma s ↔
      Along step (Wellformed disableRdma) (started stream reqBody) turns := by
  rw [run_iff_along step (Safe disableRdma) (Wellformed disableRdma) step_safe_iff
    (started stream reqBody) turns s hrun]
  have hstart : Safe disableRdma (started stream reqBody) := by
    intro a ha
    cases ha
  exact and_iff_right hstart

def bytes (l : List ℕ) : List (BitVec 8) := l.map (BitVec.ofNat 8)

/-- Nothing but the PD 7 is in the tables. -/
def onePd : Tables :=
  ⟨fun h => h = 7,fun _ => false,fun _ => false,fun _ => false,fun _ => false,fun _ => false,
    fun _ => false,fun _ => 0,fun _ => none,fun _ => 0⟩

/-- A whole header and `n` bytes of the body arrive. -/
def arrives (n : ℕ) : Turn := ⟨some 12,fun _ => 0,some n,onePd,none,false,0,0,false⟩

/-- `IBV_DEALLOC_PD` of the handle 7. -/
def deallocStream : List (BitVec 8) := bytes [1,0,0,0,6,0,0,0,4,0,0,0,7,0,0,0]

theorem dealloc_safe : ∃ s, run step (started deallocStream fun _ => 0) [arrives 4] = some s ∧
    s.log = [.read 4,.entry .pdMap 7,.entry .pdMap 7] ∧ Safe true s := by
  refine ⟨_,rfl,by decide,?_⟩
  refine (accesses_safe_iff true deallocStream (fun _ => 0) [arrives 4] _ rfl).mpr ⟨?_,?_⟩
  · intro f bodySize hheard
    have hreq : hears (started deallocStream fun _ => 0) (arrives 4) = some (.ibvDeallocPd,4) := by
      decide
    rw [hreq] at hheard
    obtain ⟨rfl,rfl⟩ := Prod.mk.inj (Option.some.inj hheard)
    have hhandle : (word (bodyOf (started deallocStream fun _ => 0) (arrives 4)) 0).toNat <
        mapSize := by decide
    exact ⟨trivial,fun _ => hhandle⟩
  · intro _ _
    trivial

/-- `IBV_DEALLOC_PD` of the handle 10240, then `IBV_POST_RECV` with a `body_size`
of 2^32-1 and nothing behind it. -/
def hostileStream : List (BitVec 8) :=
  bytes [1,0,0,0,6,0,0,0,4,0,0,0,0,40,0,0,1,0,0,0,26,0,0,0,255,255,255,255]

theorem hostile_out_of_bounds :
    ∃ s, run step (started hostileStream fun _ => 0) [arrives 4,arrives 0] = some s ∧
      s.log = [.read 4,.entry .pdMap 10240,.read 4294967295] ∧ ¬ Safe false s := by
  refine ⟨_,rfl,by decide,?_⟩
  intro hsafe
  have hentry := hsafe (.entry .pdMap 10240) (by decide)
  exact absurd hentry.2 (by decide)

end FreeFlow.TableBounds
