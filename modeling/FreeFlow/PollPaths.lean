import FreeFlow.ByteMemory
import FreeFlow.ControlLoop
import FreeFlow.SlotProtocol
import Mathlib.Combinatorics.Enumerative.Composition

/-!
# Polling a CQ over the two paths

`CtrlChannelLoop` serves a poll in the slot of the CQ: the completions go
straight to where the client looks for them. `HandleRequest` serves it over
the socket, from a buffer of its own. The loop keeps the result of
`ibv_poll_cq` in an `unsigned int`, so that no error counts as one there: it
becomes a count of at least 2^31, its product with the size of a completion
becomes the response size, and the loop that logs the completions runs past
the end of the slot. `HandleRequest` keeps the result in an `int`.

A path ends in `none` where an access leaves a buffer or no answer comes.
-/

set_option autoImplicit false

namespace FreeFlow.PollPaths

open ByteMemory Wire
open ControlLoop (load)
open MachineIntegers (toInt toSizeT toUint32)

/-- What `ibv_poll_cq` returns for at most `ne` completions: an error, or a
count and the bytes of that many completions. -/
structure Poll (ne : ℤ) where
  result : ℤ
  wcs : List (BitVec 8)
  lower : -2^31 ≤ result
  upper : result < 2^31
  count : result ≤ max ne 0
  full : wcs.length = sizeofWc*result.toNat

/-- The response half of a slot: the header and the completions behind it. -/
structure Slot where
  rspSize : ℤ
  wcList : Memory

/-- `count` in `CtrlChannelLoop`. -/
def unsignedCount (result : ℤ) : ℕ := toUint32 result

def loopRspSize (result : ℤ) : ℤ :=
  if unsignedCount result = 0 then 0 else toInt ((unsignedCount result*sizeofWc : ℕ) : ℤ)

/-- The branch of `CtrlChannelLoop`. The last test is of the loop that reads
the `status` of `count` completions. -/
def ctrlChannelLoop {C : Type*} (cqMap : ℕ → Option C) (carried : Option C) (handle : ℕ) (ne : ℤ)
    (driver : C → Poll ne) (slot : Slot) : Option Slot :=
  match load cqMap carried handle with
  | none => none
  | some cq =>
    let poll := driver cq
    if sizeofResponseHeader+poll.wcs.length ≤ ctrlRspSize ∧
        sizeofResponseHeader+sizeofWc*unsignedCount poll.result ≤ ctrlRspSize then
      some ⟨loopRspSize poll.result,put slot.wcList 0 poll.wcs⟩
    else none

/-- The size of the buffer `rsp` of `HandleRequest`. -/
def rspBuffer : ℕ := 0xfffff

/-- The branch of `HandleRequest`: the header and the body written to the
socket. -/
def handleRequest {C : Type*} (cqMap : ℕ → Option C) (handle : ℕ) (ne : ℤ) (driver : C → Poll ne) :
    Option (ℤ × List (BitVec 8)) :=
  match load cqMap none handle with
  | none => none
  | some cq =>
    let poll := driver cq
    if sizeofResponseHeader+poll.wcs.length ≤ rspBuffer then
      if poll.result ≤ 0 then some (0,[])
      else some (toInt ((poll.result.toNat*sizeofWc : ℕ) : ℤ),poll.wcs)
    else none

/-- `ibv_cmd_poll_cq` from the response on: the return value and the bytes
stored into `wc`. -/
def clientPoll (slot : Slot) : Option (ℤ × List (BitVec 8)) :=
  let size := toSizeT slot.rspSize
  if size%sizeofWc ≠ 0 then some (-1,[])
  else if sizeofResponseHeader+size ≤ ctrlRspSize then
    some (toInt ((size/sizeofWc : ℕ) : ℤ),slice slot.wcList 0 size)
  else none

section Paths

variable {C : Type*} (cqMap : ℕ → Option C) (handle : ℕ) (ne : ℤ) (driver : C → Poll ne)
  (slot : Slot)

def fastPath (carried : Option C) : Option (ℤ × List (BitVec 8)) :=
  (ctrlChannelLoop cqMap carried handle ne driver slot).bind clientPoll

/-- `request_router` reads the body in portions of any sizes. -/
def slowPath (portions : List ℕ) : Option (ℤ × List (BitVec 8)) :=
  (handleRequest cqMap handle ne driver).bind fun r =>
    clientPoll ⟨r.1,receive slot.wcList 0 r.2 portions⟩

end Paths

theorem unsignedCount_of_nonneg (result : ℤ) (hlo : 0 ≤ result) (hhi : result < 2^31) :
    unsignedCount result = result.toNat :=
  MachineIntegers.toUint32_of_nonneg result hlo (by omega)

theorem le_unsignedCount_of_neg (result : ℤ) (hneg : result < 0) (hlo : -2^31 ≤ result) :
    2^31 ≤ unsignedCount result := MachineIntegers.le_toUint32_of_neg result hlo hneg

/-- A response with `n` completions that fits the slot. -/
theorem clientPoll_of_size (n : ℕ) (hn : sizeofResponseHeader+sizeofWc*n ≤ ctrlRspSize) (m : Memory) :
    clientPoll ⟨((sizeofWc*n : ℕ) : ℤ),m⟩ = some ((n : ℤ),slice m 0 (sizeofWc*n)) := by
  have hslot : sizeofWc*n < 2^31 := by
    simp only [sizeofResponseHeader,ctrlRspSize] at hn
    omega
  have hcount : n < 2^31 := by
    simp only [sizeofWc] at hslot
    omega
  simp only [clientPoll,SlotProtocol.toSizeT_size n hn]
  rw [if_neg (by simp),if_pos hn,Nat.mul_div_cancel_left n (by decide),
    MachineIntegers.toInt_natCast n hcount]

theorem clientPoll_of_count (n : ℕ) (hn : sizeofResponseHeader+sizeofWc*n ≤ ctrlRspSize)
    (m : Memory) (wcs : List (BitVec 8)) (hlen : wcs.length = sizeofWc*n) :
    clientPoll ⟨((sizeofWc*n : ℕ) : ℤ),put m 0 wcs⟩ = some ((n : ℤ),wcs) := by
  rw [clientPoll_of_size n hn,← hlen,slice_put]

section Agreement

variable {C : Type*} (cqMap : ℕ → Option C) (carried : Option C) (handle : ℕ) (ne : ℤ)
  (driver : C → Poll ne) (slot : Slot) (cq : C)

theorem load_cq (hhandle : handle < mapSize) (hcq : cqMap handle = some cq) :
    load cqMap carried handle = some cq := by
  rw [load,if_pos hhandle,hcq]

theorem fastPath_of_count (hhandle : handle < mapSize) (hcq : cqMap handle = some cq)
    (hlo : 0 ≤ (driver cq).result)
    (hfits : sizeofResponseHeader+sizeofWc*(driver cq).result.toNat ≤ ctrlRspSize) :
    fastPath cqMap handle ne driver slot carried = some ((driver cq).result,(driver cq).wcs) := by
  have hcount := unsignedCount_of_nonneg _ hlo (driver cq).upper
  have hsize : loopRspSize (driver cq).result =
      ((sizeofWc*(driver cq).result.toNat : ℕ) : ℤ) := by
    rw [loopRspSize,hcount]
    split
    · next hzero =>
      rw [hzero]
      rfl
    · rw [Nat.mul_comm,MachineIntegers.toInt_natCast]
      simp only [sizeofResponseHeader,ctrlRspSize] at hfits
      omega
  rw [fastPath,ctrlChannelLoop,load_cq cqMap carried handle cq hhandle hcq]
  dsimp only
  rw [hcount,(driver cq).full,if_pos ⟨hfits,hfits⟩,Option.bind_some,hsize,
    clientPoll_of_count _ hfits _ _ (driver cq).full,Int.toNat_of_nonneg hlo]

theorem slowPath_of_count (hhandle : handle < mapSize) (hcq : cqMap handle = some cq)
    (portions : List ℕ) (hsum : portions.sum = (driver cq).wcs.length)
    (hlo : 0 ≤ (driver cq).result)
    (hfits : sizeofResponseHeader+sizeofWc*(driver cq).result.toNat ≤ rspBuffer) :
    slowPath cqMap handle ne driver slot portions =
      some ((driver cq).result,(driver cq).wcs) := by
  have hslot : sizeofResponseHeader+sizeofWc*(driver cq).result.toNat ≤ ctrlRspSize :=
    hfits.trans (by decide)
  have hfull := (driver cq).full
  have hclient := clientPoll_of_count _ hslot slot.wcList _ hfull
  rw [Int.toNat_of_nonneg hlo] at hclient
  rw [slowPath,handleRequest,load_cq cqMap none handle cq hhandle hcq]
  dsimp only
  rw [hfull,if_pos hfits]
  split
  · next hle =>
    have hzero : (driver cq).result.toNat = 0 := by omega
    have hnil : (driver cq).wcs = [] := List.eq_nil_of_length_eq_zero (by rw [hfull,hzero]; rfl)
    rw [Option.bind_some,receive_eq _ _ _ _ (by rw [hsum,hnil]),← hnil,← hclient,
      hzero]
    rfl
  · rw [Option.bind_some,receive_eq _ _ _ _ hsum,Nat.mul_comm,MachineIntegers.toInt_natCast,
      hclient]
    simp only [sizeofResponseHeader,ctrlRspSize] at hslot
    omega

/-- A result that does not fit the slot as an unsigned count has no defined
outcome over the fast path. -/
theorem fastPath_none (hhandle : handle < mapSize) (hcq : cqMap handle = some cq)
    (hlarge : ctrlRspSize < sizeofResponseHeader+sizeofWc*unsignedCount (driver cq).result) :
    fastPath cqMap handle ne driver slot carried = none := by
  rw [fastPath,ctrlChannelLoop,load_cq cqMap carried handle cq hhandle hcq]
  dsimp only
  rw [if_neg fun h => absurd h.2 (Nat.not_le.mpr hlarge)]
  rfl

/-- For every CQ, every `ne` and every result of the driver, the two paths
give the same return value and the same completions exactly when the result is
no error and the completions fit the slot. -/
theorem poll_paths_agree_iff (hhandle : handle < mapSize) (hcq : cqMap handle = some cq)
    (portions : Composition (driver cq).wcs.length) :
    (∃ out, fastPath cqMap handle ne driver slot carried = some out ∧
      slowPath cqMap handle ne driver slot portions.blocks = some out) ↔
    0 ≤ (driver cq).result ∧ (driver cq).result ≤ 21845 := by
  constructor
  · rintro ⟨out,hfast,-⟩
    by_contra hout
    have hlarge : ctrlRspSize < sizeofResponseHeader+sizeofWc*unsignedCount (driver cq).result := by
      simp only [ctrlRspSize,sizeofResponseHeader,sizeofWc]
      by_cases hneg : (driver cq).result < 0
      · have := le_unsignedCount_of_neg _ hneg (driver cq).lower
        omega
      · rw [unsignedCount_of_nonneg _ (by omega) (driver cq).upper]
        omega
    rw [fastPath_none cqMap carried handle ne driver slot cq hhandle hcq hlarge] at hfast
    exact absurd hfast (by simp)
  · rintro ⟨hlo,hhi⟩
    have hbuffer : sizeofResponseHeader+sizeofWc*(driver cq).result.toNat ≤ rspBuffer := by
      simp only [sizeofResponseHeader,sizeofWc,rspBuffer]
      omega
    exact ⟨_,fastPath_of_count cqMap carried handle ne driver slot cq hhandle hcq hlo
        (hbuffer.trans (by decide)),
      slowPath_of_count cqMap handle ne driver slot cq hhandle hcq portions.blocks
        portions.blocks_sum hlo hbuffer⟩

end Agreement

def demoSlot : Slot := ⟨0,fun _ => 0⟩

/-- One completion of 48 bytes. -/
def oneCompletion : Poll 1 where
  result := 1
  wcs := List.replicate 48 7
  lower := by decide
  upper := by decide
  count := by decide
  full := by decide

def pollError : Poll 1 where
  result := -1
  wcs := []
  lower := by decide
  upper := by decide
  count := by decide
  full := by decide

theorem one_completion_agrees : ∃ out,
    fastPath (fun _ => some ()) 3 1 (fun _ => oneCompletion) demoSlot none = some out ∧
      slowPath (fun _ => some ()) 3 1 (fun _ => oneCompletion) demoSlot [48] = some out :=
  (poll_paths_agree_iff (fun _ => some ()) none 3 1 (fun _ => oneCompletion) demoSlot ()
    (by decide) rfl ⟨[48],by simp,by decide⟩).mpr (by decide)

/-- The driver returns -1. Over the socket the client returns 0. In the slot
the response size becomes -48 while the loop leaves the slot; a client that
reads this size returns -1. -/
theorem poll_error_differs :
    slowPath (fun _ => some ()) 3 1 (fun _ => pollError) demoSlot [] = some (0,[]) ∧
    fastPath (fun _ => some ()) 3 1 (fun _ => pollError) demoSlot none = none ∧
    loopRspSize (-1) = -48 ∧ clientPoll ⟨-48,demoSlot.wcList⟩ = some (-1,[]) :=
  ⟨by decide,by decide,by decide,by decide⟩

end FreeFlow.PollPaths
