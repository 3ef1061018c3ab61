import FreeFlow.BadWr

/-!
# Remote addresses of posted requests

Five opcodes name remote memory: the two RDMA writes, the RDMA read and the
two atomic operations. The router translates the addresses of the first three
with the entry of `rkey_mr_shm` under the rkey. For an rkey without an entry
the control loop tries again until a counter that the whole batch shares has
passed 4, and `HandleRequest` does not wait; both then go on and post the
request as it is. Atomic requests are never translated; their rkey stands
behind the two operands, at offset 64.

On a UD queue pair the pointer to the address handle is stored over the
remote address.
-/

set_option autoImplicit false

namespace FreeFlow.OneSidedSends

open BadWr (Rsp)
open PostSend
open RemoteMapping (MrShm)

/-- The loop of `CtrlChannelLoop` for one request: the address and the
counter afterwards. -/
def retry (rkeyMrShm : ℕ → Option MrShm) (rkey : ℕ) (addr : BitVec 64) (count : ℕ) :
    BitVec 64 × ℕ :=
  match rkeyMrShm rkey with
  | some e => (e.shmPtr+addr-e.mrPtr,count)
  | none => if 4 < count then (addr,count) else retry rkeyMrShm rkey addr (count+1)
termination_by 5-count

/-- The counter decides how often the loop looks, not what comes out. -/
theorem retry_addr (rkeyMrShm : ℕ → Option MrShm) (rkey : ℕ) (addr : BitVec 64) (count : ℕ) :
    (retry rkeyMrShm rkey addr count).1 = RemoteMapping.translate rkeyMrShm rkey addr := by
  fun_induction retry rkeyMrShm rkey addr count with
  | case1 count e he => simp [RemoteMapping.translate,he]
  | case2 count hnone hgiveup => simp [RemoteMapping.translate,hnone]
  | case3 count hnone hmore ih => exact ih

section ControlLoop

variable (r : Router)

/-- The remote address of a request of the control loop, and the counter. -/
def fixRemoteRetry (mem : ℕ → ℕ) (wr tries : ℕ) : (ℕ → ℕ) × ℕ :=
  if OneSided (mem (wr+28)) then
    let out := retry r.rkeyMrShm (mem (wr+48)) (BitVec.ofNat 64 (mem (wr+40))) tries
    (Function.update mem (wr+40) out.1.toNat,out.2)
  else (mem,tries)

theorem fixRemoteRetry_mem (mem : ℕ → ℕ) (wr tries : ℕ) :
    (fixRemoteRetry r mem wr tries).1 = fixRemote r mem wr := by
  unfold fixRemoteRetry fixRemote
  split
  · simp only [retry_addr,remoteAddr]
  · rfl

/-- The rounds of `CtrlChannelLoop` with the counter of the batch. -/
def ctrlFixWrs (b : Buffer) (ud : Bool) (count : ℕ) : ℕ → ℕ → Cursor → ℕ → Option Cursor
  | 0, _, c, _ => some c
  | n+1, i, c, tries =>
    let fixed := fixRemoteRetry r c.mem (32+128*i) tries
    (finishWr r noWait 0 ud i c (linkWr b count i c.sge fixed.1)).bind fun c =>
      ctrlFixWrs b ud count n (i+1) c fixed.2

/-- What the control loop hands to `ibv_post_send`, with its retries. -/
def ctrlChannelLoop (b : Buffer) (mem : ℕ → ℕ) : Option (List PostedWr) :=
  let count := mem 20
  let s := 32+128*count
  (ctrlFixWrs r b (r.ud (mem 16)) count count 0 ⟨mem,s,s+16*mem 24,[]⟩ 0).bind fun c =>
    chain b c.mem (count+1) (b.addr+32)

theorem ctrlFixWrs_eq (b : Buffer) (ud : Bool) (count n i : ℕ) (c : Cursor) (tries : ℕ) :
    ctrlFixWrs r b ud count n i c tries = fixWrs r noWait 0 b ud count n i c := by
  induction n generalizing i c tries with
  | zero => rfl
  | succ n ih =>
    simp only [ctrlFixWrs,fixWrs,ih]
    rw [fixRemoteRetry_mem]
    rfl

/-- The retries change nothing in what is handed over. -/
theorem ctrlChannelLoop_eq (b : Buffer) (mem : ℕ → ℕ) :
    ctrlChannelLoop r b mem = fastPath r b mem := by
  simp only [ctrlChannelLoop,ctrlFixWrs_eq]
  rfl

end ControlLoop

/-- `IBV_WR_ATOMIC_CMP_AND_SWP` and `IBV_WR_ATOMIC_FETCH_AND_ADD`. -/
def Atomic (opcode : ℕ) : Prop := opcode = 5 ∨ opcode = 6

instance (opcode : ℕ) : Decidable (Atomic opcode) := inferInstanceAs (Decidable (_ ∨ _))

def NamesRemote (w : SendWr) : Prop := OneSided (w.cells 28) ∨ Atomic (w.cells 28)

instance (w : SendWr) : Decidable (NamesRemote w) := inferInstanceAs (Decidable (_ ∨ _))

/-- `wr.rdma.rkey` or `wr.atomic.rkey`. -/
def rkey (w : SendWr) : ℕ := if Atomic (w.cells 28) then w.cells 64 else w.cells 48

/-- `shm_ptr + remote_addr - mr_ptr`. -/
def moved (e : MrShm) (w : SendWr) : ℕ :=
  (e.shmPtr+BitVec.ofNat 64 (w.cells 40)-e.mrPtr).toNat

/-- The rkey has an entry, and what is posted is the translated address: on a
UD queue pair the pointer to the address handle, otherwise for an atomic
request the address itself. -/
def Ready (r : Router) (ud : Bool) (w : SendWr) (ah : ℕ) : Prop :=
  NamesRemote w → ∃ e, r.rkeyMrShm (rkey w) = some e ∧
    (if ud then r.ahMap ah = moved e w else Atomic (w.cells 28) → e.shmPtr = e.mrPtr)

end FreeFlow.OneSidedSends
