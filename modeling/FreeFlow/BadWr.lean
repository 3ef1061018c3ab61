import FreeFlow.PostSend

/-!
# The first rejected request of a batch

The driver points at the first request it rejects. The router sends the index
of that request in its own array, which starts at 0, and the client follows
its list by one step less than the number it receives. Zero stands for the
first request and for no rejected request; the client tells them apart by the
return value.

The two paths of the router compute the same response. `ibv_send_wr` has 128
bytes and `ibv_recv_wr` has 32; the array follows 32 bytes of command.
-/

set_option autoImplicit false

namespace FreeFlow.BadWr

open CellRecords
open PostSend (Buffer demoBuffer)

inductive Call
  | postSend
  | postRecv
  | postSrqRecv

def Call.wrSize : Call → ℕ
  | .postSend => 128
  | .postRecv => 32
  | .postSrqRecv => 32

/-- `ret_errno` and `bad_wr` of `IBV_POST_SEND_RSP`, `IBV_POST_RECV_RSP` and
`IBV_POST_SRQ_RECV_RSP`. -/
structure Rsp where
  retErrno : BitVec 32
  badWr : ℕ

def enomem : BitVec 32 := 12

/-- `bad_wr - wr`, stored in a `uint32_t`. -/
def badIndex (size wr bad : ℕ) : ℕ := (bad-wr)/size%2^32

/-- The requests the loop over the array has gone through. -/
def wrSuccess (count : ℕ) : ℕ := count%2^32

def routerPostSend (wr count : ℕ) (ret : BitVec 32) (bad : ℕ) : Rsp :=
  if bad = 0 then
    if count%2^32 = wrSuccess count then ⟨ret,0⟩
    else ⟨enomem,(count%2^32+2^32-wrSuccess count)%2^32⟩
  else ⟨ret,badIndex 128 wr bad⟩

def routerRecvRsp (wr : ℕ) (ret : BitVec 32) (bad : ℕ) : Rsp :=
  ⟨ret,if bad = 0 then 0 else badIndex 32 wr bad⟩

def routerPostRecv (wr : ℕ) (ret : BitVec 32) (bad : ℕ) : Rsp := routerRecvRsp wr ret bad

def routerPostSrqRecv (wr : ℕ) (ret : BitVec 32) (bad : ℕ) : Rsp := routerRecvRsp wr ret bad

/-- What the driver returned for the array at `wr`, and the pointer it left in
`bad_wr`. -/
def Call.router : Call → ℕ → ℕ → BitVec 32 → ℕ → Rsp
  | .postSend => routerPostSend
  | .postRecv => fun wr _ => routerPostRecv wr
  | .postSrqRecv => fun wr _ => routerPostSrqRecv wr

/-- The return value and `*bad_wr` of the client call; `wr` is the first
request of the application's list and `old` what `*bad_wr` held. -/
def clientResult (next : ℕ → ℕ) (wr old : ℕ) (rsp : Rsp) : BitVec 32 × ℕ :=
  if rsp.badWr ≠ 0 then (rsp.retErrno,next^[rsp.badWr-1] wr)
  else if rsp.retErrno ≠ 0 then (rsp.retErrno,wr)
  else (rsp.retErrno,old)

/-- The driver accepts the requests before number `k` and points at that
one. -/
def Call.rejectedAt (call : Call) (next : ℕ → ℕ) (wr old count : ℕ) (b : Buffer)
    (ret : BitVec 32) (k : ℕ) : BitVec 32 × ℕ :=
  clientResult next wr old
    (call.router (b.addr+32) count ret (b.addr+32+call.wrSize*k))

theorem badIndex_of_element (call : Call) (wr k : ℕ) :
    badIndex call.wrSize wr (wr+call.wrSize*k) = k%2^32 := by
  have hsize : 0 < call.wrSize := by cases call <;> decide
  rw [badIndex,Nat.add_sub_cancel_left,Nat.mul_div_cancel_left k hsize]

theorem router_of_rejected (call : Call) (count : ℕ) (b : Buffer) (ret : BitVec 32) (k : ℕ) :
    call.router (b.addr+32) count ret (b.addr+32+call.wrSize*k) = ⟨ret,k%2^32⟩ := by
  have hnonnull : b.addr+32+call.wrSize*k ≠ 0 := by omega
  have hindex := badIndex_of_element call (b.addr+32) k
  cases call with
  | postSend => exact (if_neg hnonnull).trans (congrArg (Rsp.mk ret) hindex)
  | postRecv => exact congrArg (Rsp.mk ret) ((if_neg hnonnull).trans hindex)
  | postSrqRecv => exact congrArg (Rsp.mk ret) ((if_neg hnonnull).trans hindex)

theorem clientResult_zero (next : ℕ → ℕ) (wr old : ℕ) (ret : BitVec 32) (hret : ret ≠ 0) :
    clientResult next wr old ⟨ret,0⟩ = (ret,wr) := if_pos hret

theorem clientResult_pos (next : ℕ → ℕ) (wr old : ℕ) (ret : BitVec 32) (n : ℕ) (hn : n ≠ 0) :
    clientResult next wr old ⟨ret,n⟩ = (ret,next^[n-1] wr) := if_pos hn

/-- A rejected list is reported with a non-zero return value and the rejected
request exactly when that is the first request of the list. -/
theorem bad_wr_iff (call : Call) (next : ℕ → ℕ) (fuel wr : ℕ) (ps : List ℕ)
    (hlist : walk next fuel wr = some ps) (k p : ℕ) (hk : ps[k]? = some p) (old : ℕ) (b : Buffer)
    (ret : BitVec 32) (hret : ret ≠ 0) :
    (call.rejectedAt next wr old ps.length b ret k).1 ≠ 0 ∧
        (call.rejectedAt next wr old ps.length b ret k).2 = p ↔ k = 0 := by
  have hlt : k < ps.length := (List.getElem?_eq_some_iff.mp hk).1
  have hp : next^[k] wr = p := walk_get next fuel wr ps k p hlist hk
  rw [Call.rejectedAt,router_of_rejected,← hp]
  constructor
  · rintro ⟨-,hbad⟩
    by_contra hpos
    -- the index the client reads is at most `k`, and it goes one step less
    have hmod := Nat.mod_le k (2^32)
    by_cases hzero : k%2^32 = 0
    · rw [hzero,clientResult_zero _ _ _ _ hret] at hbad
      exact walk_iterate_ne next fuel wr ps 0 k hlist hlt.le (by omega) hbad
    · rw [clientResult_pos _ _ _ _ _ hzero] at hbad
      exact walk_iterate_ne next fuel wr ps (k%2^32-1) k hlist hlt.le (by omega) hbad
  · rintro rfl
    rw [Nat.zero_mod,clientResult_zero _ _ _ _ hret]
    exact ⟨hret,rfl⟩

/-- Requests at the addresses 64 and 128. -/
def twoRequests : ℕ → ℕ := fun p => if p = 64 then 128 else 0

theorem first_request_reported :
    (Call.postRecv.rejectedAt twoRequests 64 0 2 demoBuffer enomem 0).1 ≠ 0 ∧
      (Call.postRecv.rejectedAt twoRequests 64 0 2 demoBuffer enomem 0).2 = 64 :=
  (bad_wr_iff .postRecv twoRequests 3 64 [64,128] (by decide) 0 64 rfl 0 demoBuffer enomem
    (by decide)).mpr rfl

/-- The driver rejects the second of two requests; the client reports the
first. -/
theorem second_request_misreported :
    walk twoRequests 3 64 = some [64,128] ∧
    Call.postSend.rejectedAt twoRequests 64 0 2 demoBuffer enomem 1 = (enomem,64) ∧
    Call.postRecv.rejectedAt twoRequests 64 0 2 demoBuffer enomem 1 = (enomem,64) ∧
    Call.postSrqRecv.rejectedAt twoRequests 64 0 2 demoBuffer enomem 1 = (enomem,64) := by
  decide

end FreeFlow.BadWr
