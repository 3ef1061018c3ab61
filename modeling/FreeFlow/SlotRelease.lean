import FreeFlow.PollPaths

/-!
# What a call leaves of its slot and its locks

The three posts and the poll as the actions that matter to the next caller:
taking and releasing locks, waiting for the router in the slot, and storing
`IDLE`. A post ends in the same way whatever the response says. A poll whose
`rsp_size` is no multiple of the size of a completion leaves early: it
releases the mutex of the slot and nothing else. The size that the router
computes when `ibv_poll_cq` fails is such a size.

A call has no actions where it does not return: when the walk for `bad_wr`
runs off the list, and when the completions do not lie in the slot. The entry
of `map_cq_to_srq` is read anew at the end of a poll; other threads may have
written it.
-/

set_option autoImplicit false

namespace FreeFlow.SlotRelease

open Mailbox (Flag)
open MachineIntegers (toInt toSizeT)
open Wire

inductive Lock
  | qpMutex (handle : ℕ)
  | cqMutex (handle : ℕ)
  | headLock (srq : ℕ)
  | tailLock (srq : ℕ)
  | sockMutex
  deriving DecidableEq

inductive Action
  | lock (l : Lock)
  | unlock (l : Lock)
  /-- `request_router_shm`, which returns at `RSP_DONE`. -/
  | await
  | reset
  deriving DecidableEq

/-- The state word of the slot and the locks the call holds. -/
structure World where
  flag : Flag
  held : List Lock
  deriving DecidableEq

def act (w : World) : Action → World
  | .lock l => {w with held := l::w.held}
  | .unlock l => {w with held := w.held.erase l}
  | .await => {w with flag := .answered}
  | .reset => {w with flag := .idle}

/-- The words of a response that the calls read. -/
structure Response where
  badWr : ℕ
  retErrno : ℤ
  rspSize : ℤ

/-- The request over the slot or, with `DISABLE_FASTPATH`, over a socket of
its own, for which only the connecting takes the lock. -/
def ask (fast : Bool) : List Action :=
  if fast then [.await] else [.lock .sockMutex,.unlock .sockMutex]

/-- A post of `n` requests under the lock `l`. -/
def post (l : Lock) (n : ℕ) (fast : Bool) (rsp : Response) : Option (List Action × ℤ) :=
  if rsp.badWr ≤ n+1 then some (.lock l::ask fast++[.reset,.unlock l],rsp.retErrno)
  else none

def ibvCmdPostSend (qpHandle n : ℕ) (fast : Bool) (rsp : Response) : Option (List Action × ℤ) :=
  post (.qpMutex qpHandle) n fast rsp

def ibvCmdPostRecv (qpHandle n : ℕ) (fast : Bool) (rsp : Response) : Option (List Action × ℤ) :=
  post (.qpMutex qpHandle) n fast rsp

def ibvCmdPostSrqRecv (srqHandle n : ℕ) (fast : Bool) (rsp : Response) : Option (List Action × ℤ) :=
  post (.headLock srqHandle) n fast rsp

/-- The lock or unlock of the receive ring, if the CQ belongs to an SRQ. -/
def onSrq (srq : ℕ) (a : Lock → Action) : List Action :=
  if srq ≤ mapSize then [a (.tailLock srq)] else []

/-- A poll; `srq` and `srq'` are the entry of `map_cq_to_srq` at its start and
at its end. -/
def ibvCmdPollCq (cqHandle srq srq' : ℕ) (fast : Bool) (rsp : Response) : Option (List Action × ℤ) :=
  let size := toSizeT rsp.rspSize
  let asked := .lock (.cqMutex cqHandle)::(onSrq srq .lock++ask fast)
  if size%sizeofWc ≠ 0 then some (asked++[.unlock (.cqMutex cqHandle)],-1)
  else if sizeofResponseHeader+size ≤ ctrlRspSize then
    some (asked++(.reset::onSrq srq' .unlock++[.unlock (.cqMutex cqHandle)]),
      toInt ((size/sizeofWc : ℕ) : ℤ))
  else none

inductive Call
  | postSend (qpHandle n : ℕ)
  | postRecv (qpHandle n : ℕ)
  | postSrqRecv (srqHandle n : ℕ)
  | pollCq (cqHandle srq srq' : ℕ)

/-- The actions of a call and what it returns. -/
def Call.run : Call → Bool → Response → Option (List Action × ℤ)
  | .postSend h n => ibvCmdPostSend h n
  | .postRecv h n => ibvCmdPostRecv h n
  | .postSrqRecv h n => ibvCmdPostSrqRecv h n
  | .pollCq h srq srq' => ibvCmdPollCq h srq srq'

/-- What the actions of a call leave, from any state of the slot. -/
def leave (flag : Flag) (actions : List Action) : World := actions.foldl act ⟨flag,[]⟩

def Ready (w : World) : Prop := w.flag = .idle ∧ w.held = []

instance (w : World) : Decidable (Ready w) := inferInstanceAs (Decidable (_ ∧ _))

/-- The condition for a poll: a whole number of completions, and the SRQ is
still the one whose lock was taken; or a broken size that came over the
socket, for a CQ without an SRQ. -/
def Call.Sound : Call → Bool → Flag → Response → Prop
  | .pollCq _ srq srq', fast, flag, rsp =>
    if toSizeT rsp.rspSize%sizeofWc = 0 then srq ≤ mapSize → srq' = srq
    else fast = false ∧ flag = .idle ∧ mapSize < srq
  | _, _, _, _ => True

theorem leave_post (l : Lock) (n : ℕ) (fast : Bool) (rsp : Response) (flag : Flag)
    (actions : List Action) (ret : ℤ) (h : post l n fast rsp = some (actions,ret)) : Ready (leave flag actions) := by
  unfold post at h
  split at h
  · obtain ⟨rfl,rfl⟩ := Prod.mk.inj (Option.some.inj h)
    cases fast <;> simp [leave,ask,act,Ready]
  · exact absurd h (by simp)

/-- The locks of a poll while the router is asked. -/
def pollLocks (cqHandle srq : ℕ) : List Lock :=
  if srq ≤ mapSize then [.tailLock srq,.cqMutex cqHandle] else [.cqMutex cqHandle]

theorem leave_asked (cqHandle srq : ℕ) (fast : Bool) (flag : Flag) :
    leave flag (.lock (.cqMutex cqHandle)::(onSrq srq .lock++ask fast)) =
      ⟨if fast then .answered else flag,pollLocks cqHandle srq⟩ := by
  by_cases hsrq : srq ≤ mapSize
  · cases fast <;> simp [leave,onSrq,ask,act,pollLocks,hsrq]
  · cases fast <;> simp [leave,onSrq,ask,act,pollLocks,hsrq]

theorem leave_append (flag : Flag) (xs ys : List Action) :
    leave flag (xs++ys) = ys.foldl act (leave flag xs) := List.foldl_append

/-- The end of a poll that has found whole completions. -/
theorem act_completed (cqHandle srq' : ℕ) (w : World) :
    (Action.reset::(onSrq srq' .unlock++[.unlock (.cqMutex cqHandle)])).foldl act w =
      ⟨.idle,(if srq' ≤ mapSize then w.held.erase (.tailLock srq') else w.held).erase
        (.cqMutex cqHandle)⟩ := by
  by_cases hsrq' : srq' ≤ mapSize
  · simp [onSrq,act,hsrq']
  · simp [onSrq,act,hsrq']

theorem released_iff (cqHandle srq srq' : ℕ) :
    (if srq' ≤ mapSize then (pollLocks cqHandle srq).erase (.tailLock srq')
      else pollLocks cqHandle srq).erase (.cqMutex cqHandle) = [] ↔
    (srq ≤ mapSize → srq' = srq) := by
  unfold pollLocks
  by_cases hsrq : srq ≤ mapSize
  · by_cases hsame : srq' = srq
    · simp [hsrq,hsame]
    · by_cases hsrq' : srq' ≤ mapSize
      · simp [hsrq,hsrq',hsame,Ne.symm hsame]
      · simp [hsrq,hsrq',hsame]
  · by_cases hsrq' : srq' ≤ mapSize
    · simp [hsrq,hsrq']
    · simp [hsrq,hsrq']

theorem leave_poll_iff (cqHandle srq srq' : ℕ) (fast : Bool) (rsp : Response) (flag : Flag)
    (actions : List Action) (ret : ℤ)
    (h : ibvCmdPollCq cqHandle srq srq' fast rsp = some (actions,ret)) :
    Ready (leave flag actions) ↔ (Call.pollCq cqHandle srq srq').Sound fast flag rsp := by
  unfold ibvCmdPollCq at h
  simp only [Call.Sound]
  by_cases hsize : toSizeT rsp.rspSize%sizeofWc = 0
  · simp only [hsize,ne_eq,not_true_eq_false,if_false] at h
    split at h
    · obtain ⟨rfl,rfl⟩ := Prod.mk.inj (Option.some.inj h)
      rw [leave_append,leave_asked,List.cons_append,act_completed,if_pos hsize,Ready,
        ← released_iff cqHandle srq srq']
      exact and_iff_right rfl
    · exact absurd h (by simp)
  · simp only [hsize,ne_eq,not_false_eq_true,if_true,Option.some.injEq,Prod.mk.injEq] at h
    obtain ⟨rfl,rfl⟩ := h
    rw [leave_append,leave_asked,if_neg hsize]
    by_cases hsrq : srq ≤ mapSize
    · simp [Ready,act,pollLocks,hsrq]
    · cases fast <;> simp [Ready,act,pollLocks,hsrq,Nat.lt_of_not_le hsrq]

/-- From every state of the slot and for every response, a call that returns
leaves the slot idle and has released its locks exactly when it is a post or
a sound poll. -/
theorem call_releases_iff (c : Call) (fast : Bool) (flag : Flag) (rsp : Response)
    (actions : List Action) (ret : ℤ) (h : c.run fast rsp = some (actions,ret)) :
    Ready (leave flag actions) ↔ c.Sound fast flag rsp := by
  cases c with
  | postSend qpHandle n => exact iff_of_true (leave_post _ n fast rsp flag actions ret h) trivial
  | postRecv qpHandle n => exact iff_of_true (leave_post _ n fast rsp flag actions ret h) trivial
  | postSrqRecv srqHandle n => exact iff_of_true (leave_post _ n fast rsp flag actions ret h) trivial
  | pollCq cqHandle srq srq' => exact leave_poll_iff cqHandle srq srq' fast rsp flag actions ret h

/-- One completion for a CQ with the SRQ 2. -/
theorem poll_releases : Ready (leave .idle
    ([.lock (.cqMutex 3),.lock (.tailLock 2),.await]++
      [.reset,.unlock (.tailLock 2),.unlock (.cqMutex 3)])) :=
  (call_releases_iff (.pollCq 3 2 2) true .idle ⟨0,0,48⟩ _ 1 (by decide)).mpr (fun _ => rfl)

/-- The response has the size of a failed `ibv_poll_cq`, -48: the slot keeps it
and the ring of the SRQ stays locked. -/
theorem failed_poll_keeps_lock : ∃ actions,
    (Call.pollCq 3 2 2).run true ⟨0,0,PollPaths.loopRspSize (-1)⟩ = some (actions,-1) ∧
      leave .idle actions = ⟨.answered,[.tailLock 2]⟩ :=
  ⟨[.lock (.cqMutex 3),.lock (.tailLock 2),.await,.unlock (.cqMutex 3)],by decide,by decide⟩

end FreeFlow.SlotRelease
