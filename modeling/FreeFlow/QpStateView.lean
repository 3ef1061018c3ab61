import FreeFlow.Runs
import Mathlib.Data.Nat.Notation

/-!
# The client's view of the QP state

`qp->state` in the client's library follows the calls `ibv_modify_qp` and `ibv_query_qp`;
the QP itself is in the router's device. A modify sends its attributes to the router
and stores the requested state before it looks at the result. A query stores what the
response holds and never looks at `ret_errno`; the response of a query that failed in
the kernel is what the router's buffer held before.

A driver accepts a modify only to a state of the enumeration. When it rejects one the
QP stays in its state, and a query that succeeds reports the state of the QP.
-/

set_option autoImplicit false

namespace FreeFlow.QpStateView

open Runs

inductive QpState
  | reset
  | init
  | rtr
  | rts
  | sqd
  | sqe
  | err
  | unknown
  deriving DecidableEq

def QpState.code (q : QpState) : BitVec 32 := BitVec.ofNat 32 q.ctorIdx

def QpState.all : List QpState := [.reset,.init,.rtr,.rts,.sqd,.sqe,.err,.unknown]

def QpState.ofCode (v : BitVec 32) : Option QpState := all.find? fun q => q.code == v

theorem code_of_ofCode (v : BitVec 32) (q : QpState) (h : QpState.ofCode v = some q) : q.code = v := by
  simpa using List.find?_some h

/-- A response carries the state in a byte. -/
theorem code_byte (q : QpState) : (q.code.setWidth 8).setWidth 32 = q.code := by
  cases q <;> decide

def ibvQpState : BitVec 32 := 1#32<<<0

def ibvQpPort : BitVec 32 := 1#32<<<5

def has (attrMask flag : BitVec 32) : Bool := attrMask&&&flag != 0#32

/-- A modify with a port is given up when the port cannot be queried; `portRet` is what
`update_port_data` returns. -/
def portFails (attrMask portRet : BitVec 32) : Bool := has attrMask ibvQpPort && portRet != 0#32

/-- The state the client has and the state the QP has in the router's device. -/
structure System where
  client : BitVec 32
  device : QpState
  deriving DecidableEq

structure QueryQpResp where
  qpState : BitVec 8
  curQpState : BitVec 8

structure QueryQpRsp where
  retErrno : BitVec 32
  resp : QueryQpResp

section Calls

variable (s : System)

/-- The router on `IBV_MODIFY_QP`; `ret` is what the driver returns. -/
def modifyQpRequest (device : QpState) (qpState attrMask ret : BitVec 32) :
    Option (QpState × BitVec 32) :=
  if ret ≠ 0#32 then some (device,ret)
  else if has attrMask ibvQpState then (QpState.ofCode qpState).map fun q => (q,0#32)
  else some (device,0#32)

def ibvCmdModifyQp (qpState attrMask ret : BitVec 32) : Option (System × BitVec 32) :=
  (modifyQpRequest s.device qpState attrMask ret).map fun (device,rspRet) =>
    (⟨if has attrMask ibvQpState then qpState else s.client,device⟩,rspRet)

def mlx4ModifyQp (qpState attrMask portRet ret : BitVec 32) : Option (System × BitVec 32) :=
  if portFails attrMask portRet then some (s,portRet)
  else ibvCmdModifyQp s qpState attrMask ret

def ibvModifyQp (qpState attrMask portRet ret : BitVec 32) : Option (System × BitVec 32) :=
  (mlx4ModifyQp s qpState attrMask portRet ret).map fun (t,r) =>
    if r ≠ 0#32 then (t,r)
    else ({t with client := if has attrMask ibvQpState then qpState else t.client},0#32)

/-- The write to the device succeeds, or it fails with an `errno` and the response stays as
the buffer was. -/
def ibvCmdQueryQpResp (device : QpState) (errno : Option (BitVec 32)) (buffer : QueryQpResp) :
    QueryQpRsp :=
  match errno with
  | none => ⟨0#32,⟨device.code.setWidth 8,device.code.setWidth 8⟩⟩
  | some e => ⟨e,buffer⟩

/-- The attributes `qp_state` and `cur_qp_state` for the caller come with the new state. -/
def ibvCmdQueryQp (rsp : QueryQpRsp) : System × BitVec 32 × BitVec 32 :=
  let qpState := rsp.resp.qpState.setWidth 32
  let curQpState := rsp.resp.curQpState.setWidth 32
  ({s with client := curQpState},qpState,curQpState)

def ibvQueryQp (attrMask : BitVec 32) (errno : Option (BitVec 32)) (buffer : QueryQpResp) :
    System × BitVec 32 :=
  let (t,qpState,_) := ibvCmdQueryQp s (ibvCmdQueryQpResp s.device errno buffer)
  if has attrMask ibvQpState then ({t with client := qpState},0#32) else (t,0#32)

end Calls

inductive Event
  | modify (qpState attrMask portRet ret : BitVec 32)
  | query (attrMask : BitVec 32) (errno : Option (BitVec 32)) (buffer : QueryQpResp)

def step (s : System) : Event → Option System
  | .modify qpState attrMask portRet ret => (ibvModifyQp s qpState attrMask portRet ret).map Prod.fst
  | .query attrMask errno buffer => some (ibvQueryQp s attrMask errno buffer).1

def Agree (s : System) : Prop := s.client = s.device.code

instance (s : System) : Decidable (Agree s) := inferInstanceAs (Decidable (_ = _))

def Rejected : Event → Prop
  | .modify _ attrMask portRet ret => portFails attrMask portRet ∨ ret ≠ 0#32
  | .query _ errno _ => errno ≠ none

/-- The call keeps the states equal, and if it is rejected it leaves the client's alone. -/
def Kept (s : System) (e : Event) : Prop :=
  Agree s → ∀ t, step s e = some t → Agree t ∧ (Rejected e → t.client = s.client)

/-- A rejected modify asked for the state the QP has, or for no state, or was not sent; the
buffer of a rejected query held the state the QP has. -/
def Harmless (s : System) : Event → Prop
  | .modify qpState attrMask portRet ret =>
    portFails attrMask portRet ∨ ret = 0#32 ∨ has attrMask ibvQpState = false ∨
      qpState = s.device.code
  | .query attrMask errno buffer => errno = none ∨
    (if has attrMask ibvQpState then buffer.qpState else buffer.curQpState).setWidth 32 = s.device.code

/-- What a modify does to the two states. -/
theorem step_modify (s t : System) (qpState attrMask portRet ret : BitVec 32)
    (h : step s (.modify qpState attrMask portRet ret) = some t) :
    (portFails attrMask portRet ∧ t = s) ∨
      (¬portFails attrMask portRet ∧
        t.client = (if has attrMask ibvQpState then qpState else s.client) ∧
        if ret = 0#32 ∧ has attrMask ibvQpState then t.device.code = qpState else t.device = s.device) := by
  simp only [step,ibvModifyQp,mlx4ModifyQp,Option.map_map,Option.map_eq_some_iff] at h
  by_cases hport : portFails attrMask portRet
  · rw [if_pos hport] at h
    obtain ⟨out,hout,rfl⟩ := h
    obtain rfl := Option.some.inj hout
    have hret : portRet ≠ 0#32 := by simpa using (Bool.and_eq_true_iff.mp hport).2
    exact .inl ⟨hport,by simp [hret]⟩
  · rw [if_neg hport] at h
    obtain ⟨out,hout,rfl⟩ := h
    refine .inr ⟨hport,?_⟩
    obtain ⟨⟨device,rspRet⟩,hrequest,rfl⟩ := Option.map_eq_some_iff.mp hout
    simp only [modifyQpRequest] at hrequest
    by_cases hret : ret = 0#32
    · by_cases hstate : has attrMask ibvQpState
      · rw [if_neg (not_not.mpr hret),if_pos hstate] at hrequest
        obtain ⟨q,hq,hpair⟩ := Option.map_eq_some_iff.mp hrequest
        obtain ⟨rfl,rfl⟩ := Prod.mk.inj hpair
        simp [hret,hstate,code_of_ofCode qpState q hq]
      · rw [if_neg (not_not.mpr hret),if_neg hstate] at hrequest
        obtain ⟨rfl,rfl⟩ := Prod.mk.inj (Option.some.inj hrequest)
        simp [hstate]
    · rw [if_pos hret] at hrequest
      obtain ⟨rfl,rfl⟩ := Prod.mk.inj (Option.some.inj hrequest)
      simp [hret]

theorem step_query (s : System) (attrMask : BitVec 32) (errno : Option (BitVec 32))
    (buffer : QueryQpResp) :
    step s (.query attrMask errno buffer) = some ⟨match errno with
      | none => s.device.code
      | some _ => (if has attrMask ibvQpState then buffer.qpState else buffer.curQpState).setWidth 32,
      s.device⟩ := by
  cases errno <;> by_cases hstate : has attrMask ibvQpState <;>
    simp [step,ibvQueryQp,ibvCmdQueryQp,ibvCmdQueryQpResp,hstate,code_byte]

theorem kept_modify_iff (s : System) (hs : Agree s) (qpState attrMask portRet ret : BitVec 32) :
    (∀ t, step s (.modify qpState attrMask portRet ret) = some t →
      Agree t ∧ (Rejected (.modify qpState attrMask portRet ret) → t.client = s.client)) ↔
      Harmless s (.modify qpState attrMask portRet ret) := by
  constructor
  · intro hkept
    by_cases hport : portFails attrMask portRet
    · exact .inl hport
    · by_cases hret : ret = 0#32
      · exact .inr (.inl hret)
      · by_cases hstate : has attrMask ibvQpState
        · -- the rejected modify is answered, and the client shows the requested state
          have hstep : step s (.modify qpState attrMask portRet ret) = some ⟨qpState,s.device⟩ := by
            simp [step,ibvModifyQp,mlx4ModifyQp,hport,ibvCmdModifyQp,modifyQpRequest,hret,hstate]
          exact .inr (.inr (.inr (hkept _ hstep).1))
        · exact .inr (.inr (.inl (by simpa using hstate)))
  · intro hharmless t ht
    rcases step_modify s t qpState attrMask portRet ret ht with ⟨-,rfl⟩ | ⟨hport,hclient,hdevice⟩
    · exact ⟨hs,fun _ => rfl⟩
    · by_cases haccepted : ret = 0#32 ∧ has attrMask ibvQpState
      · rw [if_pos haccepted] at hdevice
        refine ⟨?_,fun hrejected => ?_⟩
        · rw [Agree,hclient,if_pos haccepted.2,hdevice]
        · exact absurd haccepted.1 (hrejected.resolve_left hport)
      · rw [if_neg haccepted] at hdevice
        have hsame : t.client = s.client := by
          rw [hclient]
          rcases hharmless with hp | hret | hstate | heq
          · exact absurd hp hport
          · exact if_neg fun hstate => haccepted ⟨hret,hstate⟩
          · rw [hstate]
            rfl
          · rw [heq,← hs,ite_self]
        exact ⟨by rw [Agree,hsame,hdevice,hs],fun _ => hsame⟩

theorem kept_query_iff (s : System) (hs : Agree s) (attrMask : BitVec 32) (errno : Option (BitVec 32))
    (buffer : QueryQpResp) :
    (∀ t, step s (.query attrMask errno buffer) = some t →
      Agree t ∧ (Rejected (.query attrMask errno buffer) → t.client = s.client)) ↔
      Harmless s (.query attrMask errno buffer) := by
  rw [step_query]
  constructor
  · intro hkept
    obtain ⟨hagree,-⟩ := hkept _ rfl
    cases errno with
    | none => exact .inl rfl
    | some e => exact .inr hagree
  · intro hharmless t ht
    obtain rfl := Option.some.inj ht
    cases errno with
    | none => exact ⟨rfl,fun hrejected => absurd rfl hrejected⟩
    | some e =>
      have hbuffer := hharmless.resolve_left (by simp)
      exact ⟨hbuffer,fun _ => hbuffer.trans hs.symm⟩

theorem kept_iff (s : System) (e : Event) : Kept s e ↔ (Agree s → Harmless s e) := by
  refine forall_congr' fun hs => ?_
  cases e with
  | modify qpState attrMask portRet ret => exact kept_modify_iff s hs qpState attrMask portRet ret
  | query attrMask errno buffer => exact kept_query_iff s hs attrMask errno buffer

/-- In every sequence of modifies and queries with any masks, requested states and results,
each call keeps the client's state equal to the device's, and unchanged if it is rejected,
exactly when no rejected call brings in another state: a modify the one it asked for, a query
the one in the buffer. -/
theorem states_agree_iff (s : System) (events : List Event) :
    Along step Kept s events ↔ Along step (fun s e => Agree s → Harmless s e) s events :=
  along_iff step Kept _ (fun _ => True) (fun s e _ => kept_iff s e) (fun _ _ _ _ _ _ => trivial) s events
    trivial

def created : System := ⟨QpState.reset.code,.reset⟩

/-- The driver rejects the step of a new QP to RTR with `EINVAL`; the client has a QP in RTR. -/
theorem rejected_rtr_shown :
    Agree created ∧
      step created (.modify QpState.rtr.code ibvQpState 0#32 22#32) = some ⟨QpState.rtr.code,.reset⟩ ∧
      ¬Along step Kept created [.modify QpState.rtr.code ibvQpState 0#32 22#32] := by
  refine ⟨rfl,rfl,fun hkept => ?_⟩
  exact absurd (hkept.1 rfl _ rfl).1 (by decide)

end FreeFlow.QpStateView
