import FreeFlow.Runs
import FreeFlow.Wire

/-!
# The SRQ of a new queue pair

`ibv_cmd_create_qp` and `ibv_exp_cmd_create_qp` send the handle of the SRQ, or
0 when there is none. The router looks the handle up in `srq_map` in either
case. The table is shared by all clients: creating an SRQ stores it under the
handle the driver gave it, also when that is 0, and destroying one clears the
entry before the driver has agreed.

The threads of the clients interleave between the lookup of a destroy request
and its store. An index of `MAP_SIZE` or more reads and writes what lies
behind the table, which other requests change as they like.
-/

set_option autoImplicit false

namespace FreeFlow.QpSrq

open Runs Wire

/-- An SRQ of the driver. The object of the client has the same handle. -/
structure Srq where
  ptr : ℕ
  handle : ℕ
  deriving DecidableEq

structure QpCap where
  maxSendWr : ℕ
  maxRecvWr : ℕ
  maxSendSge : ℕ
  maxRecvSge : ℕ
  maxInlineData : ℕ

/-- The attributes of the application; of the CQs the handles. -/
structure ClientAttr where
  qpType : ℕ
  sqSigAll : ℤ
  sendCq : ℕ
  recvCq : ℕ
  srq : Option Srq
  cap : QpCap

structure CreateQpReq where
  pdHandle : ℕ
  qpType : ℕ
  sqSigAll : ℤ
  sendCqHandle : ℕ
  recvCqHandle : ℕ
  srqHandle : ℕ
  cap : QpCap

def createQpReq (pdHandle : ℕ) (attr : ClientAttr) : CreateQpReq where
  pdHandle := pdHandle
  qpType := attr.qpType
  sqSigAll := attr.sqSigAll
  sendCqHandle := attr.sendCq
  recvCqHandle := attr.recvCq
  srqHandle := match attr.srq with
    | some srq => srq.handle
    | none => 0
  cap := attr.cap

/-- The protection domain is an argument of the call. -/
def ibvCmdCreateQp (pdHandle : ℕ) (attr : ClientAttr) : CreateQpReq := createQpReq pdHandle attr

/-- The protection domain is a field of the attributes. -/
def ibvExpCmdCreateQp (attrPd : ℕ) (attr : ClientAttr) : CreateQpReq := createQpReq attrPd attr

structure State where
  srqMap : ℕ → Option Srq
  /-- The handle a destroy request has found an SRQ under, by thread. -/
  found : ℕ → Option ℕ

/-- What the router passes to `ibv_create_qp`. -/
structure InitAttr where
  qpType : ℕ
  sqSigAll : ℤ
  srq : Option Srq
  sendCq : Option ℕ
  recvCq : Option ℕ
  cap : QpCap

def initAttr (s : State) (cqMap : ℕ → Option ℕ) (req : CreateQpReq) : InitAttr where
  qpType := req.qpType
  sqSigAll := req.sqSigAll
  srq := s.srqMap req.srqHandle
  sendCq := cqMap req.sendCqHandle
  recvCq := cqMap req.recvCqHandle
  cap := req.cap

inductive Event
  /-- `IBV_CREATE_SRQ` with the protection domain it has looked up. -/
  | createSrq (pd : Option ℕ) (srq : Srq)
  /-- The two halves of `IBV_DESTROY_SRQ`, the second with what
  `ibv_destroy_srq` returns. -/
  | findSrq (thread handle : ℕ)
  | clearSrq (thread handle : ℕ) (ret : ℤ)
  /-- Other memory of the router changes. -/
  | other (behind : ℕ → Option Srq)

def step (s : State) : Event → Option State
  | .createSrq none _ => some s
  | .createSrq (some _) srq =>
    some (if srq.handle < mapSize then
      {s with srqMap := Function.update s.srqMap srq.handle (some srq)} else s)
  | .findSrq t h =>
    some {s with found := Function.update s.found t ((s.srqMap h).map fun _ => h)}
  | .clearSrq t h _ =>
    if s.found t = some h then
      some ⟨Function.update s.srqMap h none,Function.update s.found t none⟩ else none
  | .other behind => some {s with srqMap := fun h => if h < mapSize then s.srqMap h else behind h}

def booted (behind : ℕ → Option Srq) : State :=
  ⟨fun h => if h < mapSize then none else behind h,fun _ => none⟩

def Event.Writes (h : ℕ) : Event → Prop
  | .createSrq (some _) srq => srq.handle = h
  | .clearSrq _ handle _ => handle = h
  | _ => False

/-- The SRQ was created, and since then no SRQ got its handle and no request
to destroy it came as far as its entry. -/
def Registered (history : List Event) (srq : Srq) : Prop :=
  ∃ pd before after, history = before++.createSrq (some pd) srq::after ∧
    ∀ e ∈ after, ¬e.Writes srq.handle

theorem registered_cons (e : Event) (history : List Event) (srq : Srq) :
    Registered (e::history) srq ↔ Registered history srq ∨
      (∃ pd, e = .createSrq (some pd) srq) ∧ ∀ e ∈ history, ¬e.Writes srq.handle := by
  constructor
  · rintro ⟨pd,before,after,heq,hafter⟩
    cases before with
    | nil =>
      obtain ⟨rfl,rfl⟩ := List.cons.inj heq
      exact .inr ⟨⟨pd,rfl⟩,hafter⟩
    | cons b before =>
      obtain ⟨rfl,rfl⟩ := List.cons.inj heq
      exact .inl ⟨pd,before,after,rfl,hafter⟩
  · rintro (⟨pd,before,after,rfl,hafter⟩ | ⟨⟨pd,rfl⟩,hafter⟩)
    · exact ⟨pd,e::before,after,rfl,hafter⟩
    · exact ⟨pd,[],history,rfl,hafter⟩

/-- One event and one entry of the table. -/
theorem step_entry (s t : State) (e : Event) (h : ℕ) (hlt : h < mapSize)
    (hstep : step s e = some t) (srq : Srq) :
    t.srqMap h = some srq ↔
      (s.srqMap h = some srq ∧ ¬e.Writes h) ∨ (∃ pd, e = .createSrq (some pd) srq) ∧ srq.handle = h := by
  cases e with
  | createSrq pd new =>
    cases pd with
    | none =>
      obtain rfl := Option.some.inj hstep
      simp [Event.Writes]
    | some pd =>
      obtain rfl := Option.some.inj hstep
      by_cases hnew : new.handle = h
      · subst hnew
        simp only [hlt,if_true,Function.update_self,Event.Writes,not_true,and_false,false_or,
          Option.some.injEq,Event.createSrq.injEq]
        exact ⟨fun heq => ⟨⟨pd,rfl,heq⟩,congrArg Srq.handle heq.symm⟩,fun ⟨⟨_,_,heq⟩,_⟩ => heq⟩
      · have hother : ¬((∃ pd', Event.createSrq (some pd) new = .createSrq (some pd') srq) ∧
            srq.handle = h) := by
          rintro ⟨⟨pd',heq⟩,hsrq⟩
          exact hnew ((Event.createSrq.inj heq).2 ▸ hsrq)
        rw [or_iff_left hother,Event.Writes,and_iff_left hnew]
        split
        · simp only [Function.update_of_ne (Ne.symm hnew)]
        · rfl
  | findSrq thread handle =>
    obtain rfl := Option.some.inj hstep
    simp [Event.Writes]
  | clearSrq thread handle ret =>
    rw [step] at hstep
    split at hstep
    · obtain rfl := Option.some.inj hstep
      by_cases hsame : handle = h
      · simp [Event.Writes,hsame]
      · simp [Event.Writes,hsame,Function.update_of_ne (Ne.symm hsame)]
    · cases hstep
  | other behind =>
    obtain rfl := Option.some.inj hstep
    simp [Event.Writes,hlt]

/-- An entry holds what the history last wrote there. -/
theorem entry_iff (history : List Event) (s t : State) (h : ℕ) (hlt : h < mapSize)
    (hrun : run step s history = some t) (srq : Srq) :
    t.srqMap h = some srq ↔
      (s.srqMap h = some srq ∧ ∀ e ∈ history, ¬e.Writes h) ∨
        Registered history srq ∧ srq.handle = h := by
  induction history generalizing s with
  | nil =>
    obtain rfl : s = t := Option.some.inj hrun
    simp [Registered]
  | cons e history ih =>
    obtain ⟨mid,hmid,hrest⟩ := (run_cons _ _ _ _ _).mp hrun
    rw [ih mid hrest,step_entry s mid e h hlt hmid,registered_cons,List.forall_mem_cons]
    constructor
    · rintro (⟨⟨hold,hkeep⟩ | ⟨hnew,rfl⟩,hafter⟩ | ⟨hreg,hh⟩)
      · exact .inl ⟨hold,hkeep,hafter⟩
      · exact .inr ⟨.inr ⟨hnew,hafter⟩,rfl⟩
      · exact .inr ⟨.inl hreg,hh⟩
    · rintro (⟨hold,hkeep,hafter⟩ | ⟨hreg | ⟨hnew,hafter⟩,rfl⟩)
      · exact .inl ⟨.inl ⟨hold,hkeep⟩,hafter⟩
      · exact .inr ⟨hreg,rfl⟩
      · exact .inl ⟨.inr ⟨hnew,rfl⟩,hafter⟩

theorem booted_entry_iff (behind : ℕ → Option Srq) (history : List Event) (s : State)
    (hrun : run step (booted behind) history = some s) (h : ℕ) (hlt : h < mapSize) (srq : Srq) :
    s.srqMap h = some srq ↔ Registered history srq ∧ srq.handle = h := by
  rw [entry_iff history (booted behind) s h hlt hrun srq]
  simp [booted,hlt]

inductive Client
  | verbs
  | experimental

def Client.request : Client → ℕ → ClientAttr → CreateQpReq
  | verbs => ibvCmdCreateQp
  | experimental => ibvExpCmdCreateQp

/-- What the history must be for a queue pair with the given SRQ or without
one. -/
def Kept (s : State) (history : List Event) : Option Srq → Prop
  | none => ∀ srq, Registered history srq → srq.handle ≠ 0
  | some srq => if srq.handle < mapSize then Registered history srq
      else s.srqMap srq.handle = some srq

/-- The driver is asked for the SRQ the application named, or for none,
exactly when no SRQ of any client is stored under handle 0, and the named one
is still stored under its own. -/
theorem create_qp_srq_iff (behind : ℕ → Option Srq) (history : List Event) (s : State)
    (hrun : run step (booted behind) history = some s) (client : Client) (cqMap : ℕ → Option ℕ)
    (pdHandle : ℕ) (attr : ClientAttr) :
    (initAttr s cqMap (client.request pdHandle attr)).srq = attr.srq ↔ Kept s history attr.srq := by
  have hreq : client.request pdHandle attr = createQpReq pdHandle attr := by cases client <;> rfl
  rw [hreq,initAttr,createQpReq]
  dsimp only
  cases attr.srq with
  | none =>
    rw [Kept,Option.eq_none_iff_forall_ne_some]
    have hentry := booted_entry_iff behind history s hrun 0 (by decide)
    exact ⟨fun h srq hreg hzero => h srq ((hentry srq).mpr ⟨hreg,hzero⟩),
      fun h srq hsrq => h srq ((hentry srq).mp hsrq).1 ((hentry srq).mp hsrq).2⟩
  | some srq =>
    rw [Kept]
    by_cases hlt : srq.handle < mapSize
    · rw [if_pos hlt,booted_entry_iff behind history s hrun srq.handle hlt,and_iff_left rfl]
    · rw [if_neg hlt]

def plainAttr (srq : Option Srq) : ClientAttr := ⟨2,0,3,3,srq,⟨16,16,1,1,0⟩⟩

def oneSrq : List Event := [.createSrq (some 1) ⟨64,5⟩]

theorem stored_srq_used : Registered oneSrq ⟨64,5⟩ ∧
    ∃ s, run step (booted fun _ => none) oneSrq = some s ∧
      (initAttr s (fun _ => none) (Client.verbs.request 1 (plainAttr (some ⟨64,5⟩)))).srq =
        some ⟨64,5⟩ := by
  have hreg : Registered oneSrq ⟨64,5⟩ := ⟨1,[],[],rfl,by simp⟩
  refine ⟨hreg,_,rfl,?_⟩
  apply (create_qp_srq_iff (fun _ => none) oneSrq _ rfl .verbs _ 1 (plainAttr (some ⟨64,5⟩))).mpr
  rw [plainAttr,Kept,if_pos (by decide)]
  exact hreg

/-- The SRQ with handle 0 ends up in a queue pair of a client that asked for
none; an SRQ the driver refused to destroy is missing from a queue pair that
asked for it. -/
theorem srq_exchanged :
    (∃ s, run step (booted fun _ => none) [.createSrq (some 1) ⟨64,0⟩] = some s ∧
      (initAttr s (fun _ => none) (ibvCmdCreateQp 1 (plainAttr none))).srq = some ⟨64,0⟩ ∧
      (initAttr s (fun _ => none) (ibvExpCmdCreateQp 1 (plainAttr none))).srq = some ⟨64,0⟩) ∧
    ∃ s, run step (booted fun _ => none)
        (oneSrq++[.findSrq 1 5,.clearSrq 1 5 16]) = some s ∧
      (initAttr s (fun _ => none) (ibvCmdCreateQp 1 (plainAttr (some ⟨64,5⟩)))).srq = none :=
  ⟨⟨_,rfl,rfl,rfl⟩,_,rfl,rfl⟩

end FreeFlow.QpSrq
