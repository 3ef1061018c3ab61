import FreeFlow.MachineIntegers
import FreeFlow.MailboxRuns
import FreeFlow.SlotRequests
import FreeFlow.Wire
import Mathlib.Tactic.Ring

/-!
# The shared-memory control slot

A QP, CQ or SRQ has one control slot. Its `state` word is the mailbox flag:
`IDLE`, `REQ_DONE` and `RSP_DONE` are `idle`, `requested` and `answered`.
`request_router_shm` is the looking and raising of a client, one pass of
`CtrlChannelLoop` over the slot is one round of the server. Cells are byte
offsets into `csp->req` and `csp->rsp`; every field is one cell.

The router reads the words it acts on and rewrites pointers and addresses of
the work requests in place. What it hands to the driver is what `PostSend` and
`PostRecv` compute from the body, and the words it has read must decide that.
It leaves a CQ slot unanswered when the CQ table has no entry, answers a QP
slot with a foreign function code without any driver call, and runs off the
slot when the driver returns more completions than the response area holds.
-/

set_option autoImplicit false

namespace FreeFlow.SlotProtocol

open MachineIntegers (toSizeT)
open Mailbox SlotRequests Wire
open PostRecv (RecvWr handedRecv layRecv postedRecv recvSgeCount sentRecv)
open PostSend (Buffer PostedWr Router SendWr fastPath ibvCmdPostSend postedWr sentWr sgeCount)

inductive Slot
  | qp
  | cq
  | srq
  deriving DecidableEq

/-- What the two sides know of a slot: the type of a QP, the address of the
command in the client and the address of the body in the router. -/
structure Mapping where
  ud : ℕ → Bool
  command : ℕ
  area : Buffer

/-- A call of the library with its arguments; `mr` is `map_lkey_to_mrshm` at
its time. -/
inductive Call
  | postSend (clientId : ℤ) (mr : ℕ → ℕ) (qpHandle : ℕ) (ws : List SendWr)
  | postRecv (clientId : ℤ) (mr : ℕ → ℕ) (qpHandle : ℕ) (ws : List RecvWr)
  | postSrqRecv (clientId : ℤ) (mr : ℕ → ℕ) (srqHandle : ℕ) (ws : List RecvWr)
  | pollCq (clientId : ℤ) (cqHandle : ℕ) (ne : ℤ)

def Call.slot : Call → Slot
  | .postSend .. => .qp
  | .postRecv .. => .qp
  | .postSrqRecv .. => .srq
  | .pollCq .. => .cq

def Call.func : Call → RdmaFunctionCall
  | .postSend .. => .ibvPostSend
  | .postRecv .. => .ibvPostRecv
  | .postSrqRecv .. => .ibvPostSrqRecv
  | .pollCq .. => .ibvPollCq

def Call.handle : Call → ℕ
  | .postSend _ _ h _ => h
  | .postRecv _ _ h _ => h
  | .postSrqRecv _ _ h _ => h
  | .pollCq _ h _ => h

/-- The stores to `FfrRequestHeader`. -/
def header (clientId : ℤ) (func : RdmaFunctionCall) (bodySize : ℕ) : List (ℕ × ℤ) :=
  [(0,clientId),(4,func.code),(8,(bodySize : ℤ))]

/-- The stores of a call, in program order. -/
def Call.stores (u : Mapping) : Call → List (ℕ × ℤ)
  | .postSend id mr h ws =>
    header id .ibvPostSend
      (32+ws.length*128+sgeCount ws*16+(if u.ud h then ws.length else 0)*4)++
    atBody (postSendStores (u.ud h) mr h ws)
  | .postRecv id mr h ws =>
    header id .ibvPostRecv (32+ws.length*32+recvSgeCount ws*16)++
    atBody (layRecvStores mr u.command h ws)
  | .postSrqRecv id mr h ws =>
    header id .ibvPostSrqRecv (32+ws.length*32+recvSgeCount ws*16)++
    atBody (layRecvStores mr u.command h ws)
  | .pollCq id h ne => header id .ibvPollCq 8++[(12,(h : ℤ)),(16,ne)]

/-- The posts fetch `bad_wr` and then `ret_errno`. -/
def postNext : List ℤ → Option ℕ
  | [] => some 8
  | [_] => some 4
  | _ => none

/-- A poll fetches `rsp_size` and, unless it is no multiple of the size of a
completion, that many bytes of completions. -/
def pollNext : List ℤ → Option ℕ
  | [] => some 0
  | size::got =>
    if toSizeT size%sizeofWc = 0 ∧ 4*got.length < toSizeT size then some (4+4*got.length)
    else none

def Call.next : Call → List ℤ → Option ℕ
  | .pollCq .. => pollNext
  | _ => postNext

/-- Only a poll that finds a broken `rsp_size` returns without storing
`IDLE`. -/
def Call.resets : Call → List ℤ → Bool
  | .pollCq .., size::_ => toSizeT size%sizeofWc = 0
  | _, _ => true

abbrev Wc := Fin 12 → ℤ

def wcWords (wcs : List Wc) : List ℤ := wcs.flatMap List.ofFn

/-- A call of the driver: what it is given and what it returns. `bad` is the
position of `bad_wr` in the batch, nothing for `NULL`. -/
inductive Driven
  | post (func : RdmaFunctionCall) (handle : ℕ) (posted : List PostedWr) (ret : ℤ)
      (bad : Option ℕ)
  | poll (handle : ℕ) (ne : ℤ) (wcs : List Wc)

def badWord (bad : Option ℕ) : ℤ := (bad.getD 0 : ℕ)

def wordStores : ℕ → List ℤ → List (ℕ × ℤ)
  | _, [] => []
  | a, w::ws => (a,w)::wordStores (a+4) ws

/-- The stores of `IBV_POST_SEND_RSP` and its siblings. -/
def postReply (ret bad : ℤ) : List (ℕ × ℤ) := [(0,8),(4,ret),(8,bad)]

/-- The driver stores the completions, then the router stores `rsp_size`. -/
def pollReply (wcs : List Wc) : List (ℕ × ℤ) :=
  wordStores 4 (wcWords wcs)++[(0,((sizeofWc*wcs.length : ℕ) : ℤ))]

def Driven.reply : Driven → List (ℕ × ℤ)
  | .post _ _ _ ret bad => postReply ret (badWord bad)
  | .poll _ _ wcs => pollReply wcs

/-- Whatever the cells hold that have not been read, the path hands over the
same requests. -/
def Decides (seen : List (ℕ × ℤ)) (path : (ℕ → ℕ) → Option (List PostedWr))
    (posted : List PostedWr) : Prop :=
  ∀ m : ℕ → ℤ, (∀ x ∈ seen, x.2 = m x.1) → path (body m) = some posted

/-- The driver calls of one pass of `CtrlChannelLoop` over a slot whose
request words were read as `seen`. The tables of the router are those of the
pass; only a handle below `MAP_SIZE` is looked up in them. -/
inductive Answers (u : Mapping) : Slot → List (ℕ × ℤ) → Driven → Prop
  | postSend (seen : List (ℕ × ℤ)) (h n : ℕ) (r : Router) (posted : List PostedWr) (ret : ℤ)
      (bad : Option ℕ) : (4,RdmaFunctionCall.ibvPostSend.code) ∈ seen → (28,(h : ℤ)) ∈ seen →
      (32,(n : ℤ)) ∈ seen → h < mapSize → r.ud = u.ud → Decides seen (fastPath r u.area) posted →
      Answers u .qp seen (.post .ibvPostSend h posted ret bad)
  | postRecv (seen : List (ℕ × ℤ)) (h n : ℕ) (r : Router) (posted : List PostedWr) (ret : ℤ)
      (bad : Option ℕ) : (4,RdmaFunctionCall.ibvPostRecv.code) ∈ seen → (28,(h : ℤ)) ∈ seen →
      (32,(n : ℤ)) ∈ seen → h < mapSize → Decides seen (handedRecv r true u.area) posted →
      Answers u .qp seen (.post .ibvPostRecv h posted ret bad)
  | postSrqRecv (seen : List (ℕ × ℤ)) (h n : ℕ) (r : Router) (posted : List PostedWr) (ret : ℤ)
      (bad : Option ℕ) : (28,(h : ℤ)) ∈ seen → (32,(n : ℤ)) ∈ seen → h < mapSize →
      Decides seen (handedRecv r true u.area) posted →
      Answers u .srq seen (.post .ibvPostSrqRecv h posted ret bad)
  | pollCq (seen : List (ℕ × ℤ)) (h : ℕ) (ne : ℤ) (wcs : List Wc) : (12,(h : ℤ)) ∈ seen →
      (16,ne) ∈ seen → h < mapSize → (wcs.length : ℤ) ≤ max ne 0 →
      sizeofResponseHeader+sizeofWc*wcs.length ≤ ctrlRspSize →
      Answers u .cq seen (.poll h ne wcs)

/-- The `default` case of the switch on a QP slot. -/
def Drops (k : Slot) (seen : List (ℕ × ℤ)) : Prop :=
  k = .qp ∧ ∃ f, (4,f) ∈ seen ∧ f ≠ RdmaFunctionCall.ibvPostSend.code ∧
    f ≠ RdmaFunctionCall.ibvPostRecv.code

/-- A call on a slot of kind `k`. The library has slots only for handles
below `MAP_SIZE`. -/
structure SlotCall (k : Slot) where
  call : Call
  slot : call.slot = k
  handle_lt : call.handle < mapSize

def slotService (u : Mapping) (k : Slot) : Service (SlotCall k) ℕ ℤ Driven where
  stores c := c.call.stores u
  next c := c.call.next
  resets c := c.call.resets
  answers := Answers u k
  reply := Driven.reply
  drops := Drops k

section Requests

variable (u : Mapping)

theorem value_header (id : ℤ) (f : RdmaFunctionCall) (n : ℕ) (xs : List (ℕ × ℕ)) (a : ℕ)
    (ha : a < 12) : value (header id f n++atBody xs) a = value (header id f n) a := by
  rw [value_append,value_atBody_of_lt xs a ha]
  rfl

theorem value_func (c : Call) : value (c.stores u) 4 = some c.func.code := by
  cases c with
  | pollCq id h ne => rfl
  | _ =>
    rw [Call.stores,value_header _ _ _ _ 4 (by decide)]
    rfl

end Requests

section Replies

theorem value_wordStores_lt (a : ℕ) (ws : List ℤ) (b : ℕ) (hb : b < a) :
    value (wordStores a ws) b = none := by
  induction ws generalizing a with
  | nil => rfl
  | cons w ws ih =>
    rw [wordStores,value,ih (a+4) (by omega),if_neg (by dsimp only; omega)]
    rfl

theorem value_wordStores (a : ℕ) (ws : List ℤ) (i : ℕ) :
    value (wordStores a ws) (a+4*i) = ws[i]? := by
  induction ws generalizing a i with
  | nil => rfl
  | cons w ws ih =>
    cases i with
    | zero =>
      have hnone : value (wordStores (a+4) ws) a = none := value_wordStores_lt (a+4) ws a (by omega)
      simp [wordStores,value,hnone]
    | succ i =>
      have hshift : a+4*(i+1) = (a+4)+4*i := by ring
      rw [wordStores,value,hshift,ih (a+4) i]
      cases hget : ws[i]? with
      | some v => simp [hget]
      | none => simp [hget,show (a+4)+4*i ≠ a by omega]

theorem length_wcWords (wcs : List Wc) : (wcWords wcs).length = 12*wcs.length := by
  induction wcs with
  | nil => rfl
  | cons wc wcs ih =>
    have ih' : (List.flatMap List.ofFn wcs).length = 12*wcs.length := ih
    simp only [wcWords,List.flatMap_cons,List.length_append,List.length_ofFn,ih',List.length_cons]
    ring

theorem value_pollReply_size (wcs : List Wc) :
    value (pollReply wcs) 0 = some ((sizeofWc*wcs.length : ℕ) : ℤ) := by
  rw [pollReply,value_append]
  rfl

theorem value_pollReply_word (wcs : List Wc) (i : ℕ) :
    value (pollReply wcs) (4+4*i) = (wcWords wcs)[i]? := by
  rw [pollReply,value_append,value_wordStores,value,if_neg (by dsimp only; omega)]
  rfl

theorem toSizeT_size (n : ℕ) (hn : sizeofResponseHeader+sizeofWc*n ≤ ctrlRspSize) :
    toSizeT ((sizeofWc*n : ℕ) : ℤ) = sizeofWc*n := by
  have hlt : sizeofWc*n < 2^64 := by
    have hsize : ctrlRspSize < 2^64 := by decide
    omega
  rw [MachineIntegers.toSizeT_of_nonneg _ (by omega) (by omega),Int.toNat_natCast]

/-- The posting calls of a slot fetch two words and always reset it. -/
def Posts (c : Call) : Prop := c.next = postNext ∧ ∀ got, c.resets got = true

theorem posts_of_slot (c : Call) (h : c.slot ≠ .cq) : Posts c := by
  cases c with
  | pollCq id h' ne => exact absurd rfl h
  | _ => exact ⟨rfl,fun _ => rfl⟩

theorem polls_of_slot (c : Call) (h : c.slot = .cq) : ∃ id h ne, c = .pollCq id h ne := by
  cases c with
  | pollCq id h' ne => exact ⟨id,h',ne,rfl⟩
  | _ => simp [Call.slot] at h

theorem func_of_qp (c : Call) (h : c.slot = .qp) :
    c.func = .ibvPostSend ∨ c.func = .ibvPostRecv := by
  cases c <;> simp [Call.slot,Call.func] at h ⊢

theorem value_postReply_of_next (ret bad : ℤ) (got : List ℤ) (a : ℕ)
    (h : postNext got = some a) : ∃ w, value (postReply ret bad) a = some w := by
  match got, h with
  | [], h =>
    obtain rfl : 8 = a := by simpa [postNext] using h
    exact ⟨bad,rfl⟩
  | [_], h =>
    obtain rfl : 4 = a := by simpa [postNext] using h
    exact ⟨ret,rfl⟩

variable {u : Mapping} {k : Slot}

/-- A poll in progress has fetched the size and a beginning of the words. -/
theorem follows_poll (c : SlotCall k) (hc : c.call.slot = .cq) (wcs : List Wc)
    (size : ℤ) (got : List ℤ) (h : Follows (slotService u k) c (pollReply wcs) (size::got)) :
    size = ((sizeofWc*wcs.length : ℕ) : ℤ) ∧ got <+: wcWords wcs := by
  obtain ⟨id,hd,ne,hcall⟩ := polls_of_slot c.call hc
  have hnext : (slotService u k).next c = pollNext := by simp [slotService,hcall,Call.next]
  have hsize : size = ((sizeofWc*wcs.length : ℕ) : ℤ) := by
    obtain ⟨a,ha,hv⟩ := h.get 0 (by simp)
    obtain rfl : 0 = a := by simpa [hnext,pollNext] using ha
    simpa [value_pollReply_size] using hv.symm
  refine ⟨hsize,List.prefix_iff_getElem?.mpr fun i hi => ?_⟩
  obtain ⟨a,ha,hv⟩ := h.get (i+1) (by simpa using hi)
  have hlen : (got.take i).length = i := by simp [Nat.le_of_lt hi]
  rw [hnext,List.take_succ_cons,pollNext,hlen] at ha
  obtain ⟨-,rfl⟩ : _ ∧ 4+4*i = a := by simpa [-Nat.not_lt] using ha
  rw [value_pollReply_word] at hv
  simpa using hv

theorem pollNext_size (n : ℕ) (hn : sizeofResponseHeader+sizeofWc*n ≤ ctrlRspSize)
    (got : List ℤ) : pollNext (((sizeofWc*n : ℕ) : ℤ)::got) =
      if got.length < 12*n then some (4+4*got.length) else none := by
  rw [pollNext,toSizeT_size n hn]
  have hdvd : sizeofWc*n%sizeofWc = 0 := Nat.mul_mod_right _ _
  have hiff : 4*got.length < sizeofWc*n ↔ got.length < 12*n := by
    rw [show sizeofWc = 48 from rfl]
    omega
  simp only [hdvd,hiff,true_and]

theorem pollNext_filled (wcs : List Wc)
    (hfit : sizeofResponseHeader+sizeofWc*wcs.length ≤ ctrlRspSize) (got : List ℤ) (a : ℕ)
    (h : pollNext (((sizeofWc*wcs.length : ℕ) : ℤ)::got) = some a) :
    ∃ w, value (pollReply wcs) a = some w := by
  rw [pollNext_size _ hfit] at h
  split at h
  · rename_i hlt
    obtain rfl : 4+4*got.length = a := by simpa using h
    rw [← length_wcWords] at hlt
    exact ⟨_,(value_pollReply_word wcs got.length).trans (List.getElem?_eq_getElem hlt)⟩
  · simp at h

end Replies

section Protocol

variable (u : Mapping)

/-- An execution on a slot is a post, or a poll whose completions fit. -/
theorem answers_cases {k : Slot} {seen : List (ℕ × ℤ)} {d : Driven} (h : Answers u k seen d) :
    (k ≠ .cq ∧ ∃ ret bad, d.reply = postReply ret bad) ∨
    (k = .cq ∧ ∃ wcs, d.reply = pollReply wcs ∧
      sizeofResponseHeader+sizeofWc*wcs.length ≤ ctrlRspSize) := by
  cases h with
  | postSend | postRecv | postSrqRecv => exact .inl ⟨by decide,_,_,rfl⟩
  | pollCq _ h ne wcs _ _ _ _ hfit => exact .inr ⟨rfl,wcs,rfl,hfit⟩

theorem sound (k : Slot) : Sound (slotService u k) where
  kept := by
    rintro c seen ⟨m,hseen⟩ ⟨hk,f,hf,hsend,hrecv⟩
    obtain rfl : f = c.call.func.code :=
      (hseen (4,f) hf).trans (storeAll_of_value m _ 4 _ (value_func u c.call))
    rcases func_of_qp c.call (c.slot.trans hk) with h | h
    · exact hsend (congrArg _ h)
    · exact hrecv (congrArg _ h)
  filled := by
    rintro c seen d got a - hd hgot hnext
    have hcell : c.call.next got = some a := hnext
    rcases answers_cases u hd with ⟨hk,ret,bad,hreply⟩ | ⟨hk,wcs,hreply,hfit⟩
    · rw [show (slotService u k).reply d = _ from hreply]
      rw [(posts_of_slot c.call (c.slot.trans_ne hk)).1] at hcell
      exact value_postReply_of_next ret bad got a hcell
    · rw [show (slotService u k).reply d = _ from hreply] at hgot ⊢
      obtain ⟨id,h,ne,hcall⟩ := polls_of_slot c.call (c.slot.trans hk)
      rw [hcall,Call.next] at hcell
      cases got with
      | nil =>
        obtain rfl : 0 = a := by simpa [pollNext] using hcell
        exact ⟨_,value_pollReply_size wcs⟩
      | cons size got =>
        obtain ⟨rfl,-⟩ := follows_poll c (c.slot.trans hk) wcs size got hgot
        exact pollNext_filled wcs hfit got a hcell
  resets := by
    rintro c seen d got - hd hgot hnext
    have hend : c.call.next got = none := hnext
    show c.call.resets got = true
    rcases answers_cases u hd with ⟨hk,-⟩ | ⟨hk,wcs,hreply,hfit⟩
    · exact (posts_of_slot c.call (c.slot.trans_ne hk)).2 got
    · rw [show (slotService u k).reply d = _ from hreply] at hgot
      obtain ⟨id,h,ne,hcall⟩ := polls_of_slot c.call (c.slot.trans hk)
      cases got with
      | nil => simp [hcall,Call.next,pollNext] at hend
      | cons size got =>
        obtain ⟨rfl,-⟩ := follows_poll c (c.slot.trans hk) wcs size got hgot
        rw [hcall,Call.resets,toSizeT_size _ hfit,decide_eq_true_eq]
        exact Nat.mul_mod_right _ _

variable {u}

end Protocol

section Completion

variable {u : Mapping}

end Completion

end FreeFlow.SlotProtocol
