import FreeFlow.RegistrationTables

/-!
# Destroying what the driver may refuse to destroy

The six destroying cases of `HandleRequest` take the object out of its table,
then ask the driver to destroy it and answer with what the driver returned.
None of them looks at the result: the slot, the entry of the polling vector
and the name of the shared memory go in any case. `IBV_DEREG_MR` is the only
one that uses what it has found without a test for `NULL`.

Objects are numbers. A request that makes the router use a null pointer has
no outcome.
-/

set_option autoImplicit false

namespace FreeFlow.DestroyRequests

open ObjectNames Runs
open RegistrationTables (Piece remove)

/-- The three tables of the CQs, of the QPs or of the SRQs. -/
structure Queues where
  map : ℕ → Option ℕ
  shmMap : ℕ → Option Piece
  shmVec : List ℕ

structure Tables where
  names : Names String
  pdMap : ℕ → Option ℕ
  channelMap : ℤ → Option ℕ
  cq : Queues
  qp : Queues
  srq : Queues
  mrMap : ℕ → Option ℕ
  shmrMap : ℕ → Option Piece

/-- What a request does: the tables, the object given to the driver and the
`ret` of the response, if there is one. -/
structure Outcome where
  tables : Tables
  called : Option ℕ
  rsp : Option ℤ

/-- Taking a queue out of its tables. -/
def Queues.drop (q : Queues) (handle : ℕ) : Queues :=
  ⟨Function.update q.map handle none,Function.update q.shmMap handle none,q.shmVec.erase handle⟩

/-- The name of the slot goes with the piece. -/
def Queues.unlink (q : Queues) (handle : ℕ) (names : Names String) : Names String :=
  match q.shmMap handle with
  | some sp => remove names sp
  | none => names

def ibvDeallocPd (s : Tables) (pdHandle : ℕ) (ret : ℤ) : Outcome :=
  match s.pdMap pdHandle with
  | none => ⟨s,none,none⟩
  | some pd => ⟨{s with pdMap := Function.update s.pdMap pdHandle none},some pd,some ret⟩

def ibvDestroyCompChannel (s : Tables) (fd ret : ℤ) : Outcome :=
  match s.channelMap fd with
  | none => ⟨s,none,none⟩
  | some channel =>
    ⟨{s with channelMap := Function.update s.channelMap fd none},some channel,some ret⟩

/-- The cases of the three kinds of queues, for the tables `q` of the kind and
their place in the router. -/
def destroyQueue (s : Tables) (q : Queues) (set : Queues → Tables → Tables) (handle : ℕ) (ret : ℤ) :
    Outcome :=
  match q.map handle with
  | none => ⟨s,none,none⟩
  | some obj =>
    ⟨set (q.drop handle) {s with names := q.unlink handle s.names},some obj,some ret⟩

def ibvDestroyCq (s : Tables) (cqHandle : ℕ) (ret : ℤ) : Outcome :=
  destroyQueue s s.cq (fun q t => {t with cq := q}) cqHandle ret

def ibvDestroyQp (s : Tables) (qpHandle : ℕ) (ret : ℤ) : Outcome :=
  destroyQueue s s.qp (fun q t => {t with qp := q}) qpHandle ret

def ibvDestroySrq (s : Tables) (srqHandle : ℕ) (ret : ℤ) : Outcome :=
  destroyQueue s s.srq (fun q t => {t with srq := q}) srqHandle ret

/-- Neither `mr` nor `sp` is tested: `ibv_dereg_mr` reads the first and
`remove` the second. -/
def ibvDeregMr (s : Tables) (handle : ℕ) (ret : ℤ) : Option Outcome :=
  match s.mrMap handle, s.shmrMap handle with
  | some mr, some sp => some
      ⟨{s with
        names := remove s.names sp
        shmrMap := Function.update s.shmrMap handle none
        mrMap := Function.update s.mrMap handle none},some mr,some ret⟩
  | _, _ => none

inductive Request
  | deallocPd (pdHandle : ℕ)
  | destroyCq (cqHandle : ℕ)
  | destroyQp (qpHandle : ℕ)
  | destroySrq (srqHandle : ℕ)
  | destroyCompChannel (fd : ℤ)
  | deregMr (handle : ℕ)
  deriving DecidableEq

def handleRequest (s : Tables) (r : Request) (ret : ℤ) : Option Outcome :=
  match r with
  | .deallocPd h => some (ibvDeallocPd s h ret)
  | .destroyCq h => some (ibvDestroyCq s h ret)
  | .destroyQp h => some (ibvDestroyQp s h ret)
  | .destroySrq h => some (ibvDestroySrq s h ret)
  | .destroyCompChannel fd => some (ibvDestroyCompChannel s fd ret)
  | .deregMr h => ibvDeregMr s h ret

/-- The object a request reaches. -/
def found (s : Tables) : Request → Option ℕ
  | .deallocPd h => s.pdMap h
  | .destroyCq h => s.cq.map h
  | .destroyQp h => s.qp.map h
  | .destroySrq h => s.srq.map h
  | .destroyCompChannel fd => s.channelMap fd
  | .deregMr h => s.mrMap h

/-- The tables after a request that has reached its object. -/
def dropped (s : Tables) : Request → Tables
  | .deallocPd h => {s with pdMap := Function.update s.pdMap h none}
  | .destroyCq h => {s with names := s.cq.unlink h s.names, cq := s.cq.drop h}
  | .destroyQp h => {s with names := s.qp.unlink h s.names, qp := s.qp.drop h}
  | .destroySrq h => {s with names := s.srq.unlink h s.names, srq := s.srq.drop h}
  | .destroyCompChannel fd => {s with channelMap := Function.update s.channelMap fd none}
  | .deregMr h =>
    {s with
      names := ((s.shmrMap h).map (remove s.names)).getD s.names
      shmrMap := Function.update s.shmrMap h none
      mrMap := Function.update s.mrMap h none}

theorem destroyQueue_cases (s : Tables) (q : Queues) (set : Queues → Tables → Tables) (handle : ℕ)
    (ret : ℤ) :
    (q.map handle = none ∧ destroyQueue s q set handle ret = ⟨s,none,none⟩) ∨
      ∃ obj, q.map handle = some obj ∧ destroyQueue s q set handle ret =
        ⟨set (q.drop handle) {s with names := q.unlink handle s.names},some obj,some ret⟩ := by
  unfold destroyQueue
  cases hobj : q.map handle with
  | none => exact .inl ⟨rfl,rfl⟩
  | some obj => exact .inr ⟨obj,rfl,rfl⟩

/-- Nothing happens when no object is reached. Otherwise the tables do not
depend on what the driver returns. -/
theorem handleRequest_cases (s : Tables) (r : Request) (ret : ℤ) (o : Outcome)
    (h : handleRequest s r ret = some o) :
    (found s r = none ∧ o = ⟨s,none,none⟩) ∨
      ∃ obj, found s r = some obj ∧ o = ⟨dropped s r,some obj,some ret⟩ := by
  cases r with
  | deregMr handle =>
    simp only [handleRequest,ibvDeregMr] at h
    split at h
    · next mr sp hmr hsp =>
      obtain rfl := Option.some.inj h
      exact .inr ⟨mr,hmr,by simp [dropped,hsp]⟩
    · exact absurd h (by simp)
  | deallocPd handle =>
    obtain rfl := Option.some.inj h
    unfold ibvDeallocPd
    split
    · next hnone => exact .inl ⟨hnone,rfl⟩
    · next pd hsome => exact .inr ⟨pd,hsome,rfl⟩
  | destroyCompChannel fd =>
    obtain rfl := Option.some.inj h
    unfold ibvDestroyCompChannel
    split
    · next hnone => exact .inl ⟨hnone,rfl⟩
    · next channel hsome => exact .inr ⟨channel,hsome,rfl⟩
  | destroyCq handle =>
    obtain rfl := Option.some.inj h
    exact destroyQueue_cases s s.cq _ handle ret
  | destroyQp handle =>
    obtain rfl := Option.some.inj h
    exact destroyQueue_cases s s.qp _ handle ret
  | destroySrq handle =>
    obtain rfl := Option.some.inj h
    exact destroyQueue_cases s s.srq _ handle ret

/-- A request clears its own entry and no other. -/
theorem found_dropped (s : Tables) (r r' : Request) :
    found (dropped s r) r' = if r' = r then none else found s r' := by
  cases r <;> cases r' <;> simp [found,dropped,Queues.drop,Function.update_apply]

/-- The tables stay as they were only when the handle names no object. So they change with every
request that the driver refuses, and a retry with the same handle does not reach the driver. -/
theorem destroy_unchanged_iff (s : Tables) (r : Request) (ret : ℤ) (o : Outcome)
    (h : handleRequest s r ret = some o) :
    (o.tables = s ↔ found s r = none) ∧
      ∀ obj, found s r = some obj → ret ≠ 0 →
        o.called = some obj ∧ o.rsp = some ret ∧ found o.tables r = none ∧
          ∀ ret' o', handleRequest o.tables r ret' = some o' → o'.called = none := by
  obtain ⟨hnone,rfl⟩ | ⟨obj,hfound,rfl⟩ := handleRequest_cases s r ret o h
  · refine ⟨iff_of_true rfl hnone,fun obj hsome => ?_⟩
    rw [hnone] at hsome
    exact absurd hsome (by simp)
  · have hcleared : found (dropped s r) r = none := by rw [found_dropped,if_pos rfl]
    constructor
    · refine iff_of_false (fun hsame : dropped s r = s => ?_) (by simp [hfound])
      rw [hsame,hfound] at hcleared
      exact absurd hcleared (by simp)
    · rintro obj' hobj' -
      obtain rfl : obj = obj' := Option.some.inj (hfound.symm.trans hobj')
      refine ⟨rfl,rfl,hcleared,fun ret' o' hretry => ?_⟩
      obtain ⟨-,rfl⟩ | ⟨obj',hagain,-⟩ := handleRequest_cases (dropped s r) r ret' o' hretry
      · rfl
      · rw [hcleared] at hagain
        exact absurd hagain (by simp)

/-- Each table holds the object 1 under 3. -/
def oneOfEach : Tables :=
  let queues : Queues := ⟨fun h => if h = 3 then some 1 else none,
    fun h => if h = 3 then some ⟨⟨"ctrlshm-3",0,0⟩,2097160,some 8192⟩ else none,[3]⟩
  ⟨Names.unbound,fun h => if h = 3 then some 1 else none,fun fd => if fd = 3 then some 1 else none,
    queues,queues,queues,fun h => if h = 3 then some 1 else none,
    fun h => if h = 3 then some ⟨⟨"buf",1,0⟩,4096,some 4096⟩ else none⟩

/-- The driver still uses the CQ and refuses, and the CQ is lost. -/
theorem refused_cq_unreached : ∃ o, handleRequest oneOfEach (.destroyCq 3) 16 = some o ∧
    o.tables ≠ oneOfEach ∧ o.called = some 1 ∧ o.rsp = some 16 ∧
    found o.tables (.destroyCq 3) = none ∧
    ∀ ret' o', handleRequest o.tables (.destroyCq 3) ret' = some o' → o'.called = none :=
  have h := destroy_unchanged_iff oneOfEach (.destroyCq 3) 16 _ rfl
  ⟨_,rfl,fun hsame => absurd (h.1.mp hsame) (by decide),h.2 1 rfl (by decide)⟩

/-- The driver answers with `EBUSY`: the client learns that the object still
exists, and no request reaches it any more. -/
def LostIfBusy (s : Tables) (r : Request) : Prop :=
  ∃ o, handleRequest s r 16 = some o ∧ o.called = some 1 ∧ o.rsp = some 16 ∧
    found o.tables r = none

theorem refused_destroys_lose_object :
    LostIfBusy oneOfEach (.deallocPd 3) ∧ LostIfBusy oneOfEach (.destroyCq 3) ∧
    LostIfBusy oneOfEach (.destroyQp 3) ∧ LostIfBusy oneOfEach (.destroySrq 3) ∧
    LostIfBusy oneOfEach (.destroyCompChannel 3) ∧ LostIfBusy oneOfEach (.deregMr 3) :=
  ⟨⟨_,rfl,rfl,rfl,rfl⟩,⟨_,rfl,rfl,rfl,rfl⟩,⟨_,rfl,rfl,rfl,rfl⟩,⟨_,rfl,rfl,rfl,rfl⟩,
    ⟨_,rfl,rfl,rfl,rfl⟩,⟨_,rfl,rfl,rfl,rfl⟩⟩

/-- One request with the result of its driver call. -/
def step (s : Tables) (x : Request × ℤ) : Option Tables :=
  (handleRequest s x.1 x.2).map Outcome.tables

/-- After any number of destroying requests, whether the driver refused them
or not, exactly the objects no request asked for are still reached. -/
theorem found_run (requests : List (Request × ℤ)) (s t : Tables)
    (hrun : run step s requests = some t) (r : Request) :
    found t r = if r ∈ requests.map Prod.fst then none else found s r := by
  induction requests generalizing s with
  | nil =>
    obtain rfl : s = t := by simpa [run] using hrun
    simp
  | cons x requests ih =>
    obtain ⟨u,hu,hrest⟩ := (run_cons step s x requests t).mp hrun
    obtain ⟨o,ho,rfl⟩ := Option.map_eq_some_iff.mp hu
    have hone : found o.tables r = if r = x.1 then none else found s r := by
      obtain ⟨hnone,rfl⟩ | ⟨obj,-,rfl⟩ := handleRequest_cases s x.1 x.2 o ho
      · by_cases hr : r = x.1
        · rw [if_pos hr,hr]
          exact hnone
        · rw [if_neg hr]
      · exact found_dropped s x.1 r
    rw [ih o.tables hrest,hone]
    by_cases hmem : r ∈ requests.map Prod.fst
    · simp only [List.map_cons,List.mem_cons,hmem,or_true,if_true]
    · simp only [List.map_cons,List.mem_cons,hmem,or_false,if_false]

end FreeFlow.DestroyRequests
