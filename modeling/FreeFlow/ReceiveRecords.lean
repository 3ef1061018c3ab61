import FreeFlow.RegisteredMemory
import FreeFlow.RingQueue
import Mathlib.Data.List.Nodup

/-!
# Receive records of a completion queue

`ibv_cmd_post_recv` pushes one entry per work request into the ring of the
QP's `recv_cq`, before the driver sees the request. `ibv_cmd_poll_cq` pops one
entry per receive completion and copies the records it finds there. The ring
belongs to the CQ, so all QPs that complete into it share one order, the
order of posting. The device completes the receives of each QP in order.

The ring indices have 16 bits and never reach `WR_QUEUE_SIZE`. The owner of an
entry and the list of pending receives are ghost state.
-/

set_option autoImplicit false

namespace FreeFlow.ReceiveRecords

open RegisteredMemory (Sge SgeRecord wcRecv)
open RingQueue Runs

def indexBits : ℕ := 16

def wrQueueSize : ℕ := 102400

/-- `struct mr_shm` of the client. -/
structure MrShm where
  mr : ℕ
  shmPtr : ℕ

/-- The record of an sge; `table` is `map_lkey_to_mrshm`. -/
def sgeRecord (table : ℕ → MrShm) (g : Sge) : SgeRecord :=
  let off := (g.addr+2^64-(table g.lkey).mr)%2^64
  ⟨g.length,((table g.lkey).mr+off)%2^64,((table g.lkey).shmPtr+off)%2^64⟩

/-- `struct wr`, with the request the entry was pushed for. -/
structure Entry where
  sgeNum : ℕ
  sgeQueue : List SgeRecord
  owner : Option ℕ

def Entry.records (e : Entry) : List SgeRecord := e.sgeQueue.take e.sgeNum

/-- A request without sges leaves the old `sge_queue` in the entry. -/
def fillEntry (table : ℕ → MrShm) (id : ℕ) (sges : List Sge) (e : Entry) : Entry :=
  if sges.length ≠ 0 then ⟨sges.length,sges.map (sgeRecord table),some id⟩
  else {e with sgeNum := 0,owner := some id}

/-- A receive whose entry no completion has popped. A rejected receive has
an entry and will never complete. -/
structure Pending where
  id : ℕ
  qp : ℕ
  accepted : Bool
  records : List SgeRecord

structure State where
  ring : Queue Entry
  pending : List Pending
  next : ℕ

def started : State := ⟨⟨fun _ => ⟨0,[],none⟩,0,0⟩,[],0⟩

def pushWr (qp : ℕ) (table : ℕ → MrShm) (accepted : Bool) (s : State) (sges : List Sge) : State :=
  { ring := push indexBits wrQueueSize s.ring (fillEntry table s.next sges)
    pending := s.pending++[⟨s.next,qp,accepted,sges.map (sgeRecord table)⟩]
    next := s.next+1 }

/-- The loop of `ibv_cmd_post_recv`; the driver accepts the first `accepted`
requests. -/
def ibvCmdPostRecv (qp : ℕ) (table : ℕ → MrShm) : State → List (List Sge) → ℕ → State
  | s, [], _ => s
  | s, w::ws, accepted =>
    ibvCmdPostRecv qp table (pushWr qp table (0 < accepted) s w) ws (accepted-1)

def pollWc (s : State) (opcode id : ℕ) : State :=
  if opcode&&&wcRecv ≠ 0 then
    {s with ring := pop indexBits wrQueueSize s.ring
            pending := s.pending.eraseP fun p => p.id = id}
  else s

inductive Event
  | postRecv (qp : ℕ) (table : ℕ → MrShm) (wrs : List (List Sge)) (accepted : ℕ)
  | completion (opcode id : ℕ)

def step (s : State) : Event → Option State
  | .postRecv qp table wrs accepted => some (ibvCmdPostRecv qp table s wrs accepted)
  | .completion opcode id => some (pollWc s opcode id)

/-- The ring has room for a batch, and a receive completion is of the oldest
accepted receive of its QP. -/
def Admissible (s : State) : Event → Prop
  | .postRecv _ _ wrs _ => s.pending.length+wrs.length ≤ period indexBits wrQueueSize
  | .completion opcode id => opcode&&&wcRecv ≠ 0 → ∃ p, p.id = id ∧
    s.pending.find? (fun p' => p'.qp = p.qp ∧ p'.accepted) = some p

/-- A receive completion pops the records pushed for its own request. -/
def PopsOwn (s : State) : Event → Prop
  | .postRecv .. => True
  | .completion opcode id => opcode&&&wcRecv ≠ 0 → (front s.ring).owner = some id ∧
    ∀ p ∈ s.pending, p.id = id → (front s.ring).records = p.records

/-- A receive completion is of the oldest pending receive of all QPs. -/
def OldestFirst (s : State) : Event → Prop
  | .postRecv .. => True
  | .completion opcode id => opcode&&&wcRecv ≠ 0 → s.pending.head?.map Pending.id = some id

def PushedFor (e : Entry) (p : Pending) : Prop := e.owner = some p.id ∧ e.records = p.records

theorem fillEntry_pushedFor (table : ℕ → MrShm) (id qp : ℕ) (accepted : Bool) (sges : List Sge)
    (e : Entry) : PushedFor (fillEntry table id sges e)
      ⟨id,qp,accepted,sges.map (sgeRecord table)⟩ := by
  unfold fillEntry
  split
  · exact ⟨rfl,List.take_of_length_le (by simp)⟩
  · next h =>
    obtain rfl : sges = [] := by simpa using h
    exact ⟨rfl,rfl⟩

structure Inv (s : State) : Prop where
  queued : Holds PushedFor (period indexBits wrQueueSize) s.ring s.pending
  fresh : ∀ p ∈ s.pending, p.id < s.next
  increasing : s.pending.Pairwise fun p p' => p.id < p'.id

theorem inv_started : Inv started :=
  ⟨holds_empty PushedFor _ (by decide) _,by simp [started],by simp [started]⟩

/-- The requests are numbered in the order of posting. -/
theorem order_pushWr (qp : ℕ) (table : ℕ → MrShm) (accepted : Bool) (s : State) (sges : List Sge)
    (hfresh : ∀ p ∈ s.pending, p.id < s.next)
    (hincreasing : s.pending.Pairwise fun p p' => p.id < p'.id) :
    (∀ p ∈ (pushWr qp table accepted s sges).pending,
      p.id < (pushWr qp table accepted s sges).next) ∧
    (pushWr qp table accepted s sges).pending.Pairwise fun p p' => p.id < p'.id := by
  constructor
  · intro p hp
    rcases List.mem_append.mp hp with hold | hnew
    · exact Nat.lt_succ_of_lt (hfresh p hold)
    · obtain rfl := List.mem_singleton.mp hnew
      exact Nat.lt_succ_self _
  · refine List.pairwise_append.mpr ⟨hincreasing,List.pairwise_singleton _ _,?_⟩
    intro p hp p' hp'
    obtain rfl := List.mem_singleton.mp hp'
    exact hfresh p hp

theorem inv_pushWr (qp : ℕ) (table : ℕ → MrShm) (accepted : Bool) (s : State) (sges : List Sge)
    (hI : Inv s) (hroom : s.pending.length < period indexBits wrQueueSize) :
    Inv (pushWr qp table accepted s sges) :=
  have horder := order_pushWr qp table accepted s sges hI.fresh hI.increasing
  ⟨hI.queued.push hroom _ _ (fillEntry_pushedFor table s.next qp accepted sges),
    horder.1,horder.2⟩

theorem inv_postRecv (qp : ℕ) (table : ℕ → MrShm) (wrs : List (List Sge)) (accepted : ℕ)
    (s : State) (hI : Inv s)
    (hroom : s.pending.length+wrs.length ≤ period indexBits wrQueueSize) :
    Inv (ibvCmdPostRecv qp table s wrs accepted) := by
  induction wrs generalizing s accepted with
  | nil => exact hI
  | cons w ws ih =>
    rw [List.length_cons] at hroom
    apply ih (accepted-1) (pushWr qp table (0 < accepted) s w)
    · exact inv_pushWr qp table _ s w hI (by omega)
    · simp only [pushWr,List.length_append,List.length_singleton]
      omega

theorem Inv.id_unique {s : State} (hI : Inv s) {p p' : Pending} (hp : p ∈ s.pending)
    (hp' : p' ∈ s.pending) (heq : p.id = p'.id) : p = p' := by
  have hnodup : (s.pending.map Pending.id).Nodup :=
    List.pairwise_map.mpr (hI.increasing.imp fun h => Nat.ne_of_lt h)
  exact List.inj_on_of_nodup_map hnodup hp hp' heq

/-- The popped entry is that of the oldest pending receive. -/
theorem popsOwn_iff_oldest (s : State) (opcode id : ℕ) (hI : Inv s)
    (hne : opcode&&&wcRecv ≠ 0 → s.pending ≠ []) :
    PopsOwn s (.completion opcode id) ↔ OldestFirst s (.completion opcode id) := by
  apply imp_congr_right
  intro hop
  cases hpending : s.pending with
  | nil => exact absurd hpending (hne hop)
  | cons oldest rest =>
    obtain ⟨howner,hrecords⟩ := (hpending ▸ hI.queued).front
    rw [List.head?_cons,Option.map_some,howner]
    constructor
    · rintro ⟨h,-⟩
      exact h
    · intro h
      refine ⟨h,fun p' hp' hid' => ?_⟩
      have hsame : oldest = p' := hI.id_unique (by simp [hpending]) (hpending ▸ hp')
        ((Option.some.inj h).trans hid'.symm)
      rw [hrecords,hsame]

theorem popsOwn_iff_oldestFirst (s : State) (e : Event) (hI : Inv s) (hadm : Admissible s e) :
    PopsOwn s e ↔ OldestFirst s e := by
  cases e with
  | postRecv qp table wrs accepted => exact Iff.rfl
  | completion opcode id =>
    refine popsOwn_iff_oldest s opcode id hI fun hop => ?_
    obtain ⟨p,-,hfind⟩ := hadm hop
    exact List.ne_nil_of_mem (List.mem_of_find?_eq_some hfind)

theorem inv_completion (s : State) (opcode id : ℕ) (hI : Inv s)
    (hold : OldestFirst s (.completion opcode id)) : Inv (pollWc s opcode id) := by
  unfold pollWc
  split
  · next hop =>
    have hhead := hold hop
    cases hpending : s.pending with
    | nil => simp [hpending] at hhead
    | cons oldest rest =>
      have hid : oldest.id = id := by simpa [hpending] using hhead
      have hrest : (oldest::rest).eraseP (fun p => p.id = id) = rest := by simp [hid]
      have hincreasing := hI.increasing
      rw [hpending] at hincreasing
      refine ⟨?_,?_,?_⟩
      · rw [hrest]
        exact (hpending ▸ hI.queued).pop
      · rw [hrest]
        exact fun p hp => hI.fresh p (by simp [hpending,hp])
      · rw [hrest]
        exact (List.pairwise_cons.mp hincreasing).2
  · exact hI

/-- In every interleaving of receive batches and completions, each QP
completing in its own order, every completion pops the records of its own
request exactly when the completions of all QPs together come in the order of
posting. -/
theorem pops_own_iff (events : List Event) (hadm : Along step Admissible started events) :
    Along step PopsOwn started events ↔ Along step OldestFirst started events := by
  apply along_congr step Admissible PopsOwn OldestFirst Inv popsOwn_iff_oldestFirst
  · intro s e t hI hadm hown ht
    cases e with
    | postRecv qp table wrs accepted =>
      obtain rfl := Option.some.inj ht
      exact inv_postRecv qp table wrs accepted s hI hadm
    | completion opcode id =>
      obtain rfl := Option.some.inj ht
      exact inv_completion s opcode id hI ((popsOwn_iff_oldestFirst s _ hI hadm).mp hown)
  · exact inv_started
  · exact hadm

def demoTable : ℕ → MrShm := fun _ => ⟨0,4096⟩

def firstReceive : Pending := ⟨0,1,true,[sgeRecord demoTable ⟨16,8,7⟩]⟩

def secondReceive : Pending := ⟨1,2,true,[sgeRecord demoTable ⟨32,8,7⟩]⟩

/-- Receives of QPs 1 and 2 in posting order; the first of them completes
first. -/
theorem ordered_completions_pop_own : Along step PopsOwn started
    [.postRecv 1 demoTable [[⟨16,8,7⟩]] 1,.postRecv 2 demoTable [[⟨32,8,7⟩]] 1,
      .completion wcRecv 0,.completion wcRecv 1] := by
  apply (pops_own_iff _ _).mpr
  · refine ⟨trivial,?_⟩
    rintro _ ⟨⟩
    refine ⟨trivial,?_⟩
    rintro _ ⟨⟩
    refine ⟨fun _ => rfl,?_⟩
    rintro _ ⟨⟩
    exact ⟨fun _ => rfl,fun _ _ => trivial⟩
  · refine ⟨(by decide : 0+1 ≤ period indexBits wrQueueSize),?_⟩
    rintro _ ⟨⟩
    refine ⟨(by decide : 1+1 ≤ period indexBits wrQueueSize),?_⟩
    rintro _ ⟨⟩
    refine ⟨fun _ => ⟨firstReceive,rfl,rfl⟩,?_⟩
    rintro _ ⟨⟩
    exact ⟨fun _ => ⟨secondReceive,rfl,rfl⟩,fun _ _ => trivial⟩

/-- The receive of QP 2 completes first: its completion copies into address
16, the buffer of QP 1. -/
theorem crossed_completion_pops_other :
    Along step Admissible started
      [.postRecv 1 demoTable [[⟨16,8,7⟩]] 1,.postRecv 2 demoTable [[⟨32,8,7⟩]] 1,
        .completion wcRecv 1] ∧
    ¬Along step PopsOwn started
      [.postRecv 1 demoTable [[⟨16,8,7⟩]] 1,.postRecv 2 demoTable [[⟨32,8,7⟩]] 1,
        .completion wcRecv 1] ∧
    ∃ s, run step started [.postRecv 1 demoTable [[⟨16,8,7⟩]] 1,
        .postRecv 2 demoTable [[⟨32,8,7⟩]] 1] = some s ∧
      (front s.ring).records.map SgeRecord.mrAddr = [16] := by
  refine ⟨?_,?_,_,rfl,by decide⟩
  · refine ⟨(by decide : 0+1 ≤ period indexBits wrQueueSize),?_⟩
    rintro _ ⟨⟩
    refine ⟨(by decide : 1+1 ≤ period indexBits wrQueueSize),?_⟩
    rintro _ ⟨⟩
    exact ⟨fun _ => ⟨secondReceive,rfl,rfl⟩,fun _ _ => trivial⟩
  · intro hown
    have howner := ((hown.2 _ rfl).2 _ rfl).1 (by decide)
    exact absurd howner.1 (by decide)

end FreeFlow.ReceiveRecords
