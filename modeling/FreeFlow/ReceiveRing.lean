import FreeFlow.ReceiveRecords

/-!
# What a receive ring holds

`ibv_cmd_post_recv` and `ibv_cmd_post_srq_recv` write the records of a batch
into the ring of the CQ or of the SRQ before the router is asked, and nothing
takes them back when the driver rejects a part of the batch. The ring holds
what its 16-bit indices can tell apart, which is less than its
`WR_QUEUE_SIZE` entries.

An entry is known by its owner, the number of the request it was written for.
-/

set_option autoImplicit false

namespace FreeFlow.ReceiveRing

open RegisteredMemory (Sge SgeRecord wcRecv)
open ReceiveRecords RingQueue Runs

/-- The entries of the ring; `next` numbers the requests. -/
structure Ring where
  queue : Queue Entry
  next : ℕ
  head_lt : queue.head < period indexBits wrQueueSize
  tail_lt : queue.tail < period indexBits wrQueueSize
  fresh : ∀ i id, (queue.slot i).owner = some id → id < next

/-- The requests of a batch with their numbers. -/
def numbered (next : ℕ) (wrs : List (List Sge)) : List (List Sge × ℕ) := wrs.zipIdx next

def fillNumbered (table : ℕ → MrShm) (x : List Sge × ℕ) : Entry → Entry :=
  fillEntry table x.2 x.1

def recordWrs (table : ℕ → MrShm) (next : ℕ) (wrs : List (List Sge)) (r : Queue Entry) :
    Queue Entry :=
  pushAll indexBits wrQueueSize (fillNumbered table) r (numbered next wrs)

theorem fillEntry_owner (table : ℕ → MrShm) (id : ℕ) (sges : List Sge) (e : Entry) :
    (fillEntry table id sges e).owner = some id := by
  unfold fillEntry
  split <;> rfl

theorem fillEntry_records (table : ℕ → MrShm) (id : ℕ) (sges : List Sge) (e : Entry) :
    (fillEntry table id sges e).records = sges.map (sgeRecord table) :=
  (fillEntry_pushedFor table id 0 true sges e).2

theorem recordWrs_cons (table : ℕ → MrShm) (next : ℕ) (w : List Sge) (ws : List (List Sge))
    (r : Queue Entry) : recordWrs table next (w::ws) r =
      recordWrs table (next+1) ws (push indexBits wrQueueSize r (fillEntry table next w)) := rfl

theorem recordWrs_tail (table : ℕ → MrShm) (next : ℕ) (wrs : List (List Sge)) (r : Queue Entry) :
    (recordWrs table next wrs r).tail = r.tail := pushAll_tail _ _ _

theorem recordWrs_head (table : ℕ → MrShm) (next : ℕ) (wrs : List (List Sge)) (r : Queue Entry)
    (hhead : r.head < period indexBits wrQueueSize) :
    (recordWrs table next wrs r).head = (r.head+wrs.length)%period indexBits wrQueueSize := by
  rw [recordWrs,pushAll_head _ _ _ hhead,numbered,List.length_zipIdx]

theorem recordWrs_head_lt (table : ℕ → MrShm) (next : ℕ) (wrs : List (List Sge)) (r : Queue Entry)
    (hhead : r.head < period indexBits wrQueueSize) :
    (recordWrs table next wrs r).head < period indexBits wrQueueSize := by
  rw [recordWrs_head table next wrs r hhead]
  exact Nat.mod_lt _ (by decide)

theorem recordWrs_fresh (table : ℕ → MrShm) (next : ℕ) (wrs : List (List Sge)) (r : Queue Entry)
    (hfresh : ∀ i id, (r.slot i).owner = some id → id < next) (i id : ℕ)
    (howner : ((recordWrs table next wrs r).slot i).owner = some id) : id < next+wrs.length := by
  induction wrs generalizing next r with
  | nil => exact hfresh i id howner
  | cons w ws ih =>
    rw [recordWrs_cons] at howner
    have hrest := ih (next+1) (push indexBits wrQueueSize r (fillEntry table next w)) ?_ howner
    · rw [List.length_cons]
      omega
    · intro j id' howner'
      rw [push_slot] at howner'
      split at howner'
      · rw [fillEntry_owner] at howner'
        have := Option.some.inj howner'
        omega
      · exact Nat.lt_succ_of_lt (hfresh j id' howner')

/-- The loop over the batch, common to both calls. -/
def postLoop (table : ℕ → MrShm) (wrs : List (List Sge)) (r : Ring) : Ring where
  queue := recordWrs table r.next wrs r.queue
  next := r.next+wrs.length
  head_lt := recordWrs_head_lt table r.next wrs r.queue r.head_lt
  tail_lt := (recordWrs_tail table r.next wrs r.queue).trans_lt r.tail_lt
  fresh := recordWrs_fresh table r.next wrs r.queue r.fresh

-- The number of accepted requests arrives after the loop.
def ibvCmdPostRecv (table : ℕ → MrShm) (wrs : List (List Sge)) (_accepted : ℕ) (r : Ring) : Ring :=
  postLoop table wrs r

def ibvCmdPostSrqRecv (table : ℕ → MrShm) (wrs : List (List Sge)) (_accepted : ℕ) (r : Ring) :
    Ring := postLoop table wrs r

inductive Call
  | postRecv
  | postSrqRecv

def Call.post : Call → (ℕ → MrShm) → List (List Sge) → ℕ → Ring → Ring
  | .postRecv => ibvCmdPostRecv
  | .postSrqRecv => ibvCmdPostSrqRecv

theorem Call.post_eq (call : Call) (table : ℕ → MrShm) (wrs : List (List Sge)) (accepted : ℕ)
    (r : Ring) : call.post table wrs accepted r = postLoop table wrs r := by
  cases call <;> rfl

/-- The ring of a CQ as the runs of `ReceiveRecords` see it. -/
theorem postRecv_ring (qp : ℕ) (table : ℕ → MrShm) (s : State) (wrs : List (List Sge))
    (accepted : ℕ) :
    (ReceiveRecords.ibvCmdPostRecv qp table s wrs accepted).ring =
      recordWrs table s.next wrs s.ring := by
  induction wrs generalizing s accepted with
  | nil => rfl
  | cons w ws ih => exact ih (pushWr qp table (0 < accepted) s w) (accepted-1)

abbrev Record := Option ℕ × List SgeRecord

def entryRecord (e : Entry) : Record := (e.owner,e.records)

/-- The pending records, from the tail to the head. -/
def pendingRecords (r : Ring) : List Record :=
  (contents (period indexBits wrQueueSize) r.queue).map entryRecord

def wrRecord (table : ℕ → MrShm) (x : List Sge × ℕ) : Record :=
  (some x.2,x.1.map (sgeRecord table))

/-- The records of the first `k` requests of a batch. -/
def wrRecords (table : ℕ → MrShm) (next : ℕ) (wrs : List (List Sge)) (k : ℕ) : List Record :=
  (numbered next (wrs.take k)).map (wrRecord table)

theorem wrRecords_length (table : ℕ → MrShm) (next : ℕ) (wrs : List (List Sge)) (k : ℕ)
    (hk : k ≤ wrs.length) : (wrRecords table next wrs k).length = k := by
  rw [wrRecords,List.length_map,numbered,List.length_zipIdx,List.length_take,min_eq_left hk]

theorem fillNumbered_record (table : ℕ → MrShm) (x : List Sge × ℕ) (e : Entry) :
    entryRecord (fillNumbered table x e) = wrRecord table x := by
  rw [entryRecord,fillNumbered,fillEntry_owner,fillEntry_records,wrRecord]

theorem pendingRecords_length_lt (r : Ring) :
    (pendingRecords r).length < period indexBits wrQueueSize := by
  rw [pendingRecords,List.length_map,contents_length]
  exact Nat.mod_lt _ (by decide)

/-- Where the batch fits, all its records are queued. -/
theorem pendingRecords_of_fits (table : ℕ → MrShm) (wrs : List (List Sge)) (r : Ring)
    (hfits : (pendingRecords r).length+wrs.length < period indexBits wrQueueSize) :
    pendingRecords (postLoop table wrs r) =
      pendingRecords r++wrRecords table r.next wrs wrs.length := by
  have hold := holds_contents entryRecord r.head_lt r.tail_lt
  have hnum : (numbered r.next wrs).length = wrs.length := List.length_zipIdx
  have hnew := hold.pushAll (fillNumbered table) (numbered r.next wrs)
    (by rw [hnum]; exact hfits.le) (wrRecord table) (fillNumbered_record table)
  refine (hnew.contents entryRecord ?_).trans ?_
  · rw [List.length_append,List.length_map (wrRecord table),hnum]
    exact hfits
  · rw [wrRecords,List.take_length,pendingRecords]

theorem pendingRecords_length (table : ℕ → MrShm) (wrs : List (List Sge)) (r : Ring) :
    (pendingRecords (postLoop table wrs r)).length =
      ((pendingRecords r).length+wrs.length)%period indexBits wrQueueSize := by
  have hlt := pendingRecords_length_lt (postLoop table wrs r)
  have hhead := head_of_contents r.head_lt r.tail_lt
  have hpost := head_of_contents (postLoop table wrs r).head_lt (postLoop table wrs r).tail_lt
  rw [show (contents _ r.queue).length = (pendingRecords r).length by simp [pendingRecords]]
    at hhead
  rw [show (contents _ (postLoop table wrs r).queue).length =
    (pendingRecords (postLoop table wrs r)).length by simp [pendingRecords]] at hpost
  change (recordWrs table r.next wrs r.queue).head =
    ((recordWrs table r.next wrs r.queue).tail+_)%_ at hpost
  rw [recordWrs_head _ _ _ _ r.head_lt,recordWrs_tail,hhead,Nat.mod_add_mod,Nat.add_assoc] at hpost
  have hcount := Nat.ModEq.add_left_cancel' r.queue.tail hpost
  rw [← Nat.mod_eq_of_lt hlt]
  exact hcount.symm

/-- Where a batch runs round the ring, the entry at the tail was written for a
request behind the first of the batch. -/
theorem tail_owner_of_not_fits (table : ℕ → MrShm) (next : ℕ) (wrs : List (List Sge))
    (r : Queue Entry) (p : ℕ) (htail : r.tail < period indexBits wrQueueSize)
    (hhead : r.head = (r.tail+p)%period indexBits wrQueueSize)
    (hp : p < period indexBits wrQueueSize)
    (hnot : period indexBits wrQueueSize < p+wrs.length) :
    ∃ id, ((recordWrs table next wrs r).slot r.tail).owner = some id ∧ next < id := by
  have hn : 0 < period indexBits wrQueueSize := by decide
  -- the last multiple of the period among the counters the batch runs through
  have hdiv := Nat.div_add_mod (p+wrs.length-1) (period indexBits wrQueueSize)
  have hmod := Nat.mod_lt (p+wrs.length-1) hn
  have hround : period indexBits wrQueueSize ≤
      period indexBits wrQueueSize*((p+wrs.length-1)/period indexBits wrQueueSize) :=
    Nat.le_mul_of_pos_right _ (Nat.div_pos (by omega) hn)
  obtain ⟨i,hi⟩ := Nat.exists_eq_add_of_le (hp.le.trans hround)
  have hlt : i < wrs.length := by omega
  have hx : (numbered next wrs)[i]? = some (wrs[i],next+i) := by
    simp [numbered,hlt]
  obtain ⟨e,he⟩ := pushAll_slot (fillNumbered table) r (numbered next wrs) i _
    (hhead ▸ Nat.mod_lt _ hn) hx (by rw [numbered,List.length_zipIdx]; omega)
  have hslot : (r.head+i)%period indexBits wrQueueSize = r.tail := by
    rw [hhead,Nat.mod_add_mod,Nat.add_assoc,← hi,Nat.add_mul_mod_self_left,Nat.mod_eq_of_lt htail]
  rw [hslot] at he
  refine ⟨next+i,?_,by omega⟩
  rw [recordWrs,he,fillNumbered,fillEntry_owner]

theorem pendingRecords_head (r : Ring) (hsome : 0 < (pendingRecords r).length) :
    (pendingRecords r)[0]? = some (entryRecord (r.queue.slot r.queue.tail)) := by
  rw [pendingRecords,List.length_map,contents_length] at hsome
  rw [pendingRecords,List.getElem?_map,contents_get _ _ 0 hsome,Nat.add_zero,
    Nat.mod_eq_of_lt r.tail_lt]
  rfl

theorem expected_owner (table : ℕ → MrShm) (wrs : List (List Sge)) (k : ℕ) (r : Ring) (id : ℕ)
    (xs : List SgeRecord)
    (hfirst : (pendingRecords r++wrRecords table r.next wrs k)[0]? = some (some id,xs)) :
    id ≤ r.next := by
  cases hold : pendingRecords r with
  | nil =>
    rw [hold,List.nil_append,wrRecords,List.getElem?_map,Option.map_eq_some_iff] at hfirst
    obtain ⟨x,hx,hid⟩ := hfirst
    have hnum : x.2 = r.next := by
      rw [numbered,List.getElem?_zipIdx,Option.map_eq_some_iff] at hx
      obtain ⟨w,-,rfl⟩ := hx
      rfl
    simp only [wrRecord,Prod.mk.injEq,Option.some.injEq] at hid
    omega
  | cons c cs =>
    have hsome : 0 < (pendingRecords r).length := by simp [hold]
    rw [List.getElem?_append_left hsome,pendingRecords_head r hsome] at hfirst
    have howner := congrArg Prod.fst (Option.some.inj hfirst)
    exact (r.fresh _ _ howner).le

/-- Both calls leave the pending records followed by those of the accepted
requests exactly when the whole batch was accepted and the ring has room for
it. An empty ring also comes out right when the batch is rejected as a whole
and its entries run round the ring a whole number of times. -/
theorem post_records_accepted_iff (call : Call) (table : ℕ → MrShm) (wrs : List (List Sge)) (k : ℕ)
    (hk : k ≤ wrs.length) (r : Ring) :
    pendingRecords (call.post table wrs k r) = pendingRecords r++wrRecords table r.next wrs k ↔
      (k = wrs.length ∧ (pendingRecords r).length+wrs.length < period indexBits wrQueueSize) ∨
      (k = 0 ∧ (pendingRecords r).length = 0 ∧ period indexBits wrQueueSize ∣ wrs.length) := by
  rw [call.post_eq]
  have hlength := pendingRecords_length table wrs r
  have hk' := wrRecords_length table r.next wrs k hk
  constructor
  · intro heq
    have hcount := congrArg List.length heq
    rw [hlength,List.length_append,hk'] at hcount
    by_cases hfits : (pendingRecords r).length+wrs.length < period indexBits wrQueueSize
    · rw [Nat.mod_eq_of_lt hfits] at hcount
      exact Or.inl ⟨by omega,hfits⟩
    · right
      by_cases hempty : (pendingRecords r).length+k = 0
      · obtain ⟨hp,rfl⟩ := Nat.add_eq_zero_iff.mp hempty
        rw [hempty,hp,Nat.zero_add] at hcount
        exact ⟨rfl,hp,Nat.dvd_of_mod_eq_zero hcount⟩
      · exfalso
        have hround : period indexBits wrQueueSize < (pendingRecords r).length+wrs.length := by
          refine lt_of_le_of_ne (not_lt.mp hfits) fun hfull => ?_
          rw [← hfull,Nat.mod_self] at hcount
          omega
        obtain ⟨id,howner,hlt⟩ := tail_owner_of_not_fits table r.next wrs r.queue
          (pendingRecords r).length r.tail_lt
          (by simpa [pendingRecords] using head_of_contents r.head_lt r.tail_lt)
          (pendingRecords_length_lt r) hround
        have hsome : 0 < (pendingRecords (postLoop table wrs r)).length := by
          rw [hlength,hcount]
          omega
        have hfirst := pendingRecords_head _ hsome
        rw [heq] at hfirst
        have htail : (postLoop table wrs r).queue.tail = r.queue.tail :=
          recordWrs_tail table r.next wrs r.queue
        rw [htail,entryRecord,show ((postLoop table wrs r).queue.slot r.queue.tail).owner = some id
          from howner] at hfirst
        have := expected_owner table wrs k r id _ hfirst
        omega
  · rintro (⟨rfl,hfits⟩ | ⟨rfl,hempty,hround⟩)
    · exact pendingRecords_of_fits table wrs r hfits
    · have hnil : pendingRecords (postLoop table wrs r) = [] := by
        apply List.eq_nil_of_length_eq_zero
        rw [hlength,hempty,Nat.zero_add]
        exact Nat.mod_eq_zero_of_dvd hround
      rw [hnil,List.eq_nil_of_length_eq_zero hempty,List.eq_nil_of_length_eq_zero hk']
      rfl

def emptyRing : Ring := ⟨started.ring,0,by decide,by decide,by simp [started]⟩

theorem accepted_batch_recorded :
    pendingRecords (Call.postSrqRecv.post demoTable [[⟨16,8,7⟩],[]] 2 emptyRing) =
      [(some 0,[sgeRecord demoTable ⟨16,8,7⟩]),(some 1,[])] :=
  (post_records_accepted_iff .postSrqRecv demoTable [[⟨16,8,7⟩],[]] 2 (by decide) emptyRing).mpr
    (Or.inl ⟨rfl,by decide⟩)

/-- A rejected receive stays in the ring. -/
theorem rejected_receive_recorded :
    pendingRecords (Call.postRecv.post demoTable [[⟨16,8,7⟩]] 0 emptyRing) =
      [(some 0,[sgeRecord demoTable ⟨16,8,7⟩])] ∧
    pendingRecords (Call.postRecv.post demoTable [[⟨16,8,7⟩]] 0 emptyRing) ≠
      pendingRecords emptyRing++wrRecords demoTable 0 [[⟨16,8,7⟩]] 0 := by
  have hrecords := pendingRecords_of_fits demoTable [[⟨16,8,7⟩]] emptyRing (by decide)
  refine ⟨hrecords,fun h => ?_⟩
  have hlength := congrArg List.length h
  exact absurd hlength (by decide)

section SingleQp

/-- A CQ used by one QP: at most `WR_QUEUE_SIZE` accepted receives are
outstanding and they complete in the order of posting. -/
def SingleQp (qp : ℕ) (s : State) : Event → Prop
  | .postRecv qp' _ wrs accepted => qp' = qp ∧ accepted ≤ wrs.length ∧
    (s.pending.filter Pending.accepted).length+accepted ≤ wrQueueSize
  | .completion opcode id => opcode&&&wcRecv ≠ 0 →
    (s.pending.find? Pending.accepted).map Pending.id = some id

/-- Every pending record stands where the completions will look for it. -/
def Intact (s : State) : Prop := ∀ i p, s.pending[i]? = some p →
  PushedFor (s.ring.slot ((s.ring.tail+i)%period indexBits wrQueueSize)) p

/-- A batch overwrites no pending record, and a completion reads the record
of its own receive. -/
def Sound (s : State) : Event → Prop
  | .postRecv qp table wrs accepted =>
    Intact (ReceiveRecords.ibvCmdPostRecv qp table s wrs accepted)
  | .completion opcode id => PopsOwn s (.completion opcode id)

/-- The records fit the 16-bit indices, and no rejected receive stands before
the completed one. -/
def InRing (s : State) : Event → Prop
  | .postRecv _ _ wrs _ => s.pending.length+wrs.length ≤ period indexBits wrQueueSize
  | .completion opcode id => OldestFirst s (.completion opcode id)

theorem postRecv_pending_length (qp : ℕ) (table : ℕ → MrShm) (s : State) (wrs : List (List Sge))
    (accepted : ℕ) :
    (ReceiveRecords.ibvCmdPostRecv qp table s wrs accepted).pending.length =
      s.pending.length+wrs.length := by
  induction wrs generalizing s accepted with
  | nil => rfl
  | cons w ws ih =>
    refine (ih (pushWr qp table (0 < accepted) s w) (accepted-1)).trans ?_
    rw [pushWr,List.length_append,List.length_singleton,List.length_cons]
    omega

theorem postRecv_keeps_pending (qp : ℕ) (table : ℕ → MrShm) (s : State) (wrs : List (List Sge))
    (accepted : ℕ) :
    s.pending <+: (ReceiveRecords.ibvCmdPostRecv qp table s wrs accepted).pending := by
  induction wrs generalizing s accepted with
  | nil => exact List.prefix_rfl
  | cons w ws ih =>
    exact (List.prefix_append _ _).trans (ih (pushWr qp table (0 < accepted) s w) (accepted-1))

theorem postRecv_increasing (qp : ℕ) (table : ℕ → MrShm) (s : State) (wrs : List (List Sge))
    (accepted : ℕ) (hfresh : ∀ p ∈ s.pending, p.id < s.next)
    (hincreasing : s.pending.Pairwise fun p p' => p.id < p'.id) :
    (ReceiveRecords.ibvCmdPostRecv qp table s wrs accepted).pending.Pairwise
      fun p p' => p.id < p'.id := by
  induction wrs generalizing s accepted with
  | nil => exact hincreasing
  | cons w ws ih =>
    obtain ⟨hfresh',hincreasing'⟩ := order_pushWr qp table (0 < accepted) s w hfresh hincreasing
    exact ih _ _ hfresh' hincreasing'

/-- Entries a period apart share a slot, which holds the record of one
receive. -/
theorem length_le_of_intact (s : State) (hincreasing : s.pending.Pairwise fun p p' => p.id < p'.id)
    (hintact : Intact s) : s.pending.length ≤ period indexBits wrQueueSize := by
  by_contra hlong
  have hlt : period indexBits wrQueueSize < s.pending.length := not_le.mp hlong
  have hpos : 0 < period indexBits wrQueueSize := by decide
  have hfirst := hintact 0 _ (List.getElem?_eq_getElem (hpos.trans hlt))
  have hlast := hintact _ _ (List.getElem?_eq_getElem hlt)
  rw [Nat.add_zero] at hfirst
  rw [Nat.add_mod_right] at hlast
  have hids := Option.some.inj (hfirst.1.symm.trans hlast.1)
  exact absurd hids (Nat.ne_of_lt (List.pairwise_iff_getElem.mp hincreasing _ _ _ hlt hpos))

theorem intact_iff_fits (qp : ℕ) (table : ℕ → MrShm) (s : State) (wrs : List (List Sge))
    (accepted : ℕ) (hI : Inv s) :
    Intact (ReceiveRecords.ibvCmdPostRecv qp table s wrs accepted) ↔
      s.pending.length+wrs.length ≤ period indexBits wrQueueSize := by
  constructor
  · intro hintact
    rw [← postRecv_pending_length qp table s wrs accepted]
    exact length_le_of_intact _
      (postRecv_increasing qp table s wrs accepted hI.fresh hI.increasing) hintact
  · intro hfits
    exact (inv_postRecv qp table wrs accepted s hI hfits).queued.slots

theorem sound_iff_inRing (qp : ℕ) (s : State) (e : Event) (hI : Inv s) (hsingle : SingleQp qp s e) :
    Sound s e ↔ InRing s e := by
  cases e with
  | postRecv qp' table wrs accepted => exact intact_iff_fits qp' table s wrs accepted hI
  | completion opcode id =>
    refine popsOwn_iff_oldest s opcode id hI fun hop hnil => ?_
    have hfind := hsingle hop
    simp [hnil] at hfind

/-- On a CQ used by one QP whose receives complete in the order of posting, no
pending record is overwritten and every completion reads the record of its
own receive exactly when the pending records, those of rejected receives
included, never outnumber the values of the 16-bit indices and no rejected
receive stands before a completed one. -/
theorem single_qp_sound_iff (qp : ℕ) (events : List Event)
    (hsingle : Along step (SingleQp qp) started events) :
    Along step Sound started events ↔ Along step InRing started events := by
  apply along_congr step (SingleQp qp) Sound InRing Inv (sound_iff_inRing qp)
  · intro s e t hI hsingle hsound ht
    have hring := (sound_iff_inRing qp s e hI hsingle).mp hsound
    cases e with
    | postRecv qp' table wrs accepted =>
      obtain rfl := Option.some.inj ht
      exact inv_postRecv qp' table wrs accepted s hI hring
    | completion opcode id =>
      obtain rfl := Option.some.inj ht
      exact inv_completion s opcode id hI hring
  · exact inv_started
  · exact hsingle

theorem two_receives_in_ring : Along step Sound started
    [.postRecv 1 demoTable [[⟨16,8,7⟩],[⟨32,8,7⟩]] 2,.completion wcRecv 0,
      .completion wcRecv 1] := by
  apply (single_qp_sound_iff 1 _ _).mpr
  · refine ⟨(by decide : 0+2 ≤ period indexBits wrQueueSize),?_⟩
    rintro _ ⟨⟩
    refine ⟨fun _ => rfl,?_⟩
    rintro _ ⟨⟩
    exact ⟨fun _ => rfl,fun _ _ => trivial⟩
  · refine ⟨⟨rfl,by decide,by decide⟩,?_⟩
    rintro _ ⟨⟩
    refine ⟨fun _ => rfl,?_⟩
    rintro _ ⟨⟩
    exact ⟨fun _ => rfl,fun _ _ => trivial⟩

def overfull : List (List Sge) := List.replicate 65536 [⟨16,8,7⟩]++[[⟨32,8,7⟩]]

theorem overfull_length : overfull.length = 65537 := by
  rw [overfull,List.length_append,List.length_replicate,List.length_singleton]

/-- 65537 receives are fewer than `WR_QUEUE_SIZE`. The last of them takes the
entry of the first: the first completion copies to address 32 and not to
address 16. -/
theorem overfull_batch_overwrites :
    Along step (SingleQp 1) started
      [.postRecv 1 demoTable overfull 65537,.completion wcRecv 0] ∧
    ¬Along step Sound started
      [.postRecv 1 demoTable overfull 65537,.completion wcRecv 0] ∧
    ∃ s, run step started [.postRecv 1 demoTable overfull 65537] = some s ∧
      (front s.ring).records.map SgeRecord.mrAddr = [32] := by
  have hcons : overfull = [⟨16,8,7⟩]::(List.replicate 65535 [⟨16,8,7⟩]++[[⟨32,8,7⟩]]) := by
    rw [overfull,List.replicate_succ,List.cons_append]
  refine ⟨⟨⟨rfl,overfull_length.ge,by decide⟩,?_⟩,?_,_,rfl,?_⟩
  · intro s hs
    obtain rfl := Option.some.inj hs
    refine ⟨fun _ => ?_,fun _ _ => trivial⟩
    obtain ⟨rest,hrest⟩ := postRecv_keeps_pending 1 demoTable
      (pushWr 1 demoTable (0 < 65537) started [⟨16,8,7⟩])
      (List.replicate 65535 [⟨16,8,7⟩]++[[⟨32,8,7⟩]]) (65537-1)
    rw [hcons,ReceiveRecords.ibvCmdPostRecv,← hrest]
    rfl
  · intro hsound
    have hfits := (intact_iff_fits 1 demoTable started overfull 65537 inv_started).mp hsound.1
    rw [overfull_length,show started.pending.length = 0 from rfl] at hfits
    exact absurd hfits (by decide)
  · have hlast : (numbered started.next overfull)[65536]? =
        some ([⟨32,8,7⟩],started.next+65536) := by
      rw [numbered,List.getElem?_zipIdx,overfull,
        List.getElem?_append_right List.length_replicate.le,List.length_replicate]
      rfl
    have hround : (numbered started.next overfull).length ≤
        65536+period indexBits wrQueueSize := by
      rw [numbered,List.length_zipIdx,overfull_length]
      decide
    obtain ⟨e,he⟩ := pushAll_slot (fillNumbered demoTable) started.ring
      (numbered started.next overfull) 65536 _ (show 0 < _ by decide) hlast hround
    rw [show (started.ring.head+65536)%period indexBits wrQueueSize = started.ring.tail from rfl]
      at he
    rw [front,postRecv_ring,recordWrs_tail,recordWrs,he,fillNumbered,fillEntry_records]
    rfl

end SingleQp

end FreeFlow.ReceiveRing
