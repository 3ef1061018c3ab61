import FreeFlow.RingAccess
import FreeFlow.Threads
import Mathlib.Algebra.Order.Group.Multiset
import Mathlib.Data.List.Nodup
import Mathlib.Tactic.Abel

/-!
# Posts of several QPs into one ring

`ibv_cmd_post_recv` holds the mutex of its QP. QPs that share a `recv_cq` push
into one ring under different mutexes, and the spin lock around the index is
commented out: between the read of `head` and its increment another QP may
read the same value.

A thread stands for the QP whose mutex it holds. `claimed` collects the values
of `wr_index` in the order in which they were read, each with the request it was
read for, and `posted` the requests of all calls.
-/

set_option autoImplicit false

namespace FreeFlow.RingRace

open RegisteredMemory (SgeRecord)
open ReceiveRecords (wrQueueSize)
open RingAccess Runs Threads

inductive Thread
  | idle
  | posting (w : List SgeRecord) (rest : List (List SgeRecord)) (pc : PushPc)
  | handing

/-- The next request of the list, or the request to the router. -/
def nextWr : List (List SgeRecord) → Thread := RingAccess.nextWr .posting .handing

def proceed : List SgeRecord → List (List SgeRecord) → Option PushPc → Thread :=
  RingAccess.proceed .posting .handing

variable {n : ℕ}

structure State (n : ℕ) where
  mem : Mem
  threads : Fin n → Thread
  claimed : List (ℕ × List SgeRecord)
  posted : List (List SgeRecord)

def started (n : ℕ) (m : Mem) : State n := ⟨m,fun _ => .idle,[],[]⟩

inductive Event (n : ℕ)
  | call (t : Fin n) (wrs : List (List SgeRecord))
  | access (t : Fin n)
  | answer (t : Fin n)

/-- The position an access claims. -/
def claims (w : List SgeRecord) (m : Mem) : PushPc → List (ℕ × List SgeRecord)
  | .index => [(m.head,w)]
  | _ => []

def access (s : State n) (t : Fin n) (w : List SgeRecord) (rest : List (List SgeRecord))
    (pc : PushPc) : State n :=
  {s with mem := (pushAccess w s.mem pc).1
          threads := Function.update s.threads t (proceed w rest (pushAccess w s.mem pc).2)
          claimed := s.claimed++claims w s.mem pc}

/-- A call begins with the mutex of the QP, performs its accesses one by one
and ends with the answer of the router. -/
def step (s : State n) : Event n → Option (State n)
  | .call t wrs =>
    match s.threads t with
    | .idle => some {s with threads := Function.update s.threads t (nextWr wrs)
                            posted := s.posted++wrs}
    | _ => none
  | .access t =>
    match s.threads t with
    | .posting w rest pc => some (access s t w rest pc)
    | _ => none
  | .answer t =>
    match s.threads t with
    | .handing => some {s with threads := Function.update s.threads t .idle}
    | _ => none

/-- With the `pending` receives of the start, fewer are outstanding than the
ring can hold. -/
def Room (pending : ℕ) (s : State n) : Event n → Prop
  | .call _ wrs => pending+s.posted.length+wrs.length < slots
  | _ => True

def Quiet (s : State n) : Prop := ∀ t, s.threads t = .idle

/-- The entry at a position counts the records of a request, and its block has them. -/
def Holds (m : Mem) (i : ℕ) (w : List SgeRecord) : Prop :=
  m.sgeNum i = w.length ∧ ∀ k < 3*w.length, m.heap (m.sgeQueue i) k = (words w).getD k 0

instance (m : Mem) (i : ℕ) (w : List SgeRecord) : Decidable (Holds m i w) :=
  inferInstanceAs (Decidable (_ ∧ _))

/-- The requests stand at different positions. When all calls have returned, `head` has advanced by
their number, every request has a position, and the entry there has its records. -/
structure Recorded (start : ℕ) (s : State n) : Prop where
  apart : (s.claimed.map Prod.fst).Nodup
  head : Quiet s → s.mem.head = (start+s.posted.length)%slots
  all : Quiet s → (s.claimed.map Prod.snd).Perm s.posted
  held : Quiet s → ∀ c ∈ s.claimed, Holds s.mem c.1 c.2

/-- The thread reads `wr_index`. -/
def Thread.indexing : Thread → Bool
  | .posting _ _ .index => true
  | _ => false

/-- The thread has read `wr_index` and has not advanced `head` yet. -/
def Thread.claiming : Thread → Option Unit
  | .posting _ _ (.load _) => some ()
  | .posting _ _ (.store _ _) => some ()
  | _ => none

/-- No thread reads `wr_index` while another one is between its own read and
the increment. -/
def Exclusive (s : State n) : Event n → Prop
  | .access t => (s.threads t).indexing → ∀ t', t' ≠ t → (s.threads t').claiming = none
  | _ => True

instance (pending : ℕ) (s : State n) : ∀ e, Decidable (Room pending s e)
  | .call _ wrs => inferInstanceAs (Decidable (pending+s.posted.length+wrs.length < slots))
  | .access _ => isTrue trivial
  | .answer _ => isTrue trivial

instance (s : State n) : ∀ e, Decidable (Exclusive s e)
  | .access t => inferInstanceAs (Decidable
      ((s.threads t).indexing → ∀ t', t' ≠ t → (s.threads t').claiming = none))
  | .call _ _ => isTrue trivial
  | .answer _ => isTrue trivial

/-- The requests of a call that have no position yet. -/
def Thread.unclaimed : Thread → Multiset (List SgeRecord)
  | .posting w rest .index => (w::rest : List (List SgeRecord))
  | .posting _ rest _ => rest
  | _ => 0

/-- The index, the threads and the claimed positions as long as the reads of
`wr_index` were exclusive. -/
structure Ledger (start pending head : ℕ) (threads : Fin n → Thread)
    (claimed : List (ℕ × List SgeRecord)) (posted : List (List SgeRecord)) : Prop where
  positions : claimed.map Prod.fst = (List.range claimed.length).map fun k => (start+k)%slots
  apart : Apart Thread.claiming threads
  head_lt : head < slots
  free : (∀ t, (threads t).claiming = none) → head = (start+claimed.length)%slots
  held : ∀ t, (threads t).claiming = some () → ∃ k, claimed.length = k+1 ∧ head = (start+k)%slots
  read : ∀ t w rest i v, threads t = .posting w rest (.store i v) → v = head
  noReset : ∀ t w rest i, threads t ≠ .posting w rest (.reset i)
  account : (posted : Multiset (List SgeRecord)) =
    (claimed.map Prod.snd : List (List SgeRecord))+∑ t, (threads t).unclaimed
  room : pending+posted.length < slots

def Inv (start pending : ℕ) (s : State n) : Prop :=
  Ledger start pending s.mem.head s.threads s.claimed s.posted

theorem inv_started (m : Mem) (pending : ℕ) (hhead : m.head < slots) (hpending : pending < slots) :
    Inv m.head pending (started n m) where
  positions := rfl
  apart := fun t t' x h => absurd h (by simp [started,Thread.claiming])
  head_lt := hhead
  free := fun _ => (Nat.mod_eq_of_lt hhead).symm
  held := fun t h => absurd h (by simp [started,Thread.claiming])
  read := fun t w rest i v h => absurd h (by simp [started])
  noReset := fun t w rest i => by simp [started]
  account := by simp [started,Thread.unclaimed]
  room := hpending

theorem nextWr_claiming (wrs : List (List SgeRecord)) : (nextWr wrs).claiming = none := by
  cases wrs <;> rfl

theorem nextWr_unclaimed (wrs : List (List SgeRecord)) : (nextWr wrs).unclaimed = wrs := by
  cases wrs <;> rfl

theorem nextWr_noReset (wrs : List (List SgeRecord)) (w : List SgeRecord)
    (rest : List (List SgeRecord)) (i : ℕ) : nextWr wrs ≠ .posting w rest (.reset i) := by
  cases wrs <;> simp [nextWr,RingAccess.nextWr]

section Moves

variable {start pending head : ℕ} {threads : Fin n → Thread} {claimed : List (ℕ × List SgeRecord)}
  {posted : List (List SgeRecord)}

/-- No thread tests `head` above the end of the ring. -/
theorem Ledger.noReset_update (h : Ledger start pending head threads claimed posted) (t : Fin n)
    (th : Thread) (hth : ∀ w rest i, th ≠ .posting w rest (.reset i)) :
    ∀ t' w rest i, Function.update threads t th t' ≠ .posting w rest (.reset i) :=
  (Function.forall_update_iff threads fun _ th => ∀ w rest i, th ≠ .posting w rest (.reset i)).mpr
    ⟨hth,fun t' _ => h.noReset t'⟩

/-- A thread that is to write `head` still has its value. -/
theorem Ledger.read_update (h : Ledger start pending head threads claimed posted) (t : Fin n)
    (th : Thread) (hth : ∀ w rest i v, th = .posting w rest (.store i v) → v = head) :
    ∀ t' w rest i v, Function.update threads t th t' = .posting w rest (.store i v) → v = head :=
  (Function.forall_update_iff threads fun _ th => ∀ w rest i v,
    th = .posting w rest (.store i v) → v = head).mpr ⟨hth,fun t' _ => h.read t'⟩

/-- A thread claims the requests `ks` and gets the requests `new`. -/
theorem Ledger.account_update (h : Ledger start pending head threads claimed posted) (t : Fin n)
    (th : Thread) (ks new : Multiset (List SgeRecord))
    (hcount : th.unclaimed+ks = (threads t).unclaimed+new) :
    (posted : Multiset (List SgeRecord))+new = (claimed.map Prod.snd : List (List SgeRecord))+ks+
      ∑ t', (Function.update threads t th t').unclaimed := by
  have hsum := sum_update Thread.unclaimed threads t th
  have haccount := h.account
  generalize (claimed.map Prod.snd : Multiset (List SgeRecord)) = recorded at haccount ⊢
  refine add_right_cancel (b := (threads t).unclaimed) ?_
  calc (posted : Multiset (List SgeRecord))+new+(threads t).unclaimed
      = recorded+∑ t', (threads t').unclaimed+((threads t).unclaimed+new) := by
        rw [haccount]
        abel
    _ = recorded+ks+(∑ t', (threads t').unclaimed+th.unclaimed) := by
        rw [← hcount]
        abel
    _ = recorded+ks+∑ t', (Function.update threads t th t').unclaimed+(threads t).unclaimed := by
        rw [← hsum,add_assoc (recorded+ks)]

theorem Ledger.account_same (h : Ledger start pending head threads claimed posted) (t : Fin n)
    (th : Thread) (hcount : th.unclaimed = (threads t).unclaimed) :
    (posted : Multiset (List SgeRecord)) = (claimed.map Prod.snd : List (List SgeRecord))+
      ∑ t', (Function.update threads t th t').unclaimed := by
  have hsame := h.account_update t th 0 0 (by rw [hcount])
  rwa [add_zero,add_zero] at hsame

/-- A thread that neither was nor is between the read of `wr_index` and the
increment moves on; the requests `new` are new. -/
theorem Ledger.move (h : Ledger start pending head threads claimed posted) (t : Fin n) (th : Thread)
    (new : List (List SgeRecord)) (hold : (threads t).claiming = none) (hnew : th.claiming = none)
    (hreset : ∀ w rest i, th ≠ .posting w rest (.reset i))
    (hcount : th.unclaimed = (threads t).unclaimed+new)
    (hroom : pending+(posted++new).length < slots) :
    Ledger start pending head (Function.update threads t th) claimed (posted++new) where
  positions := h.positions
  apart := h.apart.update fun x hx => absurd (hnew.symm.trans hx) (by simp)
  head_lt := h.head_lt
  free := by
    intro hfree
    apply h.free
    intro t'
    by_cases heq : t' = t
    · rw [heq]
      exact hold
    · have hother := hfree t'
      rwa [Function.update_of_ne heq] at hother
  held := (Function.forall_update_iff threads fun _ th => th.claiming = some () →
      ∃ k, claimed.length = k+1 ∧ head = (start+k)%slots).mpr
    ⟨fun hself => absurd (hnew.symm.trans hself) (by simp),fun t' _ => h.held t'⟩
  read := h.read_update t th fun w rest i v hself => absurd hnew (by simp [hself,Thread.claiming])
  noReset := h.noReset_update t th hreset
  account := by
    rw [← Multiset.coe_add,h.account_update t th 0 new (by rw [add_zero,hcount]),add_zero]
  room := hroom

/-- A thread reads `wr_index` while no other one is before its increment. -/
theorem Ledger.claim (h : Ledger start pending head threads claimed posted) (t : Fin n)
    (w : List SgeRecord) (rest : List (List SgeRecord)) (ht : threads t = .posting w rest .index)
    (hfree : ∀ t', t' ≠ t → (threads t').claiming = none) :
    Ledger start pending head (Function.update threads t (.posting w rest (.load head)))
      (claimed++[(head,w)]) posted := by
  have hnone : ∀ t', (threads t').claiming = none := by
    intro t'
    by_cases heq : t' = t
    · rw [heq,ht]
      rfl
    · exact hfree t' heq
  have hhead := h.free hnone
  have hlength : (claimed++[(head,w)]).length = claimed.length+1 := by
    rw [List.length_append,List.length_singleton]
  constructor
  · rw [hlength,List.range_succ,List.map_append,List.map_append,← h.positions,List.map_singleton,
      List.map_singleton,← hhead]
  · exact h.apart.update fun x _ t' ht' => by simp [hfree t' ht']
  · exact h.head_lt
  · intro hall
    have hself := hall t
    rw [Function.update_self] at hself
    exact absurd hself (by simp [Thread.claiming])
  · intro t' _
    exact ⟨claimed.length,hlength,hhead⟩
  · exact h.read_update t _ (by simp)
  · exact h.noReset_update t _ (by simp)
  · have hclaim := h.account_update t (.posting w rest (.load head)) {w} 0 (by
      rw [ht,add_zero,Thread.unclaimed,Thread.unclaimed,← Multiset.coe_singleton,Multiset.coe_add]
      · exact Multiset.coe_eq_coe.mpr (List.perm_append_singleton w rest)
      · simp)
    rw [add_zero,← Multiset.coe_singleton,Multiset.coe_add] at hclaim
    rw [List.map_append]
    exact hclaim
  · exact h.room

/-- The read of `head++`. -/
theorem Ledger.load (h : Ledger start pending head threads claimed posted) (t : Fin n)
    (w : List SgeRecord) (rest : List (List SgeRecord)) (i : ℕ)
    (ht : threads t = .posting w rest (.load i)) :
    Ledger start pending head (Function.update threads t (.posting w rest (.store i head)))
      claimed posted := by
  have hself : (threads t).claiming = some () := by
    rw [ht]
    rfl
  constructor
  · exact h.positions
  · exact h.apart.move fun x _ => hself
  · exact h.head_lt
  · intro hall
    have hnone := hall t
    rw [Function.update_self] at hnone
    exact absurd hnone (by simp [Thread.claiming])
  · intro t' _
    exact h.held t hself
  · refine h.read_update t _ fun w' rest' i' v hself => ?_
    simp only [Thread.posting.injEq,PushPc.store.injEq] at hself
    exact hself.2.2.2.symm
  · exact h.noReset_update t _ (by simp)
  · exact h.account_same t _ (by rw [ht]; rfl)
  · exact h.room

/-- The write of `head++`: the thread that read last is the only one before
its increment, so `head` still has the value it read. -/
theorem Ledger.store (h : Ledger start pending head threads claimed posted) (t : Fin n)
    (w : List SgeRecord) (rest : List (List SgeRecord)) (i v : ℕ)
    (ht : threads t = .posting w rest (.store i v)) :
    Ledger start pending ((v+1)%slots) (Function.update threads t (.posting w rest (.test i)))
      claimed posted := by
  have hself : (threads t).claiming = some () := by
    rw [ht]
    rfl
  obtain ⟨k,hk,hhead⟩ := h.held t hself
  have hv := h.read t w rest i v ht
  have hothers : ∀ t', t' ≠ t → (threads t').claiming ≠ some () := h.apart.other hself
  constructor
  · exact h.positions
  · exact h.apart.update fun x hx => absurd hx (by simp [Thread.claiming])
  · exact Nat.mod_lt _ slots_pos
  · intro _
    rw [hv,hhead,Nat.mod_add_mod,hk,Nat.add_assoc]
  · exact (Function.forall_update_iff threads fun _ th => th.claiming = some () →
        ∃ k, claimed.length = k+1 ∧ (v+1)%slots = (start+k)%slots).mpr
      ⟨by simp [Thread.claiming],fun t' hne ht' => absurd ht' (hothers t' hne)⟩
  · refine (Function.forall_update_iff threads fun _ th => ∀ w rest i v',
        th = .posting w rest (.store i v') → v' = (v+1)%slots).mpr ⟨by simp,?_⟩
    intro t' hne w' rest' i' v' ht'
    exact absurd (by rw [ht']; rfl) (hothers t' hne)
  · exact h.noReset_update t _ (by simp)
  · exact h.account_same t _ (by rw [ht]; rfl)
  · exact h.room

end Moves

/-- The accesses that read or write an entry. -/
def onEntry : PushPc → Bool
  | .test _ => true
  | .count _ => true
  | .alloc _ => true
  | .link _ => true
  | .fill _ _ _ => true
  | _ => false

/-- They leave `head` alone and are followed by their like. -/
theorem pushAccess_onEntry (w : List SgeRecord) (m : Mem) (pc : PushPc) (hpc : onEntry pc = true)
    (hhead : m.head < slots) :
    (pushAccess w m pc).1.head = m.head ∧
      ∀ pc', (pushAccess w m pc).2 = some pc' → onEntry pc' = true := by
  have hlt : ¬wrQueueSize ≤ m.head := Nat.not_le.mpr (hhead.trans slots_lt)
  cases pc with
  | test i => simp [pushAccess,hlt,onEntry]
  | count i => simp [pushAccess,onEntry]
  | alloc i => simp [pushAccess,onEntry]
  | link i => simp [pushAccess,onEntry]
  | fill i a k => simp [pushAccess,setWord,onEntry]
  | _ => simp [onEntry] at hpc

theorem proceed_onEntry (w : List SgeRecord) (rest : List (List SgeRecord)) (next : Option PushPc)
    (hnext : ∀ pc, next = some pc → onEntry pc = true) :
    (proceed w rest next).claiming = none ∧ (proceed w rest next).unclaimed = rest ∧
      ∀ w' rest' i, proceed w rest next ≠ .posting w' rest' (.reset i) := by
  cases next with
  | none => exact ⟨nextWr_claiming rest,nextWr_unclaimed rest,nextWr_noReset rest⟩
  | some pc =>
    have hpc := hnext pc rfl
    cases pc with
    | test i => exact ⟨rfl,rfl,by simp [proceed,RingAccess.proceed]⟩
    | count i => exact ⟨rfl,rfl,by simp [proceed,RingAccess.proceed]⟩
    | alloc i => exact ⟨rfl,rfl,by simp [proceed,RingAccess.proceed]⟩
    | link i => exact ⟨rfl,rfl,by simp [proceed,RingAccess.proceed]⟩
    | fill i a k => exact ⟨rfl,rfl,by simp [proceed,RingAccess.proceed]⟩
    | _ => simp [onEntry] at hpc

theorem inv_onEntry {start pending : ℕ} {s : State n} (hI : Inv start pending s) (t : Fin n)
    (w : List SgeRecord) (rest : List (List SgeRecord)) (pc : PushPc)
    (ht : s.threads t = .posting w rest pc) (hpc : onEntry pc = true) :
    Inv start pending (access s t w rest pc) := by
  obtain ⟨hhead,hnext⟩ := pushAccess_onEntry w s.mem pc hpc hI.head_lt
  obtain ⟨hclaiming,hunclaimed,hreset⟩ := proceed_onEntry w rest _ hnext
  have hsame : ∀ pc', some pc = some pc' → onEntry pc' = true := by
    rintro pc' ⟨⟩
    exact hpc
  obtain ⟨hclaiming',hunclaimed',-⟩ := proceed_onEntry w rest (some pc) hsame
  have hold : s.threads t = proceed w rest (some pc) := ht
  have hclaims : claims w s.mem pc = [] := by
    cases pc <;> first | rfl | simp [onEntry] at hpc
  rw [Inv,access,hhead,hclaims,List.append_nil]
  have hmoved := Ledger.move hI t (proceed w rest (pushAccess w s.mem pc).2) [] (hold ▸ hclaiming')
    hclaiming hreset (by rw [hunclaimed,hold,hunclaimed',Multiset.coe_nil,add_zero])
    (by rw [List.append_nil]; exact hI.room)
  rwa [List.append_nil] at hmoved

theorem inv_access {start pending : ℕ} {s : State n} (hI : Inv start pending s) (t : Fin n)
    (w : List SgeRecord) (rest : List (List SgeRecord)) (pc : PushPc)
    (ht : s.threads t = .posting w rest pc) (hexclusive : Exclusive s (.access t)) :
    Inv start pending (access s t w rest pc) := by
  have hnil := List.append_nil s.claimed
  cases pc with
  | index =>
    refine Ledger.claim hI t w rest ht (hexclusive ?_)
    rw [ht]
    rfl
  | load i =>
    rw [Inv,access,claims,hnil]
    · exact Ledger.load hI t w rest i ht
    · simp
  | store i v =>
    rw [Inv,access,claims,hnil]
    · exact Ledger.store hI t w rest i v ht
    · simp
  | reset i => exact absurd ht (hI.noReset t w rest i)
  | test i => exact inv_onEntry hI t w rest _ ht rfl
  | count i => exact inv_onEntry hI t w rest _ ht rfl
  | alloc i => exact inv_onEntry hI t w rest _ ht rfl
  | link i => exact inv_onEntry hI t w rest _ ht rfl
  | fill i a k => exact inv_onEntry hI t w rest _ ht rfl

theorem step_cases {s : State n} {e : Event n} {u : State n} (hu : step s e = some u) :
    (∃ t wrs, e = .call t wrs ∧ s.threads t = .idle ∧
      u = {s with threads := Function.update s.threads t (nextWr wrs)
                  posted := s.posted++wrs}) ∨
    (∃ t w rest pc, e = .access t ∧ s.threads t = .posting w rest pc ∧ u = access s t w rest pc) ∨
    ∃ t, e = .answer t ∧ s.threads t = .handing ∧
      u = {s with threads := Function.update s.threads t .idle} := by
  cases e with
  | call t wrs =>
    simp only [step] at hu
    split at hu
    · next hidle => exact .inl ⟨t,wrs,rfl,hidle,(Option.some.inj hu).symm⟩
    · exact absurd hu (by simp)
  | access t =>
    simp only [step] at hu
    split at hu
    · next w rest pc ht => exact .inr (.inl ⟨t,w,rest,pc,rfl,ht,(Option.some.inj hu).symm⟩)
    · exact absurd hu (by simp)
  | answer t =>
    simp only [step] at hu
    split at hu
    · next hhanding => exact .inr (.inr ⟨t,rfl,hhanding,(Option.some.inj hu).symm⟩)
    · exact absurd hu (by simp)

theorem inv_step {start pending : ℕ} (s : State n) (e : Event n) (u : State n)
    (hI : Inv start pending s) (hroom : Room pending s e) (hexclusive : Exclusive s e)
    (hu : step s e = some u) : Inv start pending u := by
  rcases step_cases hu with ⟨t,wrs,rfl,hidle,rfl⟩ | ⟨t,w,rest,pc,rfl,ht,rfl⟩ | ⟨t,rfl,hhanding,rfl⟩
  · exact Ledger.move hI t _ wrs (by rw [hidle]; rfl) (nextWr_claiming wrs) (nextWr_noReset wrs)
      (by rw [hidle,nextWr_unclaimed,Thread.unclaimed,zero_add] <;> simp)
      (by rw [List.length_append,← Nat.add_assoc]; exact hroom)
  · exact inv_access hI t w rest pc ht hexclusive
  · have hmoved := Ledger.move hI t .idle [] (by rw [hhanding]; rfl) rfl (by simp)
      (by rw [hhanding]; rfl) (by rw [List.append_nil]; exact hI.room)
    rwa [List.append_nil] at hmoved

/-- Claimed positions stay claimed. -/
theorem step_claimed (s : State n) (e : Event n) (u : State n) (hu : step s e = some u) :
    s.claimed <+: u.claimed := by
  rcases step_cases hu with ⟨t,wrs,-,-,rfl⟩ | ⟨t,w,rest,pc,-,-,rfl⟩ | ⟨t,-,-,rfl⟩
  · exact List.prefix_rfl
  · exact List.prefix_append _ _
  · exact List.prefix_rfl

/-- Two threads before their increments have read the same position. -/
theorem not_nodup_of_not_exclusive {start pending : ℕ} (s : State n) (e : Event n) (u : State n)
    (hI : Inv start pending s) (hnot : ¬Exclusive s e) (hu : step s e = some u) :
    ¬(u.claimed.map Prod.fst).Nodup := by
  rcases step_cases hu with ⟨t,wrs,rfl,-,-⟩ | ⟨t,w,rest,pc,rfl,ht,rfl⟩ | ⟨t,rfl,-,-⟩
  · exact absurd trivial hnot
  · simp only [Exclusive,not_forall] at hnot
    obtain ⟨hindex,t',hne,hclaiming⟩ := hnot
    obtain ⟨k,hk,hhead⟩ := hI.held t' (by
      cases h : (s.threads t').claiming with
      | none => exact absurd h hclaiming
      | some x => rfl)
    obtain rfl : pc = .index := by
      rw [ht] at hindex
      cases pc <;> first | rfl | simp [Thread.indexing] at hindex
    have hmem : s.mem.head ∈ s.claimed.map Prod.fst := by
      rw [hI.positions,hk,List.range_succ,List.map_append,hhead]
      exact List.mem_append_right _ (List.mem_singleton.mpr rfl)
    show ¬((s.claimed++[(s.mem.head,w)]).map Prod.fst).Nodup
    rw [List.map_append,List.nodup_append]
    exact fun h => h.2.2 _ hmem _ (List.mem_singleton.mpr rfl) rfl
  · exact absurd trivial hnot

/-- Every claimed request was posted. -/
theorem claimed_length_le {start pending : ℕ} {s : State n} (hI : Inv start pending s) :
    s.claimed.length ≤ s.posted.length := by
  have hcard := congrArg Multiset.card hI.account
  rw [Multiset.card_add,Multiset.coe_card,Multiset.coe_card,List.length_map] at hcard
  omega

theorem nodup_of_inv {start pending : ℕ} (s : State n) (hI : Inv start pending s) :
    (s.claimed.map Prod.fst).Nodup := by
  have hle := claimed_length_le hI
  have hroom := hI.room
  rw [hI.positions]
  refine List.Nodup.map_on ?_ List.nodup_range
  intro j hj k hk heq
  rw [List.mem_range] at hj hk
  rcases Nat.lt_trichotomy j k with hlt | heq' | hlt
  · exact absurd heq (RingQueue.slot_ne (by omega) (by omega))
  · exact heq'
  · exact absurd heq.symm (RingQueue.slot_ne (by omega) (by omega))

/-- When all calls have returned, every posted request has a position. -/
theorem perm_of_quiet {start pending : ℕ} (s : State n) (hI : Inv start pending s)
    (hquiet : Quiet s) : (s.claimed.map Prod.snd).Perm s.posted := by
  have hzero : ∑ t, (s.threads t).unclaimed = 0 := by
    apply Finset.sum_eq_zero
    intro t _
    rw [hquiet t]
    rfl
  have haccount := hI.account
  rw [hzero,add_zero] at haccount
  exact (Multiset.coe_eq_coe.mp haccount).symm

theorem head_of_quiet {start pending : ℕ} (s : State n) (hI : Inv start pending s)
    (hquiet : Quiet s) : s.mem.head = (start+s.posted.length)%slots := by
  have hfree := hI.free fun t => by rw [hquiet t]; rfl
  have hlength := (perm_of_quiet s hI hquiet).length_eq
  rw [List.length_map] at hlength
  rw [hfree,hlength]

end FreeFlow.RingRace
