import FreeFlow.RingEntries
import FreeFlow.RingRace

/-!
# What the posts leave in the ring

As long as the reads of `wr_index` were exclusive, every thread writes an entry
and a block that no other thread writes. An entry is complete when no thread
works on it any more, and then it has the records of its request. Blocks come
from `malloc`, so a block that is linked into one entry is in no other.
-/

set_option autoImplicit false

namespace FreeFlow.RingRace

open RegisteredMemory (SgeRecord)
open ReceiveRecords (wrQueueSize)
open RingAccess Runs Threads

/-- The entry a push works on. -/
def position : PushPc → Option ℕ
  | .index => none
  | .load i => some i
  | .store i _ => some i
  | .test i => some i
  | .reset i => some i
  | .count i => some i
  | .alloc i => some i
  | .link i => some i
  | .fill i _ _ => some i

def Thread.position : Thread → Option ℕ
  | .posting _ _ pc => RingRace.position pc
  | _ => none

/-- The push has linked its block into the entry. -/
def linked : PushPc → Bool
  | .link _ => true
  | .fill _ _ _ => true
  | _ => false

def Thread.linked : Thread → Bool
  | .posting _ _ pc => RingRace.linked pc
  | _ => false

/-- What a push has written of its entry and its block before its next access. -/
def Written (m : Mem) (w : List SgeRecord) (i : ℕ) : PushPc → Prop
  | .alloc _ => w ≠ [] ∧ m.sgeNum i = w.length
  | .link _ => w ≠ [] ∧ m.sgeNum i = w.length ∧ m.sgeQueue i < m.next
  | .fill _ a k => w ≠ [] ∧ m.sgeNum i = w.length ∧ m.sgeQueue i < m.next ∧ a = m.sgeQueue i ∧
      k < 3*w.length ∧ ∀ c < k, m.heap a c = (words w).getD c 0
  | _ => True

def Complete (m : Mem) (w : List SgeRecord) (i : ℕ) : Prop :=
  Holds m i w ∧ (w ≠ [] → m.sgeQueue i < m.next)

variable {n : ℕ}

/-- The entry has a block, and no thread at it is before the link. -/
def HasBlock (threads : Fin n → Thread) (claimed : List (ℕ × List SgeRecord)) (i : ℕ) : Prop :=
  ∃ w, (i,w) ∈ claimed ∧ w ≠ [] ∧ ∀ t, (threads t).position = some i → (threads t).linked = true

structure Entries (m : Mem) (threads : Fin n → Thread) (claimed : List (ℕ × List SgeRecord)) :
    Prop where
  apart : Apart Thread.position threads
  active : ∀ t w rest pc i, threads t = .posting w rest pc → position pc = some i →
    (i,w) ∈ claimed ∧ Written m w i pc
  complete : ∀ i w, (i,w) ∈ claimed → (∀ t, (threads t).position ≠ some i) → Complete m w i
  blocks : ∀ i j, i ≠ j → HasBlock threads claimed i → HasBlock threads claimed j →
    m.sgeQueue i ≠ m.sgeQueue j

theorem entries_started (m : Mem) : Entries m (started n m).threads (started n m).claimed where
  apart := fun t t' x h => absurd h (by simp [started,Thread.position])
  active := fun t w rest pc i h => absurd h (by simp [started])
  complete := fun i w h => absurd h (by simp [started])
  blocks := fun i j _ ⟨w,h,_⟩ => absurd h (by simp [started])

section

variable {m m' : Mem} {threads : Fin n → Thread} {claimed : List (ℕ × List SgeRecord)} {t : Fin n}
  {w : List SgeRecord} {rest : List (List SgeRecord)} {pc : PushPc} {th : Thread} {i j : ℕ}

/-- Memory that is the same at an entry and its block. -/
structure SameAt (m m' : Mem) (j : ℕ) : Prop where
  num : m'.sgeNum j = m.sgeNum j
  queue : m'.sgeQueue j = m.sgeQueue j
  next : m.next ≤ m'.next

theorem SameAt.refl (m : Mem) (j : ℕ) : SameAt m m j := ⟨rfl,rfl,le_rfl⟩

theorem Written.same (h : Written m w j pc) (hm : SameAt m m' j)
    (hheap : w ≠ [] → linked pc = true → m'.heap (m.sgeQueue j) = m.heap (m.sgeQueue j)) :
    Written m' w j pc := by
  cases pc with
  | alloc i => exact ⟨h.1,hm.num.trans h.2⟩
  | link i => exact ⟨h.1,hm.num.trans h.2.1,hm.queue ▸ h.2.2.trans_le hm.next⟩
  | fill i a k =>
    obtain ⟨hw,hnum,hlt,rfl,hk,hwords⟩ := h
    refine ⟨hw,hm.num.trans hnum,hm.queue ▸ hlt.trans_le hm.next,hm.queue.symm,hk,fun c hc => ?_⟩
    rw [hheap hw rfl]
    exact hwords c hc
  | _ => trivial

theorem Complete.same (h : Complete m w j) (hm : SameAt m m' j)
    (hheap : w ≠ [] → m'.heap (m.sgeQueue j) = m.heap (m.sgeQueue j)) : Complete m' w j := by
  obtain ⟨⟨hnum,hwords⟩,hlt⟩ := h
  refine ⟨⟨hm.num.trans hnum,fun k hk => ?_⟩,fun hw => hm.queue ▸ (hlt hw).trans_le hm.next⟩
  have hw : w ≠ [] := by
    rintro rfl
    exact absurd hk (by simp)
  rw [hm.queue,hheap hw]
  exact hwords k hk

theorem Entries.queue_lt (h : Entries m threads claimed) (hj : HasBlock threads claimed j) :
    m.sgeQueue j < m.next := by
  obtain ⟨w,hmem,hw,hlinked⟩ := hj
  by_cases hat : ∃ t, (threads t).position = some j
  · obtain ⟨t,ht⟩ := hat
    have hl := hlinked t ht
    cases hthread : threads t with
    | posting w' rest pc =>
      rw [hthread] at ht hl
      have hwritten := (h.active t w' rest pc j hthread ht).2
      cases pc with
      | link i => exact hwritten.2.2
      | fill i a k => exact hwritten.2.2.1
      | _ => exact absurd hl (by simp [Thread.linked,linked])
    | _ => simp [hthread,Thread.position] at ht
  · exact (h.complete j w hmem fun t ht => hat ⟨t,ht⟩).2 hw

/-- An entry that a thread has linked has its block. -/
theorem Entries.hasBlock (h : Entries m threads claimed) (ht : threads t = .posting w rest pc)
    (hi : position pc = some i) (hlinked : linked pc = true) (hw : w ≠ []) :
    HasBlock threads claimed i := by
  have hat : (threads t).position = some i := by
    rw [ht]
    exact hi
  refine ⟨w,(h.active t w rest pc i ht hi).1,hw,fun t' ht' => ?_⟩
  rw [h.apart t' t i ht' hat,ht]
  exact hlinked

/-- A thread that was not at an entry gives it no block by its step. -/
theorem HasBlock.of_update (hold : (threads t).position ≠ some j)
    (h : HasBlock (Function.update threads t th) claimed j) : HasBlock threads claimed j := by
  obtain ⟨w,hmem,hw,hlinked⟩ := h
  refine ⟨w,hmem,hw,fun t' ht' => ?_⟩
  have hne : t' ≠ t := fun heq => hold (heq ▸ ht')
  have hl := hlinked t' (by rwa [Function.update_of_ne hne])
  rwa [Function.update_of_ne hne] at hl

theorem free_of_update (hold : (threads t).position ≠ some j)
    (hno : ∀ t', (Function.update threads t th t').position ≠ some j) (t' : Fin n) :
    (threads t').position ≠ some j := by
  intro ht'
  have hne : t' ≠ t := fun heq => hold (heq ▸ ht')
  exact hno t' (by rwa [Function.update_of_ne hne])

/-- A thread before the link keeps its entry from having a block. -/
theorem not_hasBlock (hat : th.position = some i) (hlinked : th.linked = false) :
    ¬HasBlock (Function.update threads t th) claimed i := by
  rintro ⟨w,-,-,hall⟩
  have hself := hall t (by rwa [Function.update_self])
  rw [Function.update_self,hlinked] at hself
  cases hself

/-- A thread that works on no entry goes on to work on none. -/
theorem Entries.move (h : Entries m threads claimed) (hold : (threads t).position = none)
    (hnew : th.position = none) : Entries m (Function.update threads t th) claimed := by
  have haway : ∀ j, (threads t).position ≠ some j := fun j => hold.trans_ne (Option.some_ne_none j).symm
  constructor
  · exact h.apart.move fun x hx => absurd (hnew.symm.trans hx) (by simp)
  · intro t' w rest pc i ht' hi
    have hne : t' ≠ t := by
      rintro rfl
      rw [Function.update_self] at ht'
      rw [ht'] at hnew
      exact absurd (hnew.symm.trans hi) (by simp)
    rw [Function.update_of_ne hne] at ht'
    exact h.active t' w rest pc i ht' hi
  · exact fun i w hmem hno => h.complete i w hmem (free_of_update (haway i) hno)
  · exact fun i j hij hi hj => h.blocks i j hij (hi.of_update (haway i)) (hj.of_update (haway j))

/-- A thread claims a position that was not claimed. -/
theorem Entries.claim (h : Entries m threads claimed) (ht : threads t = .posting w rest .index)
    (hnew : i ∉ claimed.map Prod.fst) :
    Entries m (Function.update threads t (.posting w rest (.load i))) (claimed++[(i,w)]) := by
  have hfresh : ∀ w', (i,w') ∉ claimed := fun w' hmem => hnew (List.mem_map_of_mem hmem)
  have haway : ∀ j, (threads t).position ≠ some j := by
    intro j
    rw [ht]
    exact (Option.some_ne_none j).symm
  have hother : ∀ t', (threads t').position ≠ some i := by
    intro t' ht'
    cases hthread : threads t' with
    | posting w' rest' pc =>
      rw [hthread] at ht'
      exact hfresh w' (h.active t' w' rest' pc i hthread ht').1
    | _ => simp [hthread,Thread.position] at ht'
  -- the entry of the new position has no block yet
  have hblock : ∀ j, HasBlock (Function.update threads t (.posting w rest (.load i)))
      (claimed++[(i,w)]) j → HasBlock threads claimed j := by
    intro j hj
    obtain ⟨w',hmem,hw',hlinked⟩ := hj.of_update (haway j)
    rcases List.mem_append.mp hmem with hmem | hmem
    · exact ⟨w',hmem,hw',hlinked⟩
    · obtain ⟨rfl,-⟩ := Prod.mk.inj (List.mem_singleton.mp hmem)
      exact absurd hj (not_hasBlock rfl rfl)
  constructor
  · exact h.apart.update fun x hx t' _ => Option.some.inj hx ▸ hother t'
  · intro t' w' rest' pc j ht' hj
    by_cases hself : t' = t
    · rw [hself,Function.update_self,Thread.posting.injEq] at ht'
      obtain ⟨rfl,rfl,rfl⟩ := ht'
      obtain rfl := Option.some.inj hj
      exact ⟨List.mem_append_right _ List.mem_cons_self,trivial⟩
    · rw [Function.update_of_ne hself] at ht'
      obtain ⟨hmem,hwritten⟩ := h.active t' w' rest' pc j ht' hj
      exact ⟨List.mem_append_left _ hmem,hwritten⟩
  · intro j w' hmem hno
    rcases List.mem_append.mp hmem with hmem | hmem
    · exact h.complete j w' hmem (free_of_update (haway j) hno)
    · obtain ⟨rfl,-⟩ := Prod.mk.inj (List.mem_singleton.mp hmem)
      exact absurd (by rw [Function.update_self]; rfl) (hno t)
  · exact fun j k hjk hj hk => h.blocks j k hjk (hblock j hj) (hblock k hk)

/-- A thread at another entry finds there what it has written. -/
theorem Entries.elsewhere (h : Entries m threads claimed) {t' : Fin n}
    (ht' : threads t' = .posting w rest pc) (hj : position pc = some j) (hsame : SameAt m m' j)
    (hheap : HasBlock threads claimed j → m'.heap (m.sgeQueue j) = m.heap (m.sgeQueue j)) :
    (j,w) ∈ claimed ∧ Written m' w j pc := by
  obtain ⟨hmem,hwritten⟩ := h.active t' w rest pc j ht' hj
  exact ⟨hmem,hwritten.same hsame fun hw hlinked => hheap (h.hasBlock ht' hj hlinked hw)⟩

/-- A thread accesses its entry or its block, and goes on or has completed the entry. Other entries
and their blocks stay as they are. -/
theorem Entries.access (h : Entries m threads claimed) (hnodup : (claimed.map Prod.fst).Nodup)
    (ht : threads t = .posting w rest pc) (hi : position pc = some i)
    (hsame : ∀ j, j ≠ i → SameAt m m' j)
    (hheap : ∀ j, j ≠ i → HasBlock threads claimed j → m'.heap (m.sgeQueue j) = m.heap (m.sgeQueue j))
    (hth : (∃ pc', th = .posting w rest pc' ∧ position pc' = some i ∧ Written m' w i pc') ∨
      (th.position = none ∧ Complete m' w i))
    (hblock : HasBlock (Function.update threads t th) claimed i →
      ∀ j, j ≠ i → HasBlock threads claimed j → m'.sgeQueue i ≠ m.sgeQueue j) :
    Entries m' (Function.update threads t th) claimed := by
  have hat : (threads t).position = some i := by
    rw [ht]
    exact hi
  have haway : ∀ j, j ≠ i → (threads t).position ≠ some j := fun j hj heq =>
    hj (Option.some.inj (heq.symm.trans hat))
  have hmem : (i,w) ∈ claimed := (h.active t w rest pc i ht hi).1
  constructor
  · refine h.apart.move fun x hx => ?_
    rcases hth with ⟨pc',rfl,hpc',-⟩ | ⟨hnone,-⟩
    · exact (hat.trans hpc'.symm).trans hx
    · cases hnone.symm.trans hx
  · intro t' w' rest' pc' j ht' hj
    by_cases hself : t' = t
    · rw [hself,Function.update_self] at ht'
      rcases hth with ⟨pc'',rfl,hpc'',hwritten⟩ | ⟨hnone,-⟩
      · rw [Thread.posting.injEq] at ht'
        obtain ⟨rfl,rfl,rfl⟩ := ht'
        obtain rfl := Option.some.inj (hpc''.symm.trans hj)
        exact ⟨hmem,hwritten⟩
      · rw [ht'] at hnone
        cases hnone.symm.trans hj
    · rw [Function.update_of_ne hself] at ht'
      have hji : j ≠ i := by
        rintro rfl
        exact hself (h.apart t' t j (by rw [ht']; exact hj) hat)
      exact h.elsewhere ht' hj (hsame j hji) (hheap j hji)
  · intro j w' hmem' hno
    by_cases hji : j = i
    · subst hji
      rcases hth with ⟨pc',rfl,hpc',-⟩ | ⟨-,hcomplete⟩
      · exact absurd (by rw [Function.update_self]; exact hpc') (hno t)
      · rwa [(Prod.mk.inj (List.inj_on_of_nodup_map hnodup hmem' hmem rfl)).2]
    · have hfree := free_of_update (haway j hji) hno
      refine (h.complete j w' hmem' hfree).same (hsame j hji) fun hw' => hheap j hji ?_
      exact ⟨w',hmem',hw',fun t' ht' => absurd ht' (hfree t')⟩
  · intro j k hjk hj hk
    -- at most one of the two entries is the thread's own
    by_cases hji : j = i
    · subst hji
      rw [(hsame k hjk.symm).queue]
      exact hblock hj k hjk.symm (hk.of_update (haway k hjk.symm))
    · by_cases hki : k = i
      · subst hki
        rw [(hsame j hji).queue]
        exact (hblock hk j hji (hj.of_update (haway j hji))).symm
      · rw [(hsame j hji).queue,(hsame k hki).queue]
        exact h.blocks j k hjk (hj.of_update (haway j hji)) (hk.of_update (haway k hki))

theorem nextWr_position (wrs : List (List SgeRecord)) : (nextWr wrs).position = none := by
  cases wrs <;> rfl

/-- The accesses before the entry is written. -/
theorem Entries.before (h : Entries m threads claimed) (hnodup : (claimed.map Prod.fst).Nodup)
    (ht : threads t = .posting w rest pc) (hi : position pc = some i) (head : ℕ) {pc' : PushPc}
    (hpc' : position pc' = some i) (hlinked : linked pc' = false) (hwritten : Written m w i pc') :
    Entries {m with head := head} (Function.update threads t (.posting w rest pc')) claimed :=
  h.access hnodup ht hi (fun _ _ => ⟨rfl,rfl,le_rfl⟩) (fun _ _ _ => rfl)
    (.inl ⟨pc',rfl,hpc',hwritten.same ⟨rfl,rfl,le_rfl⟩ fun _ _ => rfl⟩)
    fun hblock => absurd hblock (not_hasBlock hpc' hlinked)

theorem Entries.count (h : Entries m threads claimed) (hnodup : (claimed.map Prod.fst).Nodup)
    (ht : threads t = .posting w rest (.count i)) :
    Entries (pushAccess w m (.count i)).1
      (Function.update threads t (proceed w rest (pushAccess w m (.count i)).2)) claimed := by
  have hmem := (h.active t w rest _ i ht rfl).1
  have hsame : ∀ j, j ≠ i → SameAt m {m with sgeNum := Function.update m.sgeNum i w.length} j :=
    fun j hj => ⟨Function.update_of_ne hj _ _,rfl,le_rfl⟩
  have hnum : Function.update m.sgeNum i w.length i = w.length := Function.update_self _ _ _
  cases w with
  | nil =>
    refine h.access hnodup ht rfl hsame (fun _ _ _ => rfl) (.inr ⟨nextWr_position rest,⟨hnum,?_⟩,?_⟩) ?_
    · exact fun k hk => absurd hk (Nat.not_lt_zero k)
    · exact fun hw => absurd rfl hw
    · rintro ⟨w',hmem',hw',-⟩
      exact absurd (Prod.mk.inj (List.inj_on_of_nodup_map hnodup hmem' hmem rfl)).2 hw'
  | cons r w =>
    exact h.access hnodup ht rfl hsame (fun _ _ _ => rfl)
      (.inl ⟨.alloc i,rfl,rfl,List.cons_ne_nil r w,hnum⟩)
      fun hblock => absurd hblock (not_hasBlock rfl rfl)

/-- The new block is linked into no other entry. -/
theorem Entries.alloc (h : Entries m threads claimed) (hnodup : (claimed.map Prod.fst).Nodup)
    (ht : threads t = .posting w rest (.alloc i)) :
    Entries (pushAccess w m (.alloc i)).1 (Function.update threads t (.posting w rest (.link i)))
      claimed := by
  obtain ⟨-,hw,hnum⟩ := h.active t w rest _ i ht rfl
  have hqueue : Function.update m.sgeQueue i m.next i = m.next := Function.update_self _ _ _
  refine h.access hnodup ht rfl (fun j hj => ⟨rfl,Function.update_of_ne hj _ _,Nat.le_succ _⟩)
    (fun _ _ _ => rfl) (.inl ⟨.link i,rfl,rfl,hw,hnum,?_⟩) fun _ j _ hblock => ?_
  · exact hqueue.trans_lt (Nat.lt_succ_self _)
  · exact hqueue.trans_ne (h.queue_lt hblock).ne'

theorem Entries.link (h : Entries m threads claimed) (hnodup : (claimed.map Prod.fst).Nodup)
    (ht : threads t = .posting w rest (.link i)) :
    Entries m (Function.update threads t (.posting w rest (.fill i (m.sgeQueue i) 0))) claimed := by
  obtain ⟨-,hw,hnum,hlt⟩ := h.active t w rest _ i ht rfl
  have hlen : 0 < 3*w.length := Nat.mul_pos (by decide) (List.length_pos_iff.mpr hw)
  exact h.access hnodup ht rfl (fun j _ => .refl m j) (fun _ _ _ => rfl)
    (.inl ⟨_,rfl,rfl,hw,hnum,hlt,rfl,hlen,fun c hc => absurd hc (Nat.not_lt_zero c)⟩)
    fun _ j hj hblock => h.blocks i j hj.symm (h.hasBlock ht rfl rfl hw) hblock

/-- A word of the thread's own block. -/
theorem Entries.fill {a k : ℕ} (h : Entries m threads claimed) (hnodup : (claimed.map Prod.fst).Nodup)
    (ht : threads t = .posting w rest (.fill i a k)) :
    Entries (pushAccess w m (.fill i a k)).1
      (Function.update threads t (proceed w rest (pushAccess w m (.fill i a k)).2)) claimed := by
  obtain ⟨-,hw,hnum,hlt,rfl,hk,hwords⟩ := h.active t w rest _ i ht rfl
  have hown := h.hasBlock ht rfl rfl hw
  have hfilled := RingEntries.setWord_heap (m := m) (m.sgeQueue i) k ((words w).getD k 0)
    (fun c => (words w).getD c 0) hwords rfl
  refine h.access hnodup ht rfl (fun _ _ => ⟨rfl,rfl,le_rfl⟩)
    (fun j hj hblock => Function.update_of_ne (h.blocks j i hj hblock hown) _ _) ?_
    fun _ j hj hblock => h.blocks i j hj.symm hown hblock
  by_cases hlast : k+1 < 3*w.length
  · refine .inl ⟨.fill i (m.sgeQueue i) (k+1),?_,rfl,hw,hnum,hlt,rfl,hlast,hfilled⟩
    rw [pushAccess,if_pos hlast]
    rfl
  · refine .inr ⟨?_,⟨hnum,fun c hc => hfilled c (by omega)⟩,fun _ => hlt⟩
    rw [pushAccess,if_neg hlast]
    exact nextWr_position rest

theorem Entries.push (h : Entries m threads claimed) (hnodup : (claimed.map Prod.fst).Nodup)
    (hhead : m.head < slots) (ht : threads t = .posting w rest pc) (hpc : pc ≠ .index)
    (hreset : ∀ i, pc ≠ .reset i) :
    Entries (pushAccess w m pc).1
      (Function.update threads t (proceed w rest (pushAccess w m pc).2)) claimed := by
  cases pc with
  | index => exact absurd rfl hpc
  | reset i => exact absurd rfl (hreset i)
  | load i => exact h.before hnodup ht rfl m.head rfl rfl trivial
  | store i v => exact h.before hnodup ht rfl ((v+1)%slots) rfl rfl trivial
  | test i =>
    rw [pushAccess,if_neg (Nat.not_le.mpr (hhead.trans slots_lt))]
    exact h.before hnodup ht rfl m.head rfl rfl trivial
  | count i => exact h.count hnodup ht
  | alloc i => exact h.alloc hnodup ht
  | link i => exact h.link hnodup ht
  | fill i a k => exact h.fill hnodup ht

end

/-- The index and the entries. -/
structure Sound (start pending : ℕ) (s : State n) : Prop where
  ledger : Inv start pending s
  entries : Entries s.mem s.threads s.claimed

theorem sound_step {start pending : ℕ} (s : State n) (e : Event n) (u : State n)
    (h : Sound start pending s) (hroom : Room pending s e) (hexclusive : Exclusive s e)
    (hu : step s e = some u) : Sound start pending u := by
  have hledger := inv_step s e u h.ledger hroom hexclusive hu
  refine ⟨hledger,?_⟩
  rcases step_cases hu with ⟨t,wrs,rfl,hidle,rfl⟩ | ⟨t,w,rest,pc,rfl,ht,rfl⟩ | ⟨t,rfl,hhanding,rfl⟩
  · exact h.entries.move (by rw [hidle]; rfl) (nextWr_position wrs)
  · by_cases hpc : pc = .index
    · subst hpc
      -- the new position is none of the old ones, since all are different afterwards
      have hnodup := nodup_of_inv _ hledger
      refine h.entries.claim ht ?_
      have hdiff : ((s.claimed++[(s.mem.head,w)]).map Prod.fst).Nodup := hnodup
      rw [List.map_append,List.map_singleton,List.nodup_append] at hdiff
      exact fun hmem => hdiff.2.2 _ hmem _ List.mem_cons_self rfl
    · have hclaims : claims w s.mem pc = [] := by
        cases pc <;> first | rfl | exact absurd rfl hpc
      show Entries _ _ (s.claimed++claims w s.mem pc)
      rw [hclaims,List.append_nil]
      exact h.entries.push (nodup_of_inv s h.ledger) h.ledger.head_lt ht hpc fun i hreset =>
        h.ledger.noReset t w rest i (hreset ▸ ht)
  · exact h.entries.move (by rw [hhanding]; rfl) rfl

/-- For any number of threads that post through different QPs into one ring,
in every interleaving of their accesses and with room for all requests, the
requests are recorded, each at a position of its own, exactly when no thread
reads `wr_index` between the read and the increment of another. -/
theorem posts_recorded_iff (m : Mem) (hhead : m.head < slots) (pending : ℕ)
    (hpending : pending < slots) (events : List (Event n)) (s : State n)
    (hroom : Along step (Room pending) (started n m) events)
    (hrun : run step (started n m) events = some s) :
    Recorded m.head s ↔ Along step Exclusive (started n m) events := by
  have hstart : Sound m.head pending (started n m) :=
    ⟨inv_started m pending hhead hpending,entries_started m⟩
  have hiff := run_iff_along_of_inv step (Room pending) Exclusive (Sound m.head pending)
    (fun s => (s.claimed.map Prod.fst).Nodup) sound_step
    (fun s e u h _ hnot hu => not_nodup_of_not_exclusive s e u h.ledger hnot hu)
    (fun s e u hu hnodup => hnodup.sublist ((step_claimed s e u hu).sublist.map Prod.fst))
    (fun s h => nodup_of_inv s h.ledger) (started n m) events s hstart hroom hrun
  constructor
  · intro hrecorded
    exact hiff.mp hrecorded.apart
  · intro hexclusive
    have h := run_invariant step (fun s e => Room pending s e ∧ Exclusive s e)
      (Sound m.head pending) (fun s e u h hok hu => sound_step s e u h hok.1 hok.2 hu) (started n m)
      events s hstart (along_and step _ _ _ _ hroom hexclusive) hrun
    refine ⟨hiff.mpr hexclusive,head_of_quiet s h.ledger,perm_of_quiet s h.ledger,?_⟩
    intro hquiet c hc
    refine (h.entries.complete c.1 c.2 hc fun t ht => ?_).1
    rw [hquiet t] at ht
    cases ht

def emptyRing : Mem := ⟨0,0,fun _ => 0,fun _ => 0,fun _ _ => 0,0⟩

/-- A request with one buffer of `length` bytes. -/
def oneBuffer (length : ℕ) : List SgeRecord := [⟨length,4096,8192⟩]

/-- Two QPs post a request each; the second one has its position while the first one writes its
records. -/
def inTurn : List (Event 2) :=
  [.call 0 [oneBuffer 16],.call 1 [oneBuffer 32],.access 0,.access 0,.access 0]++
    (List.replicate 7 [.access 1,.access 0]).flatten++[.access 1,.access 1,.access 1,.answer 0,.answer 1]

theorem posts_in_turn_recorded : ∃ s, run step (started 2 emptyRing) inTurn = some s ∧
    s.claimed.map Prod.fst = [0,1] ∧ s.posted.length = 2 ∧ Recorded 0 s :=
  ⟨_,rfl,rfl,rfl,(posts_recorded_iff emptyRing (by decide) 0 (by decide) inTurn _ (by decide) rfl).mpr
    (by decide)⟩

/-- The accesses of two QPs in alternation. -/
def alternating : List (Event 2) :=
  [.call 0 [oneBuffer 16],.call 1 [oneBuffer 32]]++
    (List.replicate 10 [.access 0,.access 1]).flatten++[.answer 0,.answer 1]

/-- Both threads read `head` before one of them advances it: two receives
share the first entry, `head` advances by one, and the records of the first are
lost. -/
theorem shared_position : Along step (Room 0) (started 2 emptyRing) alternating ∧
    ∃ s, run step (started 2 emptyRing) alternating = some s ∧ Quiet s ∧ s.posted.length = 2 ∧
      s.claimed.map Prod.fst = [0,0] ∧ s.mem.head = 1 ∧ ¬Holds s.mem 0 (oneBuffer 16) :=
  ⟨by decide,_,rfl,Fin.forall_fin_two.mpr ⟨rfl,rfl⟩,rfl,rfl,rfl,by decide⟩

end FreeFlow.RingRace
