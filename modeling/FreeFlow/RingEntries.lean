import FreeFlow.RingAccess

/-!
# Entries of a receive ring

What a push has written of its entry and what a pop has read of it, by the
program counter. The requests `pushed` into a ring are counted from its
creation; request `k` stands at `k` modulo the number of entries, and its
records stand in a block of their own.
-/

set_option autoImplicit false

namespace FreeFlow.RingEntries

open RegisteredMemory (SgeRecord)
open ReceiveRecords (wrQueueSize)
open RingAccess

section Blocks

variable {pushed : List (List SgeRecord)} {w : List SgeRecord} {j k : ℕ}

/-- The blocks of the first `k` requests, one for each that has buffers. -/
def blocks (pushed : List (List SgeRecord)) (k : ℕ) : ℕ :=
  (pushed.take k).countP fun w => !w.isEmpty

theorem blocks_succ (h : pushed[k]? = some w) :
    blocks pushed (k+1) = blocks pushed k+if w = [] then 0 else 1 := by
  rw [blocks,List.take_add_one,h,List.countP_append,← blocks]
  cases w <;> rfl

theorem blocks_append (hk : k ≤ pushed.length) : blocks (pushed++[w]) k = blocks pushed k := by
  rw [blocks,List.take_append_of_le_length hk,← blocks]

theorem blocks_mono (hle : j ≤ k) : blocks pushed j ≤ blocks pushed k :=
  (List.take_sublist_take_left hle).countP_le

theorem blocks_lt (h : pushed[j]? = some w) (hw : w ≠ []) (hlt : j < k) :
    blocks pushed j < blocks pushed k := by
  have hsucc := blocks_succ h
  have hmono : blocks pushed (j+1) ≤ blocks pushed k := blocks_mono hlt
  rw [if_neg hw] at hsucc
  omega

end Blocks

/-- The entry and the block of request `k` hold its records. -/
structure Stored (m : Mem) (pushed : List (List SgeRecord)) (w : List SgeRecord) (k : ℕ) :
    Prop where
  request : pushed[k]? = some w
  num : m.sgeNum (k%slots) = w.length
  queue : w ≠ [] → m.sgeQueue (k%slots) = blocks pushed k
  block : ∀ j < 3*w.length, m.heap (blocks pushed k) j = (words w).getD j 0

/-- Memory changes at most in one entry, one block and the index and the
allocator of the push. -/
structure Confined (m m' : Mem) (i a : ℕ) : Prop where
  tail : m'.tail = m.tail
  num : ∀ j, j ≠ i → m'.sgeNum j = m.sgeNum j
  queue : ∀ j, j ≠ i → m'.sgeQueue j = m.sgeQueue j
  heap : ∀ b, b ≠ a → m'.heap b = m.heap b

section Push

variable {m m' : Mem} {pushed : List (List SgeRecord)} {allocs : List (ℕ × ℕ)}
  {w v : List SgeRecord} {i j k : ℕ} {pc : PushPc}

/-- A push changes nothing of the requests that are still in the ring. -/
theorem Stored.confined (h : Stored m pushed v j)
    (hm : Confined m m' (k%slots) (blocks pushed k)) (hlt : j < k) (hslot : k < j+slots) :
    Stored m' pushed v j := by
  have hne : j%slots ≠ k%slots := RingQueue.slot_ne hlt hslot
  refine ⟨h.request,(hm.num _ hne).trans h.num,fun hv => (hm.queue _ hne).trans (h.queue hv),?_⟩
  intro c hc
  have hv : v ≠ [] := by
    rintro rfl
    exact absurd hc (by simp)
  rw [hm.heap _ (blocks_lt h.request hv hlt).ne]
  exact h.block c hc

theorem Stored.append (h : Stored m pushed v j) : Stored m (pushed++[w]) v j := by
  obtain ⟨hlt,-⟩ := List.getElem?_eq_some_iff.mp h.request
  refine ⟨?_,h.num,?_,?_⟩
  · rw [List.getElem?_append_left hlt,h.request]
  · rw [blocks_append hlt.le]
    exact h.queue
  · rw [blocks_append hlt.le]
    exact h.block

theorem Stored.tail (h : Stored m pushed v j) (x : ℕ) : Stored {m with tail := x} pushed v j :=
  ⟨h.request,h.num,h.queue,h.block⟩

/-- Between two pushes. -/
structure Rest (m : Mem) (pushed : List (List SgeRecord)) (k : ℕ) : Prop where
  length : pushed.length = k
  head : m.head = k%slots
  next : m.next = blocks pushed k

/-- Request `k` is the last one and has entry `i`. -/
structure Claimed (pushed : List (List SgeRecord)) (w : List SgeRecord) (k i : ℕ) : Prop where
  length : pushed.length = k+1
  request : pushed[k]? = some w
  slot : i = k%slots

/-- The entry of request `k` points to its block. -/
structure Linked (m : Mem) (pushed : List (List SgeRecord)) (allocs : List (ℕ × ℕ))
    (w : List SgeRecord) (k : ℕ) : Prop where
  head : m.head = (k+1)%slots
  next : m.next = blocks pushed (k+1)
  nonempty : w ≠ []
  num : m.sgeNum (k%slots) = w.length
  queue : m.sgeQueue (k%slots) = blocks pushed k
  alloc : (k,blocks pushed k) ∈ allocs

/-- What the push of request `k` has done. -/
def Pushing (m : Mem) (pushed : List (List SgeRecord)) (allocs : List (ℕ × ℕ))
    (w : List SgeRecord) (k : ℕ) : PushPc → Prop
  | .index => Rest m pushed k
  | .load i => Claimed pushed w k i ∧ m.head = k%slots ∧ m.next = blocks pushed k
  | .store i v => Claimed pushed w k i ∧ v = k%slots ∧ m.next = blocks pushed k
  | .test i => Claimed pushed w k i ∧ m.head = (k+1)%slots ∧ m.next = blocks pushed k
  | .reset _ => False
  | .count i => Claimed pushed w k i ∧ m.head = (k+1)%slots ∧ m.next = blocks pushed k
  | .alloc i => Claimed pushed w k i ∧ m.head = (k+1)%slots ∧ m.next = blocks pushed k ∧
      w ≠ [] ∧ m.sgeNum i = w.length
  | .link i => Claimed pushed w k i ∧ Linked m pushed allocs w k
  | .fill i a j => Claimed pushed w k i ∧ Linked m pushed allocs w k ∧ a = blocks pushed k ∧
      j < 3*w.length ∧ ∀ c < j, m.heap a c = (words w).getD c 0

/-- A pop at the other end changes nothing. -/
theorem Pushing.tail (h : Pushing m pushed allocs w k pc) (x : ℕ) :
    Pushing {m with tail := x} pushed allocs w k pc := by
  cases pc with
  | index => exact ⟨h.length,h.head,h.next⟩
  | link i =>
    obtain ⟨hclaimed,hlinked⟩ := h
    exact ⟨hclaimed,hlinked.head,hlinked.next,hlinked.nonempty,hlinked.num,hlinked.queue,
      hlinked.alloc⟩
  | fill i a j =>
    obtain ⟨hclaimed,hlinked,hrest⟩ := h
    exact ⟨hclaimed,⟨hlinked.head,hlinked.next,hlinked.nonempty,hlinked.num,hlinked.queue,
      hlinked.alloc⟩,hrest⟩
  | _ => exact h

/-- The push goes on, or request `k` is stored. -/
def Pushed (m : Mem) (pushed : List (List SgeRecord)) (allocs : List (ℕ × ℕ))
    (w : List SgeRecord) (k : ℕ) : Option PushPc → Prop
  | some pc => Pushing m pushed allocs w k pc
  | none => Rest m pushed (k+1) ∧ Stored m pushed w k ∧ (w ≠ [] → (k,blocks pushed k) ∈ allocs)

/-- The request an access allocates a block for, and the block. -/
def allocates (count : ℕ) (m : Mem) : PushPc → List (ℕ × ℕ)
  | .alloc _ => [(count-1,m.next)]
  | _ => []

theorem pushing_index (h : Rest m pushed k) :
    Pushing m (pushed++[w]) allocs w k (.load m.head) := by
  obtain rfl := h.length
  refine ⟨⟨?_,?_,h.head⟩,h.head,?_⟩
  · rw [List.length_append,List.length_singleton]
  · rw [List.getElem?_append_right (le_refl _),Nat.sub_self]
    rfl
  · rw [blocks_append (le_refl _)]
    exact h.next

theorem pushAccess_confined (h : Pushing m pushed allocs w k pc) :
    Confined m (pushAccess w m pc).1 (k%slots) (blocks pushed k) := by
  cases pc with
  | index => exact ⟨rfl,fun _ _ => rfl,fun _ _ => rfl,fun _ _ => rfl⟩
  | load i => exact ⟨rfl,fun _ _ => rfl,fun _ _ => rfl,fun _ _ => rfl⟩
  | store i v => exact ⟨rfl,fun _ _ => rfl,fun _ _ => rfl,fun _ _ => rfl⟩
  | test i => exact ⟨rfl,fun _ _ => rfl,fun _ _ => rfl,fun _ _ => rfl⟩
  | reset i => exact h.elim
  | count i =>
    rw [← h.1.slot]
    exact ⟨rfl,fun _ hj => Function.update_of_ne hj _ _,fun _ _ => rfl,fun _ _ => rfl⟩
  | alloc i =>
    rw [← h.1.slot]
    exact ⟨rfl,fun _ _ => rfl,fun _ hj => Function.update_of_ne hj _ _,fun _ _ => rfl⟩
  | link i => exact ⟨rfl,fun _ _ => rfl,fun _ _ => rfl,fun _ _ => rfl⟩
  | fill i a j =>
    rw [← h.2.2.1]
    exact ⟨rfl,fun _ _ => rfl,fun _ _ => rfl,fun _ hb => Function.update_of_ne hb _ _⟩

theorem pushed_count (h : Pushing m pushed allocs w k (.count i)) :
    Pushed (pushAccess w m (.count i)).1 pushed allocs w k (pushAccess w m (.count i)).2 := by
  obtain ⟨hclaimed,hhead,hnext⟩ := h
  have hsucc := blocks_succ hclaimed.request
  cases w with
  | nil =>
    refine ⟨⟨hclaimed.length,hhead,hnext.trans hsucc.symm⟩,⟨hclaimed.request,?_,?_,?_⟩,?_⟩
    · rw [← hclaimed.slot]
      exact Function.update_self _ _ _
    · exact fun hw => absurd rfl hw
    · exact fun j hj => absurd hj (Nat.not_lt_zero j)
    · exact fun hw => absurd rfl hw
  | cons r w => exact ⟨hclaimed,hhead,hnext,List.cons_ne_nil r w,Function.update_self _ _ _⟩

theorem pushed_alloc (h : Pushing m pushed allocs w k (.alloc i)) :
    Pushing (pushAccess w m (.alloc i)).1 pushed (allocs++[(pushed.length-1,m.next)]) w k
      (.link i) := by
  obtain ⟨hclaimed,hhead,hnext,hw,hnum⟩ := h
  have hsucc := blocks_succ hclaimed.request
  rw [if_neg hw] at hsucc
  refine ⟨hclaimed,hhead,?_,hw,?_,?_,?_⟩
  · exact (congrArg (·+1) hnext).trans hsucc.symm
  · rw [← hclaimed.slot]
    exact hnum
  · rw [← hclaimed.slot]
    exact (Function.update_self _ _ _).trans hnext
  · rw [hclaimed.length,hnext]
    exact List.mem_append_right _ (List.mem_singleton.mpr rfl)

theorem pushed_link (h : Pushing m pushed allocs w k (.link i)) :
    Pushing m pushed allocs w k (.fill i (m.sgeQueue i) 0) := by
  obtain ⟨hclaimed,hlinked⟩ := h
  refine ⟨hclaimed,hlinked,?_,?_,fun c hc => absurd hc (Nat.not_lt_zero c)⟩
  · rw [hclaimed.slot]
    exact hlinked.queue
  · exact Nat.mul_pos (by decide) (List.length_pos_iff.mpr hlinked.nonempty)

theorem setWord_heap (a j v : ℕ) (value : ℕ → ℕ) (h : ∀ c < j, m.heap a c = value c)
    (hv : v = value j) (c : ℕ) (hc : c < j+1) : (setWord m a j v).heap a c = value c := by
  show Function.update m.heap a (Function.update (m.heap a) j v) a c = value c
  rw [Function.update_self]
  by_cases heq : c = j
  · rw [heq,Function.update_self,hv]
  · rw [Function.update_of_ne heq]
    exact h c (by omega)

theorem pushed_fill {a : ℕ} (h : Pushing m pushed allocs w k (.fill i a j)) :
    Pushed (pushAccess w m (.fill i a j)).1 pushed allocs w k
      (pushAccess w m (.fill i a j)).2 := by
  obtain ⟨hclaimed,hlinked,rfl,hj,hwords⟩ := h
  have hheap := setWord_heap (m := m) (blocks pushed k) j _ (fun c => (words w).getD c 0) hwords rfl
  have hlinked' : Linked (setWord m (blocks pushed k) j ((words w).getD j 0)) pushed allocs w k :=
    ⟨hlinked.head,hlinked.next,hlinked.nonempty,hlinked.num,hlinked.queue,hlinked.alloc⟩
  by_cases hlast : j+1 < 3*w.length
  · rw [pushAccess,if_pos hlast]
    exact ⟨hclaimed,hlinked',rfl,hlast,hheap⟩
  · rw [pushAccess,if_neg hlast]
    refine ⟨⟨hclaimed.length,hlinked.head,hlinked.next⟩,⟨hclaimed.request,hlinked.num,
      fun _ => hlinked.queue,?_⟩,fun _ => hlinked.alloc⟩
    intro c hc
    exact hheap c (by omega)

/-- One access after the read of `wr_index`. -/
theorem pushAccess_pushed (h : Pushing m pushed allocs w k pc) (hpc : pc ≠ .index) :
    Pushed (pushAccess w m pc).1 pushed (allocs++allocates pushed.length m pc) w k
      (pushAccess w m pc).2 := by
  have hnil := List.append_nil allocs
  cases pc with
  | index => exact absurd rfl hpc
  | load i =>
    obtain ⟨hclaimed,hhead,hnext⟩ := h
    exact ⟨hclaimed,hhead,hnext⟩
  | store i v =>
    obtain ⟨hclaimed,rfl,hnext⟩ := h
    exact ⟨hclaimed,Nat.mod_add_mod _ _ _,hnext⟩
  | test i =>
    obtain ⟨hclaimed,hhead,hnext⟩ := h
    have hlt : m.head < wrQueueSize := by
      rw [hhead]
      exact (Nat.mod_lt _ slots_pos).trans slots_lt
    rw [pushAccess,if_neg (Nat.not_le.mpr hlt)]
    exact ⟨hclaimed,hhead,hnext⟩
  | reset i => exact h.elim
  | count i =>
    rw [allocates,hnil]
    · exact pushed_count h
    · simp
  | alloc i => exact pushed_alloc h
  | link i =>
    rw [allocates,hnil]
    · exact pushed_link h
    · simp
  | fill i a j =>
    rw [allocates,hnil]
    · exact pushed_fill h
    · simp

end Push

section Pop

variable {m : Mem} {pushed : List (List SgeRecord)} {w : List SgeRecord} {p : ℕ} {pc : PopPc}

/-- What the pop of request `p` has done; `a` is the block of the request. -/
def Popping (tail : ℕ) (w : List SgeRecord) (a p : ℕ) : PopPc → Prop
  | .index => tail = p%slots
  | .load i => i = p%slots ∧ tail = p%slots
  | .store i v => i = p%slots ∧ v = p%slots
  | .test i => i = p%slots ∧ tail = (p+1)%slots
  | .reset _ => False
  | .count i => i = p%slots ∧ tail = (p+1)%slots
  | .link i => i = p%slots ∧ tail = (p+1)%slots ∧ w ≠ []
  | .bound i b j got => i = p%slots ∧ tail = (p+1)%slots ∧ w ≠ [] ∧ b = a ∧ j ≤ w.length ∧
      got = (words w).take (3*j)
  | .word i b j c got => i = p%slots ∧ tail = (p+1)%slots ∧ w ≠ [] ∧ b = a ∧ j < w.length ∧
      c ≤ 2 ∧ got = (words w).take (3*j+c)
  | .release i got => i = p%slots ∧ tail = (p+1)%slots ∧ w ≠ [] ∧ got = words w

/-- The pop goes on, or all words of request `p` are read and its block is
freed. -/
def Popped (m : Mem) (w : List SgeRecord) (a p : ℕ) : Mem × PopResult → Prop
  | (m',.more pc) => ∃ tail, m' = {m with tail := tail} ∧ Popping tail w a p pc
  | (m',.popped got freed) => m' = m ∧ m.tail = (p+1)%slots ∧ got = words w ∧
      freed = if w = [] then none else some a

/-- One more word. -/
theorem take_word (n : ℕ) (hn : n < 3*w.length) :
    (words w).take n++[(words w).getD n 0] = (words w).take (n+1) := by
  rw [← words_length] at hn
  rw [List.take_add_one,List.getD_eq_getElem?_getD,List.getElem?_eq_getElem hn]
  rfl

/-- One access of a pop whose request is stored. -/
theorem popAccess_popped (hs : Stored m pushed w p)
    (h : Popping m.tail w (blocks pushed p) p pc) :
    Popped m w (blocks pushed p) p (popAccess m pc) := by
  have hnum := hs.num
  cases pc with
  | index => exact ⟨_,rfl,h,h⟩
  | load i => exact ⟨_,rfl,h⟩
  | store i v =>
    obtain ⟨hi,rfl⟩ := h
    exact ⟨_,rfl,hi,Nat.mod_add_mod _ _ _⟩
  | test i =>
    obtain ⟨hi,htail⟩ := h
    have hlt : m.tail < wrQueueSize := by
      rw [htail]
      exact (Nat.mod_lt _ slots_pos).trans slots_lt
    rw [popAccess,if_neg (Nat.not_le.mpr hlt)]
    exact ⟨_,rfl,hi,htail⟩
  | reset i => exact h.elim
  | count i =>
    obtain ⟨rfl,htail⟩ := h
    rw [popAccess,hnum]
    cases w with
    | nil => exact ⟨rfl,htail,rfl,rfl⟩
    | cons r w => exact ⟨_,rfl,rfl,htail,List.cons_ne_nil r w⟩
  | link i =>
    obtain ⟨rfl,htail,hw⟩ := h
    exact ⟨_,rfl,rfl,htail,hw,hs.queue hw,Nat.zero_le _,rfl⟩
  | bound i b j got =>
    obtain ⟨rfl,htail,hw,hb,hj,hgot⟩ := h
    rw [popAccess,hnum]
    by_cases hlt : j < w.length
    · rw [if_pos hlt]
      exact ⟨_,rfl,rfl,htail,hw,hb,hlt,Nat.zero_le _,hgot⟩
    · rw [if_neg hlt]
      refine ⟨_,rfl,rfl,htail,hw,?_⟩
      rw [hgot,List.take_of_length_le]
      rw [words_length]
      omega
  | word i b j c got =>
    obtain ⟨rfl,htail,hw,rfl,hj,hc,rfl⟩ := h
    have hn : 3*j+c < 3*w.length := by omega
    rw [popAccess,hs.block _ hn,take_word _ hn]
    by_cases hlt : c < 2
    · rw [if_pos hlt]
      exact ⟨_,rfl,rfl,htail,hw,rfl,hj,hlt,rfl⟩
    · rw [if_neg hlt]
      refine ⟨_,rfl,rfl,htail,hw,rfl,hj,?_⟩
      have hc2 : 3*j+c+1 = 3*(j+1) := by omega
      rw [hc2]
  | release i got =>
    obtain ⟨rfl,htail,hw,hgot⟩ := h
    rw [popAccess,hs.queue hw]
    exact ⟨rfl,htail,hgot,(if_neg hw).symm⟩

end Pop

end FreeFlow.RingEntries
