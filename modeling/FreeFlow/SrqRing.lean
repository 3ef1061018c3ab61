import FreeFlow.RingEntries
import FreeFlow.Runs

/-!
# The ring of an SRQ

`ibv_cmd_post_srq_recv` holds `head_lock` of the ring from before its pushes
until the router has answered. `ibv_cmd_poll_cq` on a CQ whose
`map_cq_to_srq` cell names the SRQ holds `tail_lock` from before its request
until after its pops. So any number of threads post and poll, but at any time
at most one thread pushes and at most one pops; nothing excludes these two
from each other. The mutex of the CQ is taken outside `tail_lock` and only
keeps further threads waiting.

The last fields of a state record its history: `pushed` are the requests in
the order of their reads of `head`, `written` counts the completed pushes,
`handed` the requests the router has been told of and `completions` the
receive completions of all responses; `popped` are the words read of each
entry, `allocs` the blocks with the requests they were allocated for and
`freed` the blocks in the order of `free`.
-/

set_option autoImplicit false

namespace FreeFlow.SrqRing

open RegisteredMemory (SgeRecord wcRecv)
open RingAccess RingEntries Runs

/-- A thread in `ibv_cmd_post_srq_recv` that holds `head_lock`. -/
inductive Post
  | pushing (w : List SgeRecord) (rest : List (List SgeRecord)) (pc : PushPc)
  | recorded
  | waiting

/-- A thread in `ibv_cmd_poll_cq` that holds `tail_lock`; `opcodes` are those
of the completions it has not looked at. -/
inductive Poll
  | waiting
  | popping (opcodes : List ℕ) (pc : PopPc)
  | finished

def nextWr : List (List SgeRecord) → Post := RingAccess.nextWr .pushing .recorded

def proceed : List SgeRecord → List (List SgeRecord) → Option PushPc → Post :=
  RingAccess.proceed .pushing .recorded

/-- The loop over the completions pops for the receives and skips the others. -/
def nextWc : List ℕ → Poll
  | [] => .finished
  | opcode::opcodes => if opcode&&&wcRecv ≠ 0 then .popping opcodes .index else nextWc opcodes

def receives (opcodes : List ℕ) : ℕ := opcodes.countP fun opcode => opcode&&&wcRecv ≠ 0

structure State where
  mem : Mem
  poster : Option (ℕ × Post)
  poller : Option (ℕ × Poll)
  pushed : List (List SgeRecord)
  written : ℕ
  handed : ℕ
  completions : ℕ
  popped : List (List ℕ)
  allocs : List (ℕ × ℕ)
  freed : List ℕ

/-- `ibv_cmd_create_srq` sets the two indices; the entries and the heap hold
anything. -/
def started (sgeNum sgeQueue : ℕ → ℕ) (heap : ℕ → ℕ → ℕ) : State :=
  ⟨⟨0,0,sgeNum,sgeQueue,heap,0⟩,none,none,[],0,0,0,[],[],[]⟩

inductive Event
  | post (t : ℕ) (wrs : List (List SgeRecord))
  | push (t : ℕ)
  | hand (t : ℕ)
  | answer (t badWr : ℕ)
  | poll (t : ℕ)
  | response (t : ℕ) (opcodes : List ℕ)
  | pop (t : ℕ)
  | unlock (t : ℕ)

/-- The request an access enters into the ring. -/
def enters (w : List SgeRecord) : PushPc → List (List SgeRecord)
  | .index => [w]
  | _ => []

def push (s : State) (t : ℕ) (w : List SgeRecord) (rest : List (List SgeRecord)) (pc : PushPc) :
    State :=
  {s with mem := (pushAccess w s.mem pc).1
          poster := some (t,proceed w rest (pushAccess w s.mem pc).2)
          pushed := s.pushed++enters w pc
          written := s.written+if (pushAccess w s.mem pc).2.isNone then 1 else 0
          allocs := s.allocs++allocates s.pushed.length s.mem pc}

def pop (s : State) (t : ℕ) (opcodes : List ℕ) (pc : PopPc) : State :=
  match popAccess s.mem pc with
  | (m,.more pc) => {s with mem := m,poller := some (t,.popping opcodes pc)}
  | (m,.popped got freed) =>
    {s with mem := m
            poller := some (t,nextWc opcodes)
            popped := s.popped++[got]
            freed := s.freed++freed.toList}

/-- The spin locks are taken by `post` and `poll` and released by `answer`,
whatever the driver has accepted, and by `unlock`. -/
def step (s : State) : Event → Option State
  | .post t wrs =>
    match s.poster with
    | none => some {s with poster := some (t,nextWr wrs)}
    | _ => none
  | .push t =>
    match s.poster with
    | some (t',.pushing w rest pc) => if t' = t then some (push s t w rest pc) else none
    | _ => none
  | .hand t =>
    match s.poster with
    | some (t',.recorded) =>
      if t' = t then some {s with poster := some (t,.waiting),handed := s.pushed.length} else none
    | _ => none
  | .answer t _ =>
    match s.poster with
    | some (t',.waiting) => if t' = t then some {s with poster := none} else none
    | _ => none
  | .poll t =>
    match s.poller with
    | none => some {s with poller := some (t,.waiting)}
    | _ => none
  | .response t opcodes =>
    match s.poller with
    | some (t',.waiting) =>
      if t' = t then some {s with poller := some (t,nextWc opcodes)
                                  completions := s.completions+receives opcodes}
      else none
    | _ => none
  | .pop t =>
    match s.poller with
    | some (t',.popping opcodes pc) => if t' = t then some (pop s t opcodes pc) else none
    | _ => none
  | .unlock t =>
    match s.poller with
    | some (t',.finished) => if t' = t then some {s with poller := none} else none
    | _ => none

/-- The next access of the post begins a push. -/
def indexing : Option (ℕ × Post) → Bool
  | some (_,.pushing _ _ .index) => true
  | _ => false

/-- A push begins with at most 65535 records pending, and the completions do
not outnumber the requests handed to the router. -/
def Admissible (s : State) : Event → Prop
  | .push _ => indexing s.poster → s.pushed.length ≤ s.popped.length+65535
  | .response _ opcodes => s.completions+receives opcodes ≤ s.handed
  | _ => True

instance (s : State) : ∀ e, Decidable (Admissible s e)
  | .push _ => inferInstanceAs (Decidable
      (indexing s.poster → s.pushed.length ≤ s.popped.length+65535))
  | .response _ opcodes => inferInstanceAs (Decidable
      (s.completions+receives opcodes ≤ s.handed))
  | .post _ _ => isTrue trivial
  | .hand _ => isTrue trivial
  | .answer _ _ => isTrue trivial
  | .poll _ => isTrue trivial
  | .pop _ => isTrue trivial
  | .unlock _ => isTrue trivial

/-- The entry an access reads. -/
def entry : PopPc → Option ℕ
  | .count i => some i
  | .link i => some i
  | .bound i _ _ _ => some i
  | .word i _ _ _ _ => some i
  | .release i _ => some i
  | _ => none

/-- A pop reads the entry of the oldest request that is not popped, and that
request is completely written. -/
def ReadsWritten (s : State) : Event → Prop
  | .pop _ =>
    match s.poller with
    | some (_,.popping _ pc) =>
      ∀ i, entry pc = some i → i = s.popped.length%slots ∧ s.popped.length < s.written
    | _ => True
  | _ => True

/-- The `k`-th record popped is the `k`-th record pushed; the block of a
popped request is freed exactly once and no other block is freed. -/
structure Fifo (s : State) : Prop where
  order : s.popped <+: s.pushed.map words
  allocated : ∀ k w, k < s.popped.length → s.pushed[k]? = some w → w ≠ [] → ∃ a, (k,a) ∈ s.allocs
  freed : ∀ k a, (k,a) ∈ s.allocs → s.freed.count a = if k < s.popped.length then 1 else 0

/-- What holds of the thread that posts. -/
def Producing (m : Mem) (pushed : List (List SgeRecord)) (allocs : List (ℕ × ℕ)) (k : ℕ) :
    Option (ℕ × Post) → Prop
  | some (_,.pushing w _ pc) => Pushing m pushed allocs w k pc
  | _ => Rest m pushed k

/-- What holds of the thread that polls. -/
def Consuming (tail : ℕ) (pushed : List (List SgeRecord)) (p : ℕ) : Option (ℕ × Poll) → Prop
  | some (_,.popping _ pc) => ∃ w, pushed[p]? = some w ∧ Popping tail w (blocks pushed p) p pc
  | _ => tail = p%slots

/-- The receive completions that are still to be looked at. -/
def left : Option (ℕ × Poll) → ℕ
  | some (_,.popping opcodes _) => receives opcodes+1
  | _ => 0

/-- The side of the posts; `p` requests have been popped. -/
structure Writes (m : Mem) (pushed : List (List SgeRecord)) (written : ℕ) (allocs : List (ℕ × ℕ))
    (poster : Option (ℕ × Post)) (p : ℕ) : Prop where
  producing : Producing m pushed allocs written poster
  stored : ∀ k, p ≤ k → k < written → ∃ w, Stored m pushed w k
  room : pushed.length ≤ p+slots
  sound : ∀ k a, (k,a) ∈ allocs → a = blocks pushed k ∧ ∃ w, pushed[k]? = some w ∧ w ≠ []
  kept : ∀ k w, k < written → pushed[k]? = some w → w ≠ [] → (k,blocks pushed k) ∈ allocs

/-- The side of the polls. -/
structure Reads (tail : ℕ) (pushed : List (List SgeRecord)) (poller : Option (ℕ × Poll))
    (popped : List (List ℕ)) (freed : List ℕ) : Prop where
  consuming : Consuming tail pushed popped.length poller
  order : popped <+: pushed.map words
  freed : freed = List.range (blocks pushed popped.length)

structure Inv (s : State) : Prop where
  writes : Writes s.mem s.pushed s.written s.allocs s.poster s.popped.length
  reads : Reads s.mem.tail s.pushed s.poller s.popped s.freed
  account : s.completions = s.popped.length+left s.poller
  credit : s.completions ≤ s.handed
  handed : s.handed ≤ s.written

theorem inv_started (sgeNum sgeQueue : ℕ → ℕ) (heap : ℕ → ℕ → ℕ) :
    Inv (started sgeNum sgeQueue heap) where
  writes := ⟨⟨rfl,rfl,rfl⟩,fun k _ hk => absurd hk (Nat.not_lt_zero k),Nat.zero_le _,
    fun k a h => absurd h (by simp [started]),fun k w hk => absurd hk (Nat.not_lt_zero k)⟩
  reads := ⟨rfl,List.nil_prefix,rfl⟩
  account := rfl
  credit := le_refl _
  handed := le_refl _

section Posts

variable {m : Mem} {pushed : List (List SgeRecord)} {written p t : ℕ} {allocs : List (ℕ × ℕ)}
  {poster poster' : Option (ℕ × Post)} {w : List SgeRecord} {rest : List (List SgeRecord)}
  {pc : PushPc}

theorem producing_nextWr (wrs : List (List SgeRecord)) (h : Rest m pushed written) :
    Producing m pushed allocs written (some (t,nextWr wrs)) := by
  cases wrs with
  | nil => exact h
  | cons w rest => exact h

/-- A call begins, hands its requests over or returns. -/
theorem Writes.move (h : Writes m pushed written allocs poster p)
    (hp : Producing m pushed allocs written poster') :
    Writes m pushed written allocs poster' p :=
  ⟨hp,h.stored,h.room,h.sound,h.kept⟩

/-- The read of `wr_index`. -/
theorem Writes.index (h : Writes m pushed written allocs (some (t,.pushing w rest .index)) p)
    (hroom : pushed.length < p+slots) :
    Writes m (pushed++[w]) written allocs (some (t,.pushing w rest (.load m.head))) p := by
  have hrest : Rest m pushed written := h.producing
  have hlen := hrest.length
  have hload : Pushing m (pushed++[w]) allocs w written (.load m.head) := pushing_index hrest
  refine ⟨hload,?_,?_,?_,?_⟩
  · intro k hp hk
    obtain ⟨v,hv⟩ := h.stored k hp hk
    exact ⟨v,hv.append⟩
  · rw [List.length_append,List.length_singleton]
    exact hroom
  · intro k a ha
    obtain ⟨hblock,v,hv,hne⟩ := h.sound k a ha
    obtain ⟨hlt,-⟩ := List.getElem?_eq_some_iff.mp hv
    rw [blocks_append hlt.le,List.getElem?_append_left hlt]
    exact ⟨hblock,v,hv,hne⟩
  · intro k v hk hv hne
    have hlt : k < pushed.length := hlen ▸ hk
    rw [List.getElem?_append_left hlt] at hv
    rw [blocks_append hlt.le]
    exact h.kept k v hk hv hne

/-- The blocks an access allocates belong to the request it pushes. -/
theorem allocates_sound (h : Pushing m pushed allocs w written pc) (k a : ℕ)
    (hmem : (k,a) ∈ allocates pushed.length m pc) :
    a = blocks pushed k ∧ ∃ w, pushed[k]? = some w ∧ w ≠ [] := by
  cases pc with
  | alloc i =>
    obtain ⟨hclaimed,-,hnext,hw,-⟩ := h
    simp only [allocates,List.mem_singleton,Prod.mk.injEq] at hmem
    obtain ⟨rfl,rfl⟩ := hmem
    rw [hclaimed.length]
    exact ⟨hnext,w,hclaimed.request,hw⟩
  | _ => exact absurd hmem (by simp [allocates])

theorem pushing_claimed (h : Pushing m pushed allocs w written pc) (hpc : pc ≠ .index) :
    pushed.length = written+1 ∧ pushed[written]? = some w := by
  cases pc with
  | index => exact absurd rfl hpc
  | reset i => exact h.elim
  | _ => exact ⟨h.1.length,h.1.request⟩

/-- Any later access of the push. -/
theorem Writes.access (h : Writes m pushed written allocs (some (t,.pushing w rest pc)) p)
    (hpc : pc ≠ .index) :
    Writes (pushAccess w m pc).1 pushed
      (written+if (pushAccess w m pc).2.isNone then 1 else 0)
      (allocs++allocates pushed.length m pc)
      (some (t,proceed w rest (pushAccess w m pc).2)) p := by
  have hpushing : Pushing m pushed allocs w written pc := h.producing
  obtain ⟨hlen,hw⟩ := pushing_claimed hpushing hpc
  have hconfined := pushAccess_confined hpushing
  have hstored : ∀ k, p ≤ k → k < written → ∃ v, Stored (pushAccess w m pc).1 pushed v k := by
    intro k hp hk
    obtain ⟨v,hv⟩ := h.stored k hp hk
    have hroom := h.room
    exact ⟨v,hv.confined hconfined hk (by omega)⟩
  have hsound : ∀ k a, (k,a) ∈ allocs++allocates pushed.length m pc →
      a = blocks pushed k ∧ ∃ w, pushed[k]? = some w ∧ w ≠ [] := by
    intro k a ha
    rcases List.mem_append.mp ha with ha | ha
    · exact h.sound k a ha
    · exact allocates_sound hpushing k a ha
  have hkept : ∀ k v, k < written → pushed[k]? = some v → v ≠ [] →
      (k,blocks pushed k) ∈ allocs++allocates pushed.length m pc :=
    fun k v hk hv hne => List.mem_append_left _ (h.kept k v hk hv hne)
  have hpushed := pushAccess_pushed hpushing hpc
  cases hnext : (pushAccess w m pc).2 with
  | some pc' =>
    rw [hnext] at hpushed
    exact ⟨hpushed,hstored,h.room,hsound,hkept⟩
  | none =>
    rw [hnext] at hpushed
    obtain ⟨hrest,hlast,halloc⟩ := hpushed
    refine ⟨producing_nextWr rest hrest,?_,h.room,hsound,?_⟩
    · intro k hp hk
      rcases Nat.lt_succ_iff_lt_or_eq.mp hk with hlt | rfl
      · exact hstored k hp hlt
      · exact ⟨w,hlast⟩
    · intro k v hk hv hne
      rcases Nat.lt_succ_iff_lt_or_eq.mp hk with hlt | rfl
      · exact hkept k v hlt hv hne
      · obtain rfl := Option.some.inj (hw.symm.trans hv)
        exact halloc hne

theorem Writes.written_le (h : Writes m pushed written allocs poster p) :
    written ≤ pushed.length := by
  have hp := h.producing
  rcases poster with _ | ⟨t,post⟩
  · exact hp.length.ge
  · cases post with
    | recorded => exact hp.length.ge
    | waiting => exact hp.length.ge
    | pushing w rest pc =>
      by_cases hpc : pc = .index
      · subst hpc
        exact hp.length.ge
      · obtain ⟨hlen,-⟩ := pushing_claimed hp hpc
        omega

/-- Pops move the tail and make room. -/
theorem Writes.pop (h : Writes m pushed written allocs poster p) (x : ℕ) {p' : ℕ} (hle : p ≤ p') :
    Writes {m with tail := x} pushed written allocs poster p' := by
  refine ⟨?_,?_,h.room.trans (Nat.add_le_add_right hle _),h.sound,h.kept⟩
  · have hp := h.producing
    rcases poster with _ | ⟨t,post⟩
    · exact ⟨hp.length,hp.head,hp.next⟩
    · cases post with
      | recorded => exact ⟨hp.length,hp.head,hp.next⟩
      | waiting => exact ⟨hp.length,hp.head,hp.next⟩
      | pushing w rest pc => exact Pushing.tail hp x
  · intro k hk hlt
    obtain ⟨v,hv⟩ := h.stored k (hle.trans hk) hlt
    exact ⟨v,hv.tail x⟩

end Posts

section Polls

variable {tail p t : ℕ} {pushed : List (List SgeRecord)} {poller poller' : Option (ℕ × Poll)}
  {popped : List (List ℕ)} {freed : List ℕ} {w : List SgeRecord}

theorem left_nextWc (opcodes : List ℕ) : left (some (t,nextWc opcodes)) = receives opcodes := by
  induction opcodes with
  | nil => rfl
  | cons opcode opcodes ih =>
    by_cases hrecv : opcode&&&wcRecv ≠ 0
    · rw [nextWc,if_pos hrecv,receives,List.countP_cons_of_pos (by simpa using hrecv)]
      rfl
    · rw [nextWc,if_neg hrecv,receives,List.countP_cons_of_neg (by simpa using hrecv)]
      exact ih

/-- A pop begins at the oldest request, which the router has been told of. -/
theorem consuming_nextWc (opcodes : List ℕ) (htail : tail = p%slots)
    (hp : receives opcodes ≠ 0 → p < pushed.length) :
    Consuming tail pushed p (some (t,nextWc opcodes)) := by
  induction opcodes with
  | nil => exact htail
  | cons opcode opcodes ih =>
    by_cases hrecv : opcode&&&wcRecv ≠ 0
    · rw [receives,List.countP_cons_of_pos (by simpa using hrecv)] at hp
      rw [nextWc,if_pos hrecv]
      exact ⟨_,List.getElem?_eq_getElem (hp (Nat.succ_ne_zero _)),htail⟩
    · rw [receives,List.countP_cons_of_neg (by simpa using hrecv)] at hp
      rw [nextWc,if_neg hrecv]
      exact ih hp

theorem order_length (h : popped <+: pushed.map words) : popped.length ≤ pushed.length := by
  simpa using h.length_le

theorem consuming_append (h : Consuming tail pushed p poller) :
    Consuming tail (pushed++[w]) p poller := by
  rcases poller with _ | ⟨t,poll⟩
  · exact h
  · cases poll with
    | waiting => exact h
    | finished => exact h
    | popping opcodes pc =>
      obtain ⟨v,hv,hpop⟩ := h
      obtain ⟨hlt,-⟩ := List.getElem?_eq_some_iff.mp hv
      refine ⟨v,(List.getElem?_append_left hlt).trans hv,?_⟩
      rw [blocks_append hlt.le]
      exact hpop

/-- A push at the other end. -/
theorem Reads.append (h : Reads tail pushed poller popped freed) :
    Reads tail (pushed++[w]) poller popped freed := by
  have hle := order_length h.order
  refine ⟨consuming_append h.consuming,?_,?_⟩
  · rw [List.map_append]
    exact h.order.trans (List.prefix_append _ _)
  · rw [blocks_append hle]
    exact h.freed

/-- The next record in order. -/
theorem order_concat (h : popped <+: pushed.map words) (hw : pushed[popped.length]? = some w) :
    popped++[words w] <+: pushed.map words := by
  rw [List.prefix_iff_eq_take] at h ⊢
  rw [List.length_append,List.length_singleton,List.take_add_one,← h,List.getElem?_map,hw]
  rfl

theorem freed_concat (hw : pushed[p]? = some w) (h : freed = List.range (blocks pushed p)) :
    freed++(if w = [] then none else some (blocks pushed p)).toList =
      List.range (blocks pushed (p+1)) := by
  rw [blocks_succ hw,h]
  by_cases hne : w = []
  · rw [if_pos hne,if_pos hne]
    exact List.append_nil _
  · rw [if_neg hne,if_neg hne,List.range_succ]
    rfl

end Polls

section Steps

variable {s : State} {t : ℕ}

theorem inv_poster (hI : Inv s) (poster : Option (ℕ × Post)) (handed : ℕ)
    (hp : Producing s.mem s.pushed s.allocs s.written poster) (hlo : s.handed ≤ handed)
    (hhi : handed ≤ s.written) : Inv {s with poster := poster,handed := handed} where
  writes := hI.writes.move hp
  reads := hI.reads
  account := hI.account
  credit := hI.credit.trans hlo
  handed := hhi

theorem enters_of_ne (w : List SgeRecord) {pc : PushPc} (hpc : pc ≠ .index) : enters w pc = [] := by
  cases pc with
  | index => exact absurd rfl hpc
  | _ => rfl

theorem inv_push (hI : Inv s) (w : List SgeRecord) (rest : List (List SgeRecord)) (pc : PushPc)
    (hposter : s.poster = some (t,.pushing w rest pc))
    (hroom : pc = .index → s.pushed.length ≤ s.popped.length+65535) :
    Inv (push s t w rest pc) := by
  have hwrites := hI.writes
  rw [hposter] at hwrites
  by_cases hpc : pc = .index
  · subst hpc
    constructor
    · show Writes s.mem (s.pushed++[w]) s.written (s.allocs++[]) _ _
      rw [List.append_nil]
      exact hwrites.index (Nat.lt_succ_of_le (hroom rfl))
    · exact hI.reads.append
    · exact hI.account
    · exact hI.credit
    · exact hI.handed
  · have hpushed : s.pushed++enters w pc = s.pushed := by rw [enters_of_ne w hpc,List.append_nil]
    constructor
    · rw [push,hpushed]
      exact hwrites.access hpc
    · rw [push,hpushed,(pushAccess_confined hwrites.producing).tail]
      exact hI.reads
    · exact hI.account
    · exact hI.credit
    · exact hI.handed.trans (Nat.le_add_right _ _)

theorem inv_response (hI : Inv s) (hpoller : s.poller = some (t,.waiting)) (opcodes : List ℕ)
    (hcredit : s.completions+receives opcodes ≤ s.handed) :
    Inv {s with poller := some (t,nextWc opcodes)
                completions := s.completions+receives opcodes} := by
  have hreads := hI.reads
  have haccount := hI.account
  rw [hpoller] at hreads haccount
  have hzero : s.completions = s.popped.length := haccount
  have hle := hI.writes.written_le
  have hhanded := hI.handed
  have hmore : receives opcodes ≠ 0 → s.popped.length < s.pushed.length := by omega
  refine ⟨hI.writes,⟨?_,hreads.order,hreads.freed⟩,?_,hcredit,hI.handed⟩
  · exact consuming_nextWc opcodes hreads.consuming hmore
  · rw [left_nextWc]
    exact congrArg (·+receives opcodes) hzero

theorem inv_pop (hI : Inv s) (opcodes : List ℕ) (pc : PopPc)
    (hpoller : s.poller = some (t,.popping opcodes pc)) : Inv (pop s t opcodes pc) := by
  have hreads := hI.reads
  have haccount := hI.account
  rw [hpoller] at hreads haccount
  have hcount : s.completions = s.popped.length+(receives opcodes+1) := haccount
  have hcredit := hI.credit
  have hhanded := hI.handed
  have hle := hI.writes.written_le
  have hmore : receives opcodes ≠ 0 → s.popped.length+1 < s.pushed.length := by omega
  obtain ⟨w,hw,hpop⟩ := hreads.consuming
  obtain ⟨v,hstored⟩ := hI.writes.stored s.popped.length (le_refl _) (by omega)
  obtain rfl := Option.some.inj (hw.symm.trans hstored.request)
  have hpopped := popAccess_popped hstored hpop
  unfold pop
  cases hres : popAccess s.mem pc with
  | mk m result =>
    rw [hres] at hpopped
    cases result with
    | more pc' =>
      obtain ⟨tail,rfl,hpop'⟩ := hpopped
      exact ⟨hI.writes.pop tail (le_refl _),⟨⟨w,hw,hpop'⟩,hreads.order,hreads.freed⟩,hcount,
        hI.credit,hI.handed⟩
    | popped got freed =>
      obtain ⟨rfl,htail,rfl,rfl⟩ := hpopped
      have hlen : (s.popped++[words w]).length = s.popped.length+1 := by
        rw [List.length_append,List.length_singleton]
      constructor
      · rw [hlen]
        exact hI.writes.pop s.mem.tail (Nat.le_succ _)
      · refine ⟨?_,order_concat hreads.order hw,?_⟩
        · rw [hlen]
          exact consuming_nextWc opcodes htail hmore
        · rw [hlen]
          exact freed_concat hw hreads.freed
      · rw [hlen,left_nextWc,hcount]
        omega
      · exact hI.credit
      · exact hI.handed

end Steps

theorem inv_step (s : State) (e : Event) (u : State) (hI : Inv s) (hadm : Admissible s e)
    (hu : step s e = some u) : Inv u := by
  have hproducing := hI.writes.producing
  have hreads := hI.reads
  have haccount := hI.account
  cases e with
  | post t wrs =>
    simp only [step] at hu
    split at hu
    · next hposter =>
      obtain rfl := Option.some.inj hu
      rw [hposter] at hproducing
      exact inv_poster hI _ s.handed (producing_nextWr wrs hproducing) (le_refl _) hI.handed
    · exact absurd hu (by simp)
  | push t =>
    simp only [step] at hu
    split at hu
    · next t' w rest pc hposter =>
      obtain ⟨rfl,hsome⟩ := Option.ite_none_right_eq_some.mp hu
      obtain rfl := Option.some.inj hsome
      refine inv_push hI w rest pc hposter ?_
      rintro rfl
      rw [Admissible,hposter] at hadm
      exact hadm rfl
    · exact absurd hu (by simp)
  | hand t =>
    simp only [step] at hu
    split at hu
    · next t' hposter =>
      obtain ⟨rfl,hsome⟩ := Option.ite_none_right_eq_some.mp hu
      obtain rfl := Option.some.inj hsome
      rw [hposter] at hproducing
      have hrest : Rest s.mem s.pushed s.written := hproducing
      exact inv_poster hI _ _ hrest (hI.handed.trans hrest.length.ge) hrest.length.le
    · exact absurd hu (by simp)
  | answer t badWr =>
    simp only [step] at hu
    split at hu
    · next t' hposter =>
      obtain ⟨rfl,hsome⟩ := Option.ite_none_right_eq_some.mp hu
      obtain rfl := Option.some.inj hsome
      rw [hposter] at hproducing
      exact inv_poster hI none s.handed hproducing (le_refl _) hI.handed
    · exact absurd hu (by simp)
  | poll t =>
    simp only [step] at hu
    split at hu
    · next hpoller =>
      obtain rfl := Option.some.inj hu
      rw [hpoller] at hreads haccount
      exact ⟨hI.writes,⟨hreads.consuming,hreads.order,hreads.freed⟩,haccount,hI.credit,hI.handed⟩
    · exact absurd hu (by simp)
  | response t opcodes =>
    simp only [step] at hu
    split at hu
    · next t' hpoller =>
      obtain ⟨rfl,hsome⟩ := Option.ite_none_right_eq_some.mp hu
      obtain rfl := Option.some.inj hsome
      exact inv_response hI hpoller opcodes hadm
    · exact absurd hu (by simp)
  | pop t =>
    simp only [step] at hu
    split at hu
    · next t' opcodes pc hpoller =>
      obtain ⟨rfl,hsome⟩ := Option.ite_none_right_eq_some.mp hu
      obtain rfl := Option.some.inj hsome
      exact inv_pop hI opcodes pc hpoller
    · exact absurd hu (by simp)
  | unlock t =>
    simp only [step] at hu
    split at hu
    · next t' hpoller =>
      obtain ⟨rfl,hsome⟩ := Option.ite_none_right_eq_some.mp hu
      obtain rfl := Option.some.inj hsome
      rw [hpoller] at hreads haccount
      exact ⟨hI.writes,⟨hreads.consuming,hreads.order,hreads.freed⟩,haccount,hI.credit,hI.handed⟩
    · exact absurd hu (by simp)

theorem fifo_of_inv {s : State} (hI : Inv s) : Fifo s where
  order := hI.reads.order
  allocated := by
    intro k w hk hw hne
    have haccount := hI.account
    have hcredit := hI.credit
    have hhanded := hI.handed
    exact ⟨_,hI.writes.kept k w (by omega) hw hne⟩
  freed := by
    intro k a ha
    obtain ⟨rfl,w,hw,hne⟩ := hI.writes.sound k a ha
    rw [hI.reads.freed]
    by_cases hk : k < s.popped.length
    · rw [if_pos hk]
      exact List.count_eq_one_of_mem List.nodup_range (List.mem_range.mpr (blocks_lt hw hne hk))
    · rw [if_neg hk]
      apply List.count_eq_zero_of_not_mem
      rw [List.mem_range]
      exact Nat.not_lt.mpr (blocks_mono (Nat.not_lt.mp hk))

theorem popping_entry {tail a p i : ℕ} {w : List SgeRecord} {pc : PopPc}
    (h : Popping tail w a p pc) (hi : entry pc = some i) : i = p%slots := by
  cases pc with
  | count i' => exact (Option.some.inj hi).symm.trans h.1
  | link i' => exact (Option.some.inj hi).symm.trans h.1
  | bound i' b j got => exact (Option.some.inj hi).symm.trans h.1
  | word i' b j c got => exact (Option.some.inj hi).symm.trans h.1
  | release i' got => exact (Option.some.inj hi).symm.trans h.1
  | _ => exact absurd hi (by simp [entry])

theorem readsWritten_of_inv (s : State) (e : Event) (hI : Inv s) : ReadsWritten s e := by
  cases e with
  | pop t =>
    have hconsuming := hI.reads.consuming
    have haccount := hI.account
    rw [ReadsWritten]
    split
    · next t' opcodes pc hpoller =>
      rw [hpoller] at hconsuming haccount
      obtain ⟨w,-,hpop⟩ := hconsuming
      have hcount : s.completions = s.popped.length+(receives opcodes+1) := haccount
      have hcredit := hI.credit
      have hhanded := hI.handed
      exact fun i hi => ⟨popping_entry hpop hi,by omega⟩
    · trivial
  | _ => trivial

/-- In every interleaving of the accesses of any number of posting and polling
threads the ring of an SRQ is a queue: records are popped in the order in
which they were pushed, read only when they are completely written, and the
block of each is freed exactly once. -/
theorem srq_ring_fifo (sgeNum sgeQueue : ℕ → ℕ) (heap : ℕ → ℕ → ℕ) (events : List Event) (s : State)
    (hadm : Along step Admissible (started sgeNum sgeQueue heap) events)
    (hrun : run step (started sgeNum sgeQueue heap) events = some s) :
    Fifo s ∧ Along step ReadsWritten (started sgeNum sgeQueue heap) events := by
  have hstart := inv_started sgeNum sgeQueue heap
  constructor
  · exact fifo_of_inv (run_invariant step Admissible Inv inv_step _ events s hstart hadm hrun)
  · exact along_of_invariant step Admissible ReadsWritten Inv inv_step readsWritten_of_inv _ events
      hstart hadm

/-- A thread waits for receives while another one posts two; the second is
pushed before the first is popped. -/
def twoReceives : List Event :=
  .poll 2::.post 1 [[⟨1,4100,8192⟩],[⟨2,4200,8200⟩]]::List.replicate 20 (.push 1)++
    [.hand 1,.response 2 [wcRecv,0,wcRecv]]++List.replicate 24 (.pop 2)++[.answer 1 0,.unlock 2]

theorem two_receives_popped : ∃ s,
    run step (started (fun _ => 7) (fun _ => 7) (fun _ _ => 7)) twoReceives = some s ∧
      s.popped = [[1,4100,8192],[2,4200,8200]] ∧ s.freed = [0,1] ∧ Fifo s ∧
      Along step ReadsWritten (started (fun _ => 7) (fun _ => 7) (fun _ _ => 7)) twoReceives :=
  ⟨_,rfl,rfl,rfl,srq_ring_fifo _ _ _ twoReceives _ (by decide +kernel) rfl⟩

end FreeFlow.SrqRing
