import FreeFlow.ReceiveRecords

/-!
# Memory accesses to a receive ring

The loops of `ibv_cmd_post_recv`, `ibv_cmd_post_srq_recv` and
`ibv_cmd_poll_cq` as single accesses to the memory their threads share: the
two indices, the entries and the record blocks from `malloc`. A program
counter names the next access and carries what the thread has read so far.

The words of a record are its length and its two addresses. Blocks are
numbered in the order of allocation. The poll reads all three words of a
record, the length also where the addresses are equal and nothing is copied.
-/

set_option autoImplicit false

namespace FreeFlow.RingAccess

open RegisteredMemory (SgeRecord)
open ReceiveRecords (indexBits wrQueueSize)

/-- The number of entries the 16-bit indices run through. -/
def slots : ℕ := 2^indexBits

theorem slots_pos : 0 < slots := by decide

theorem slots_lt : slots < wrQueueSize := by decide

def words (w : List SgeRecord) : List ℕ := w.flatMap fun r => [r.length,r.mrAddr,r.shmAddr]

theorem words_length (w : List SgeRecord) : (words w).length = 3*w.length := by
  induction w with
  | nil => rfl
  | cons r w ih =>
    rw [words,List.flatMap_cons,List.length_append,← words,ih,List.length_cons]
    simp only [List.length_cons,List.length_nil]
    omega

structure Mem where
  head : ℕ
  tail : ℕ
  sgeNum : ℕ → ℕ
  sgeQueue : ℕ → ℕ
  heap : ℕ → ℕ → ℕ
  next : ℕ

/-- The next access of a push; `i` is `wr_index`, `v` a value read of `head`
and `a` the block of the records. -/
inductive PushPc
  | index
  | load (i : ℕ)
  | store (i v : ℕ)
  | test (i : ℕ)
  | reset (i : ℕ)
  | count (i : ℕ)
  | alloc (i : ℕ)
  | link (i : ℕ)
  | fill (i a k : ℕ)
  deriving DecidableEq

def setWord (m : Mem) (a k v : ℕ) : Mem :=
  {m with heap := Function.update m.heap a (Function.update (m.heap a) k v)}

/-- One access of the push of a request with the records `w`; `none` when the
entry is complete. -/
def pushAccess (w : List SgeRecord) (m : Mem) : PushPc → Mem × Option PushPc
  | .index => (m,some (.load m.head))
  | .load i => (m,some (.store i m.head))
  | .store i v => ({m with head := (v+1)%slots},some (.test i))
  | .test i => (m,some (if wrQueueSize ≤ m.head then .reset i else .count i))
  | .reset i => ({m with head := 0},some (.count i))
  | .count i => ({m with sgeNum := Function.update m.sgeNum i w.length},
      if w.length ≠ 0 then some (.alloc i) else none)
  | .alloc i => ({m with sgeQueue := Function.update m.sgeQueue i m.next,next := m.next+1},
      some (.link i))
  | .link i => (m,some (.fill i (m.sgeQueue i) 0))
  | .fill i a k => (setWord m a k ((words w).getD k 0),
      if k+1 < 3*w.length then some (.fill i a (k+1)) else none)

/-- The loop over the requests of a call goes on with the next one, or is done. -/
def nextWr {α : Type*} (pushing : List SgeRecord → List (List SgeRecord) → PushPc → α) (done : α) :
    List (List SgeRecord) → α
  | [] => done
  | w::rest => pushing w rest .index

/-- The next access of the request, or the next request. -/
def proceed {α : Type*} (pushing : List SgeRecord → List (List SgeRecord) → PushPc → α) (done : α)
    (w : List SgeRecord) (rest : List (List SgeRecord)) : Option PushPc → α
  | some pc => pushing w rest pc
  | none => nextWr pushing done rest

/-- The next access of a pop; `got` are the words read. -/
inductive PopPc
  | index
  | load (i : ℕ)
  | store (i v : ℕ)
  | test (i : ℕ)
  | reset (i : ℕ)
  | count (i : ℕ)
  | link (i : ℕ)
  | bound (i a j : ℕ) (got : List ℕ)
  | word (i a j c : ℕ) (got : List ℕ)
  | release (i : ℕ) (got : List ℕ)

/-- What one access of a pop leaves: the next one, or the words of the entry
and the block it has freed, if any. -/
inductive PopResult
  | more (pc : PopPc)
  | popped (got : List ℕ) (freed : Option ℕ)

def popAccess (m : Mem) : PopPc → Mem × PopResult
  | .index => (m,.more (.load m.tail))
  | .load i => (m,.more (.store i m.tail))
  | .store i v => ({m with tail := (v+1)%slots},.more (.test i))
  | .test i => (m,.more (if wrQueueSize ≤ m.tail then .reset i else .count i))
  | .reset i => ({m with tail := 0},.more (.count i))
  | .count i => (m,if m.sgeNum i ≠ 0 then .more (.link i) else .popped [] none)
  | .link i => (m,.more (.bound i (m.sgeQueue i) 0 []))
  | .bound i a j got =>
    (m,.more (if j < m.sgeNum i then .word i a j 0 got else .release i got))
  | .word i a j c got =>
    (m,.more (if c < 2 then .word i a j (c+1) (got++[m.heap a (3*j+c)])
      else .bound i a (j+1) (got++[m.heap a (3*j+c)])))
  | .release i got => (m,.popped got (some (m.sgeQueue i)))

end FreeFlow.RingAccess
