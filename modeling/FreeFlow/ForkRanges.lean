import FreeFlow.RedBlack
import Mathlib.Algebra.Order.Group.Int
import Mathlib.Algebra.Order.Group.Nat

/-!
# Memory ranges kept out of a fork

The tree of `memory.c`: each node is a range of addresses with the number of
times it was asked to be kept out of a child process, and the nodes cover the
whole address space. A node is known by its `start`, which never changes;
`stop` is the field `end` of the source, the last address of the range.

`mallocs` and `madvises` are the answers of the coming calls of `malloc` and
`madvise`, which succeed when nothing is said, and `calls` are the calls of
`madvise` that were made. A step that would follow a null pointer has no
result.
-/

set_option autoImplicit false

namespace FreeFlow.ForkRanges

open RedBlack (RbTree locate add)
open RedBlack.RbTree

def uintptrMax : ℕ := 2^64-1

structure MemNode where
  start : ℕ
  stop : ℕ
  refcnt : ℤ
  deriving DecidableEq

inductive Advice
  | dontfork
  | dofork
  deriving DecidableEq

def Advice.inc : Advice → ℤ
  | .dontfork => 1
  | .dofork => -1

def Advice.flip : Advice → Advice
  | .dontfork => .dofork
  | .dofork => .dontfork

/-- A call of `madvise` for the addresses from `addr` to `last`. -/
structure Call where
  addr : ℕ
  last : ℕ
  advice : Advice
  ok : Bool
  deriving DecidableEq

structure Mm where
  root : RbTree MemNode
  mallocs : List Bool
  madvises : List Bool
  calls : List Call

/-- `ibv_fork_init`, once `madvise` is found to work. -/
def ibvForkInit (mallocs madvises : List Bool) : Mm :=
  ⟨node .black leaf ⟨0,uintptrMax,0⟩ leaf,mallocs,madvises,[]⟩

/-! ## Nodes -/

def Mm.load (m : Mm) (p : ℕ) : Option MemNode := (locate MemNode.start p m.root []).map (·.value)

def Mm.store (m : Mm) (p : ℕ) (f : MemNode → MemNode) : Option Mm :=
  (locate MemNode.start p m.root []).map fun z => {m with root := z.modify f}

def mmPrev (m : Mm) (p : ℕ) : Option (Option MemNode) :=
  (locate MemNode.start p m.root []).map (·.prev)

def mmNext (m : Mm) (p : ℕ) : Option (Option MemNode) :=
  (locate MemNode.start p m.root []).map (·.next)

def mmAdd (m : Mm) (new : MemNode) : Option Mm :=
  (add (fun x => x.start < new.start) new m.root).map fun root => {m with root := root}

def mmRemove (m : Mm) (p : ℕ) : Option Mm :=
  ((locate MemNode.start p m.root []).bind (·.remove)).map fun root => {m with root := root}

def mmFindStart (start : ℕ) : RbTree MemNode → Option MemNode
  | leaf => none
  | node _ l x r =>
    if x.start ≤ start ∧ start ≤ x.stop then some x
    else if x.start < start then mmFindStart start r
    else mmFindStart start l

def Mm.malloc (m : Mm) : Mm := {m with mallocs := m.mallocs.tail}

def Mm.madvise (m : Mm) (addr last : ℕ) (advice : Advice) : Mm :=
  {m with madvises := m.madvises.tail,calls := m.calls++[⟨addr,last,advice,m.madvises.headD true⟩]}

/-! ## Ranges -/

def mergeRanges (m : Mm) (p prev : ℕ) : Option (Mm × ℕ) := do
  let x ← m.load p
  let m ← m.store prev fun y => {y with stop := x.stop,refcnt := x.refcnt}
  let m ← mmRemove m p
  some (m,prev)

/-- The new node, unless `malloc` has failed. -/
def splitRange (m : Mm) (p cut : ℕ) : Option (Mm × Option ℕ) :=
  if m.mallocs.headD true then do
    let x ← m.load p
    let m ← m.malloc.store p fun y => {y with stop := cut-1}
    let m ← mmAdd m ⟨cut,x.stop,x.refcnt⟩
    some (m,some cut)
  else some (m.malloc,none)

/-- A node is merged with the one before it when that one has the count `refcnt`. -/
def mergePrev (m : Mm) (p : ℕ) (refcnt : ℤ) : Option (Mm × ℕ) := do
  match ← mmPrev m p with
  | some tmp => if tmp.refcnt = refcnt then mergeRanges m p tmp.start else some (m,p)
  | none => some (m,p)

/-- The node behind a node is merged with it when it has the same count. -/
def mergeNext (m : Mm) (p : ℕ) : Option (Mm × ℕ) := do
  let x ← m.load p
  match ← mmNext m p with
  | some tmp => if tmp.refcnt = x.refcnt then mergeRanges m tmp.start p else some (m,p)
  | none => some (m,p)

def getStartNode (m : Mm) (start : ℕ) (inc : ℤ) : Option (Mm × Option ℕ) := do
  let x ← mmFindStart start m.root
  if x.start < start then splitRange m x.start start
  else (mergePrev m x.start (x.refcnt+inc)).map fun out => (out.1,some out.2)

/-- A node that was merged with the one before it is split again. -/
def undoMerge (m : Mm) (p start : ℕ) (inc : ℤ) : Option (Mm × Option ℕ) := do
  let x ← m.load p
  if x.start < start then
    match ← splitRange m p start with
    | (m,some q) => (m.store p fun y => {y with refcnt := y.refcnt+inc}).map fun m => (m,some q)
    | (m,none) => some (m,none)
  else some (m,some p)

def undoNode (m : Mm) (p start : ℕ) (inc : ℤ) : Option (Mm × Option ℕ) := do
  match ← undoMerge m p start inc with
  | (m,none) => some (m,none)
  | (m,some p) =>
    let x ← m.load p
    let (m,p) ← mergePrev m p x.refcnt
    (mergeNext m p).map fun out => (out.1,some out.2)

/-! ## The loop of `ibv_madvise_range` -/

/-- What ends the loop: the last node was passed, `malloc` failed, or `madvise`
failed for a node. -/
inductive Outcome
  | passed (p : Option ℕ)
  | noMemory
  | failed (p : ℕ)
  deriving DecidableEq

/-- The node is split when it goes on behind the range. -/
def cutEnd (m : Mm) (p stop : ℕ) : Option (Mm × Bool) := do
  let x ← m.load p
  if stop < x.stop then (splitRange m p (stop+1)).map fun out => (out.1,out.2.isSome)
  else some (m,true)

/-- `madvise` is called for a node whose pages get their first owner or lose the last one. -/
def advises (advice : Advice) (refcnt : ℤ) : Bool :=
  advice = .dofork && refcnt = 1 || advice = .dontfork && refcnt = 0

def adviseNode (m : Mm) (x : MemNode) (start : ℕ) (advice : Advice) : Mm × Bool :=
  if advises advice x.refcnt then
    if x.start < start then (m.madvise start x.stop advice,m.madvises.headD true)
    else (m.madvise x.start x.stop advice,m.madvises.headD true)
  else (m,true)

/-- The pages of a node are advised about and counted, unless `madvise` fails. -/
def countNode (m : Mm) (p start : ℕ) (advice : Advice) : Option (Mm × Bool) := do
  let x ← m.load p
  match adviseNode m x start advice with
  | (m,false) => some (m,false)
  | (m,true) =>
    (m.store p fun y => {y with refcnt := y.refcnt+advice.inc}).map fun m => (m,true)

def walk (start stop : ℕ) (advice : Advice) : ℕ → Mm → Option ℕ → Option (Mm × Outcome)
  | 0, _, _ => none
  | _+1, m, none => some (m,.passed none)
  | fuel+1, m, some p => do
    let x ← m.load p
    if stop < x.start then some (m,.passed (some p))
    else
      match ← cutEnd m p stop with
      | (m,false) => some (m,.noMemory)
      | (m,true) =>
        match ← countNode m p start advice with
        | (m,false) => some (m,.failed p)
        | (m,true) =>
          let next ← mmNext m p
          walk start stop advice fuel m (next.map (·.start))

/-- From the label `again` to the end of the loop. -/
def pass (m : Mm) (start stop : ℕ) (advice : Advice) : Option (Mm × Outcome) := do
  match ← getStartNode m start advice.inc with
  | (m,none) => some (m,.noMemory)
  | (m,some p) => walk start stop advice (m.root.toList.length+1) m (some p)

/-- Behind the loop: the node after the range may have the count of the one before it. -/
def finish (m : Mm) : Option ℕ → Option Mm
  | none => some m
  | some p => do
    let x ← m.load p
    (mergePrev m p x.refcnt).map Prod.fst

/-- The second round, after a failure, gives up at the first failure. -/
def rollBack (m : Mm) (start stop : ℕ) (advice : Advice) : Option Mm := do
  match ← pass m start stop advice with
  | (m,.passed p) => finish m p
  | (m,.noMemory) => some m
  | (m,.failed p) => (undoNode m p start advice.inc).map Prod.fst

/-- What is left of `ibv_madvise_range` when `madvise` has failed for a node. -/
def recover (m : Mm) (p start : ℕ) (advice : Advice) : Option Mm := do
  match ← undoNode m p start advice.inc with
  | (m,none) => some m
  | (m,some p) =>
    match ← mmPrev m p with
    | none => some m
    | some tmp => if tmp.stop < start then some m else rollBack m start tmp.stop advice.flip

/-- `ibv_madvise_range` for the range of whole pages, with the result 0 or -1. -/
def adviseRange (m : Mm) (start stop : ℕ) (advice : Advice) : Option (Mm × ℤ) := do
  match ← pass m start stop advice with
  | (m,.passed p) => (finish m p).map fun m => (m,0)
  | (m,.noMemory) => some (m,-1)
  | (m,.failed p) => (recover m p start advice).map fun m => (m,-1)

def pageDown (pageSize addr : ℕ) : ℕ := addr/pageSize*pageSize

def rangeStart (pageSize base : ℕ) : ℕ := pageDown pageSize base

def rangeStop (pageSize base size : ℕ) : ℕ :=
  (pageDown pageSize ((base+size+pageSize-1)%2^64)+2^64-1)%2^64

/-- `pageSize` is the size of the pages at `base`. -/
def ibvMadviseRange (m : Mm) (pageSize base size : ℕ) (advice : Advice) : Option (Mm × ℤ) :=
  if size = 0 then some (m,0)
  else adviseRange m (rangeStart pageSize base) (rangeStop pageSize base size) advice

end FreeFlow.ForkRanges
