import FreeFlow.DestroyRace

/-!
# The lifetimes of control slots

A create request makes its slot with `initCtrlShm`, stores it in `qp_shm_map`, `cq_shm_map` or
`srq_shm_map` and pushes the handle onto the vector of its kind, under the mutex of the
kind. A destroy request removes the handle from the vector under the same mutex, and after
that it deletes the slot and clears the entry, outside the mutex. The control loop goes
through one vector after the other, each under its mutex, and dereferences the slots it
finds in the map.

A handle that is in a vector has a slot that is complete and whose deletion has not begun.
The loop and the request threads may be interrupted between any two steps. The pass over
the CQs may go on at any index.
-/

set_option autoImplicit false

namespace FreeFlow.SlotLifetimes

open DestroyRace (Kind)
open Runs Threads Wire

/-- A handle of a kind. -/
abbrev Key := Kind × ℕ

/-- A slot with the key it was made for; no two slots have one number. -/
structure Slot where
  key : Key
  serial : ℕ
  deriving DecidableEq

inductive Owner
  | loop
  | thread (t : ℕ)
  deriving DecidableEq

inductive LoopPc
  /-- Before the mutex of a kind. -/
  | outside (k : Kind)
  | scanning (k : Kind) (i : ℕ)
  /-- From the load of the slot to the end of the iteration. -/
  | serving (k : Kind) (i : ℕ) (o : Slot)

/-- Where a request thread stands: in a create request up to `pushed`, in a destroy request
from `found` on. -/
inductive Pc
  | idle
  | created (x : Key)
  | mapped (x : Key)
  | opening (x : Key) (o : Slot)
  | opened (x : Key) (o : Slot)
  | installed (x : Key)
  | pushing (x : Key)
  | pushed (x : Key)
  | found (x : Key)
  | unmapped (x : Key)
  | destroyed (x : Key)
  | erasing (x : Key)
  | erased (x : Key)
  | released (x : Key)
  | taken (x : Key) (o : Slot)
  | deleting (x : Key) (o : Slot)
  | deleted (x : Key)

def Pc.target : Pc → Option Key
  | .idle => none
  | .created x | .mapped x | .opening x _ | .opened x _ | .installed x | .pushing x | .pushed x
  | .found x | .unmapped x | .destroyed x | .erasing x | .erased x | .released x | .taken x _
  | .deleting x _ | .deleted x => some x

/-- The tables, the vectors and mutexes of the three kinds, and where everyone stands.
`ready` lists the slots whose `initCtrlShm` has completed, `deleting` those whose `delete` has
begun. -/
structure System where
  objMap : Key → Bool
  shmMap : Key → Option Slot
  vec : Kind → List ℕ
  holder : Kind → Option Owner
  pc : ℕ → Pc
  loop : LoopPc
  ready : List Slot
  deleting : List Slot
  next : ℕ

def booted : System :=
  ⟨fun _ => false,fun _ => none,fun _ => [],fun _ => none,fun _ => .idle,.outside .qp,[],[],0⟩

def System.goto (s : System) (t : ℕ) (pc : Pc) : System := {s with pc := Function.update s.pc t pc}

theorem goto_self (s : System) (t : ℕ) (pc : Pc) : (s.goto t pc).pc t = pc := Function.update_self _ _ _

theorem goto_other (s : System) (t t' : ℕ) (pc : Pc) (ht : t' ≠ t) : (s.goto t pc).pc t' = s.pc t' :=
  Function.update_of_ne ht _ _

def System.setHolder (s : System) (k : Kind) (w : Option Owner) : System :=
  {s with holder := Function.update s.holder k w}

/-- A thread takes the mutex of a kind, if nobody has it. -/
def System.lock (s : System) (t : ℕ) (k : Kind) (pc : Pc) : Option System :=
  if s.holder k = none then some ((s.setHolder k (some (.thread t))).goto t pc) else none

/-- The next step of a thread in its request. -/
def advance (s : System) (t : ℕ) : Option System :=
  match s.pc t with
  | .idle => none
  | .created x => some ({s with objMap := Function.update s.objMap x true}.goto t (.mapped x))
  | .mapped x => some ({s with next := s.next+1}.goto t (.opening x ⟨x,s.next⟩))
  | .opening x o => some ({s with ready := o::s.ready}.goto t (.opened x o))
  | .opened x o => some ({s with shmMap := Function.update s.shmMap x (some o)}.goto t (.installed x))
  | .installed x => s.lock t x.1 (.pushing x)
  | .pushing x =>
    some ({s with vec := Function.update s.vec x.1 (s.vec x.1++[x.2])}.goto t (.pushed x))
  | .pushed x => some ((s.setHolder x.1 none).goto t .idle)
  | .found x => some ({s with objMap := Function.update s.objMap x false}.goto t (.unmapped x))
  | .unmapped x => some (s.goto t (.destroyed x))
  | .destroyed x => s.lock t x.1 (.erasing x)
  | .erasing x =>
    some ({s with vec := Function.update s.vec x.1 ((s.vec x.1).erase x.2)}.goto t (.erased x))
  | .erased x => some ((s.setHolder x.1 none).goto t (.released x))
  | .released x =>
    match s.shmMap x with
    | none => some (s.goto t (.deleted x))
    | some o => some (s.goto t (.taken x o))
  | .taken x o => some ({s with deleting := o::s.deleting}.goto t (.deleting x o))
  | .deleting x _ => some (s.goto t (.deleted x))
  | .deleted x => some ({s with shmMap := Function.update s.shmMap x none}.goto t .idle)

def following : Kind → Kind
  | .qp => .cq
  | .cq => .srq
  | .srq => .qp

inductive Event
  /-- The driver has created an object with this handle. -/
  | create (t : ℕ) (x : Key)
  /-- A destroy request looks its object up. -/
  | destroy (t : ℕ) (x : Key)
  | advance (t : ℕ)
  /-- The loop takes its next mutex, loads the slot at its index, ends an iteration and goes on
  at the index `i`, or releases the mutex. -/
  | lock
  | look
  | served (i : ℕ)
  | unlock

def step (s : System) : Event → Option System
  | .create t x =>
    match s.pc t with
    | .idle => if x.2 < mapSize then some (s.goto t (.created x)) else none
    | _ => none
  | .destroy t x =>
    match s.pc t with
    | .idle =>
      if x.2 < mapSize then if s.objMap x then some (s.goto t (.found x)) else some s else none
    | _ => none
  | .advance t => advance s t
  | .lock =>
    match s.loop with
    | .outside k =>
      if s.holder k = none then
        some {s.setHolder k (some .loop) with loop := .scanning k 0}
      else none
    | _ => none
  | .look =>
    match s.loop with
    | .scanning k i =>
      match (s.vec k)[i]? with
      | none => none
      | some h =>
        match s.shmMap (k,h) with
        | none => some {s with loop := .scanning k (i+1)}
        | some o => some {s with loop := .serving k i o}
    | _ => none
  | .served j =>
    match s.loop with
    | .serving k _ _ => some {s with loop := .scanning k j}
    | _ => none
  | .unlock =>
    match s.loop with
    | .scanning k i =>
      if (s.vec k).length ≤ i then
        some {s.setHolder k none with loop := .outside (following k)}
      else none
    | _ => none

/-- Every slot the loop dereferences has been made and is not being deleted. -/
def Safe (s : System) : Prop :=
  ∀ k i o, s.loop = .serving k i o → o ∈ s.ready ∧ o ∉ s.deleting

def Untouched (s : System) (x : Key) : Prop := ∀ t, (s.pc t).target ≠ some x

/-- A handle is issued only when it is not in use and no request for it is under way, and
destroyed only when no request for it is under way. -/
def Disciplined (s : System) : Event → Prop
  | .create _ x => Untouched s x ∧ s.objMap x = false
  | .destroy _ x => Untouched s x
  | _ => True

def Listed (s : System) (x : Key) : Prop := x.2 ∈ s.vec x.1

def Live (s : System) (x : Key) : Prop := ∃ o, s.shmMap x = some o ∧ o ∈ s.ready ∧ o ∉ s.deleting

/-- What the thread `t` knows. -/
def Stage (s : System) (t : ℕ) : Pc → Prop
  | .idle | .found _ | .unmapped _ | .destroyed _ => True
  | .created x => ¬Listed s x
  | .mapped x => ¬Listed s x ∧ s.objMap x
  | .opening x o => ¬Listed s x ∧ s.objMap x ∧ o.key = x ∧ o.serial < s.next ∧ o ∉ s.deleting
  | .opened x o => ¬Listed s x ∧ s.objMap x ∧ o.key = x ∧ o.serial < s.next ∧ o ∉ s.deleting ∧
    o ∈ s.ready
  | .installed x => ¬Listed s x ∧ s.objMap x ∧ Live s x
  | .pushing x => ¬Listed s x ∧ s.objMap x ∧ Live s x ∧ s.holder x.1 = some (.thread t)
  | .pushed x => s.objMap x ∧ s.holder x.1 = some (.thread t)
  | .erasing x => s.holder x.1 = some (.thread t)
  | .erased x => ¬Listed s x ∧ s.holder x.1 = some (.thread t)
  | .released x | .deleted x => ¬Listed s x
  | .taken x o | .deleting x o => ¬Listed s x ∧ o.key = x ∧ o.serial < s.next

def LoopStage (s : System) : LoopPc → Prop
  | .outside _ => True
  | .scanning k _ => s.holder k = some .loop
  | .serving k _ o => s.holder k = some .loop ∧ o.key.1 = k ∧ s.shmMap o.key = some o ∧ Listed s o.key

structure Inv (s : System) : Prop where
  slot : ∀ x o, s.shmMap x = some o → o.key = x ∧ o.serial < s.next
  live : ∀ x, Listed s x → Live s x
  object : ∀ x, Listed s x → s.objMap x ∨ ∃ t, (s.pc t).target = some x
  nodup : ∀ k, (s.vec k).Nodup
  deleting_lt : ∀ o ∈ s.deleting, o.serial < s.next
  apart : Apart Pc.target s.pc
  stage : ∀ t, Stage s t (s.pc t)
  loop : LoopStage s s.loop

theorem Inv.safe {s : System} (hI : Inv s) : Safe s := by
  intro k i o hserving
  have hloop := hI.loop
  rw [hserving] at hloop
  obtain ⟨-,-,hmap,hlisted⟩ := hloop
  obtain ⟨o',hmap',hready,hdeleting⟩ := hI.live o.key hlisted
  obtain rfl : o = o' := Option.some.inj (hmap.symm.trans hmap')
  exact ⟨hready,hdeleting⟩

section Frames

variable {s s' : System} {t : ℕ} {x : Key}

/-- A step of the thread `t` in a request for `x` changes nothing of another key. -/
structure Local (s s' : System) (t : ℕ) (x : Key) : Prop where
  listed : ∀ y, y ≠ x → (Listed s' y ↔ Listed s y)
  shmMap : ∀ y, y ≠ x → s'.shmMap y = s.shmMap y
  objMap : ∀ y, y ≠ x → s'.objMap y = s.objMap y
  ready : ∀ o ∈ s.ready, o ∈ s'.ready
  deleting : ∀ o ∈ s'.deleting, o ∈ s.deleting ∨ o.key = x
  next : s.next ≤ s'.next
  holder : ∀ k w, w ≠ .thread t → s.holder k = some w → s'.holder k = some w
  pc : ∀ t', t' ≠ t → s'.pc t' = s.pc t'
  loop : s'.loop = s.loop

theorem Local.not_deleting (m : Local s s' t x) (o : Slot) (hkey : o.key ≠ x) (ho : o ∉ s.deleting) :
    o ∉ s'.deleting := fun hmem => (m.deleting o hmem).elim ho hkey

theorem Local.live (m : Local s s' t x) (hI : Inv s) (y : Key) (hy : y ≠ x) (h : Live s y) : Live s' y := by
  obtain ⟨o,hmap,hready,hdeleting⟩ := h
  have hkey := (hI.slot y o hmap).1
  exact ⟨o,(m.shmMap y hy).trans hmap,m.ready o hready,
    m.not_deleting o (fun heq => hy (hkey.symm.trans heq)) hdeleting⟩

/-- Another thread, in a request for another key, knows what it knew. -/
theorem Local.stage (m : Local s s' t x) (hI : Inv s) (t' : ℕ) (hne : t' ≠ t) (pc : Pc)
    (htarget : pc.target ≠ some x) (h : Stage s t' pc) : Stage s' t' pc := by
  have hkey : ∀ y, pc.target = some y → y ≠ x := fun y hy heq => htarget (hy.trans (congrArg some heq))
  have hholder : ∀ k, s.holder k = some (.thread t') → s'.holder k = some (.thread t') :=
    fun k => m.holder k _ fun heq => hne (Owner.thread.inj heq)
  cases pc with
  | idle => trivial
  | found y => trivial
  | unmapped y => trivial
  | destroyed y => trivial
  | created y => exact fun hl => h ((m.listed y (hkey y rfl)).mp hl)
  | mapped y =>
    have hy := hkey y rfl
    exact ⟨fun hl => h.1 ((m.listed y hy).mp hl),(m.objMap y hy).trans h.2⟩
  | opening y o =>
    have hy := hkey y rfl
    obtain ⟨hlisted,hobj,ho,hlt,hdel⟩ := h
    exact ⟨fun hl => hlisted ((m.listed y hy).mp hl),(m.objMap y hy).trans hobj,ho,
      Nat.lt_of_lt_of_le hlt m.next,m.not_deleting o (fun heq => hy (ho.symm.trans heq)) hdel⟩
  | opened y o =>
    have hy := hkey y rfl
    obtain ⟨hlisted,hobj,ho,hlt,hdel,hready⟩ := h
    exact ⟨fun hl => hlisted ((m.listed y hy).mp hl),(m.objMap y hy).trans hobj,ho,
      Nat.lt_of_lt_of_le hlt m.next,m.not_deleting o (fun heq => hy (ho.symm.trans heq)) hdel,
      m.ready o hready⟩
  | installed y =>
    have hy := hkey y rfl
    exact ⟨fun hl => h.1 ((m.listed y hy).mp hl),(m.objMap y hy).trans h.2.1,
      m.live hI y hy h.2.2⟩
  | pushing y =>
    have hy := hkey y rfl
    exact ⟨fun hl => h.1 ((m.listed y hy).mp hl),(m.objMap y hy).trans h.2.1,
      m.live hI y hy h.2.2.1,hholder _ h.2.2.2⟩
  | pushed y => exact ⟨(m.objMap y (hkey y rfl)).trans h.1,hholder _ h.2⟩
  | erasing y => exact hholder _ h
  | erased y => exact ⟨fun hl => h.1 ((m.listed y (hkey y rfl)).mp hl),hholder _ h.2⟩
  | released y => exact fun hl => h ((m.listed y (hkey y rfl)).mp hl)
  | deleted y => exact fun hl => h ((m.listed y (hkey y rfl)).mp hl)
  | taken y o =>
    exact ⟨fun hl => h.1 ((m.listed y (hkey y rfl)).mp hl),h.2.1,Nat.lt_of_lt_of_le h.2.2 m.next⟩
  | deleting y o =>
    exact ⟨fun hl => h.1 ((m.listed y (hkey y rfl)).mp hl),h.2.1,Nat.lt_of_lt_of_le h.2.2 m.next⟩

/-- What a step in a request for `x` has to show: the facts about `x` itself. -/
structure Moved (s s' : System) (t : ℕ) (x : Key) : Prop extends Local s s' t x where
  sole : ∀ t', t' ≠ t → (s.pc t').target ≠ some x
  before : (s.pc t).target = none ∨ (s.pc t).target = some x
  after : (s'.pc t).target = none ∨ (s'.pc t).target = some x
  slotAt : ∀ o, s'.shmMap x = some o → o.key = x ∧ o.serial < s'.next
  liveAt : Listed s' x → Live s' x
  objectAt : Listed s' x → s'.objMap x ∨ (s'.pc t).target = some x
  nodup : ∀ k, (s'.vec k).Nodup
  deleting_lt : ∀ o ∈ s'.deleting, o.serial < s'.next
  stageAt : Stage s' t (s'.pc t)
  serving : ∀ k i o, s.loop = .serving k i o → o.key = x → s'.shmMap x = some o ∧ Listed s' x

theorem Moved.target_ne (m : Moved s s' t x) (t' : ℕ) (y : Key) (hy : y ≠ x)
    (h : (s.pc t').target = some y) : t' ≠ t := by
  rintro rfl
  rcases m.before with hnone | hsome
  · exact absurd (hnone.symm.trans h) (by simp)
  · exact hy (Option.some.inj (h.symm.trans hsome))

theorem Moved.loopStage (m : Moved s s' t x) (hI : Inv s) : LoopStage s' s'.loop := by
  have hloop := hI.loop
  rw [m.loop]
  have hholder : ∀ k, s.holder k = some .loop → s'.holder k = some .loop :=
    fun k => m.holder k .loop (by simp)
  cases hpc : s.loop with
  | outside k => trivial
  | scanning k i =>
    rw [hpc] at hloop
    exact hholder k hloop
  | serving k i o =>
    rw [hpc] at hloop
    obtain ⟨hheld,hkind,hmap,hlisted⟩ := hloop
    by_cases hx : o.key = x
    · obtain ⟨hmap',hlisted'⟩ := m.serving k i o hpc hx
      exact ⟨hholder k hheld,hkind,by rw [hx]; exact hmap',by rw [hx]; exact hlisted'⟩
    · exact ⟨hholder k hheld,hkind,(m.shmMap _ hx).trans hmap,(m.listed _ hx).mpr hlisted⟩

theorem Moved.inv (m : Moved s s' t x) (hI : Inv s) : Inv s' where
  slot := by
    intro y o hy
    by_cases hyx : y = x
    · subst hyx
      exact m.slotAt o hy
    · obtain ⟨hkey,hlt⟩ := hI.slot y o ((m.shmMap y hyx).symm.trans hy)
      exact ⟨hkey,Nat.lt_of_lt_of_le hlt m.next⟩
  live := by
    intro y hy
    by_cases hyx : y = x
    · subst hyx
      exact m.liveAt hy
    · exact m.live hI y hyx (hI.live y ((m.listed y hyx).mp hy))
  object := by
    intro y hy
    by_cases hyx : y = x
    · subst hyx
      exact (m.objectAt hy).imp_right fun h => ⟨t,h⟩
    · rcases hI.object y ((m.listed y hyx).mp hy) with hobj | ⟨t',ht'⟩
      · exact .inl ((m.objMap y hyx).trans hobj)
      · exact .inr ⟨t',by rw [m.pc t' (m.target_ne t' y hyx ht')]; exact ht'⟩
  nodup := m.nodup
  deleting_lt := m.deleting_lt
  apart := by
    have hpc : s'.pc = Function.update s.pc t (s'.pc t) := by
      funext t'
      by_cases ht' : t' = t
      · rw [ht',Function.update_self]
      · rw [Function.update_of_ne ht',m.pc t' ht']
    rw [hpc]
    refine hI.apart.update fun y hy => ?_
    rcases m.after with hnone | hsome
    · exact absurd (hnone.symm.trans hy) (by simp)
    · obtain rfl := Option.some.inj (hsome.symm.trans hy)
      exact m.sole
  stage := by
    intro t'
    by_cases ht' : t' = t
    · subst ht'
      exact m.stageAt
    · rw [m.pc t' ht']
      exact m.stage hI t' ht' _ (m.sole t' ht') (hI.stage t')
  loop := m.loopStage hI

/-- A step that leaves the vectors and the maps of slots alone. It may begin the deletion of a
slot of `x` only while `x` is not listed. -/
theorem Inv.quiet {s₁ : System} {pc : Pc} (hI : Inv s)
    (hsole : ∀ t', t' ≠ t → (s.pc t').target ≠ some x)
    (hbefore : (s.pc t).target = none ∨ (s.pc t).target = some x)
    (hvec : s₁.vec = s.vec) (hshm : s₁.shmMap = s.shmMap) (hpc : s₁.pc = s.pc)
    (hloop : s₁.loop = s.loop) (hobj : ∀ y, y ≠ x → s₁.objMap y = s.objMap y)
    (hready : ∀ o ∈ s.ready, o ∈ s₁.ready)
    (hdel : ∀ o ∈ s₁.deleting, o ∈ s.deleting ∨ (¬Listed s x ∧ o.key = x ∧ o.serial < s.next))
    (hnext : s.next ≤ s₁.next)
    (hholder : ∀ k w, w ≠ .thread t → s.holder k = some w → s₁.holder k = some w)
    (hafter : pc.target = none ∨ pc.target = some x)
    (hobject : Listed s x → s₁.objMap x ∨ pc.target = some x)
    (hstage : Stage (s₁.goto t pc) t pc) : Inv (s₁.goto t pc) := by
  have hlisted : ∀ y, Listed (s₁.goto t pc) y ↔ Listed s y := by
    intro y
    show y.2 ∈ s₁.vec y.1 ↔ _
    rw [hvec]
    exact Iff.rfl
  have hmap : ∀ y, (s₁.goto t pc).shmMap y = s.shmMap y := fun y => congrFun hshm y
  refine Moved.inv (s := s) (t := t) (x := x) ⟨⟨fun y _ => hlisted y,fun y _ => hmap y,hobj,hready,?_,hnext,
    hholder,?_,hloop⟩,hsole,hbefore,?_,?_,?_,?_,?_,?_,?_,?_⟩ hI
  · exact fun o ho => (hdel o ho).imp_right fun h => h.2.1
  · intro t' ht'
    rw [goto_other s₁ t t' pc ht',hpc]
  · rw [goto_self]
    exact hafter
  · intro o ho
    obtain ⟨hkey,hlt⟩ := hI.slot x o ((hmap x).symm.trans ho)
    exact ⟨hkey,Nat.lt_of_lt_of_le hlt hnext⟩
  · intro hl
    have hl' := (hlisted x).mp hl
    obtain ⟨o,ho,hr,hd⟩ := hI.live x hl'
    refine ⟨o,(hmap x).trans ho,hready o hr,fun hmem => ?_⟩
    rcases hdel o hmem with hold | hnew
    · exact hd hold
    · exact hnew.1 hl'
  · rw [goto_self]
    exact fun hl => hobject ((hlisted x).mp hl)
  · intro k
    show (s₁.vec k).Nodup
    rw [hvec]
    exact hI.nodup k
  · intro o ho
    rcases hdel o ho with hold | hnew
    · exact Nat.lt_of_lt_of_le (hI.deleting_lt o hold) hnext
    · exact Nat.lt_of_lt_of_le hnew.2.2 hnext
  · rw [goto_self]
    exact hstage
  · intro k i o hserving hkey
    have hserved := hI.loop
    rw [hserving] at hserved
    obtain ⟨-,-,ho,hl⟩ := hserved
    rw [hkey] at ho hl
    exact ⟨(hmap x).trans ho,(hlisted x).mpr hl⟩

end Frames

section Steps

variable {s s' : System} {t : ℕ} {x : Key}

theorem Inv.not_serving (hI : Inv s) (hnot : ¬Listed s x) (k : Kind) (i : ℕ) (o : Slot)
    (hserving : s.loop = .serving k i o) : o.key ≠ x := by
  rintro rfl
  have hloop := hI.loop
  rw [hserving] at hloop
  exact hnot hloop.2.2.2

/-- A thread that holds the mutex of a kind has it alone. -/
theorem Inv.not_serving_held (hI : Inv s) (hheld : s.holder x.1 = some (.thread t)) (k : Kind) (i : ℕ)
    (o : Slot) (hserving : s.loop = .serving k i o) : o.key ≠ x := by
  rintro rfl
  have hloop := hI.loop
  rw [hserving] at hloop
  obtain ⟨hk,rfl,-⟩ := hloop
  exact absurd (hheld.symm.trans hk) (by simp)

/-- A thread that only moves on. -/
theorem inv_goto (hI : Inv s) (pc : Pc) (hpc : (s.pc t).target = some x) (htarget : pc.target = some x)
    (hstage : Stage (s.goto t pc) t pc) : Inv (s.goto t pc) :=
  hI.quiet (hI.apart.other hpc) (.inr hpc) rfl rfl rfl rfl (fun _ _ => rfl) (fun _ h => h)
    (fun _ h => .inl h) (Nat.le_refl _) (fun _ _ _ h => h) (.inr htarget) (fun _ => .inr htarget) hstage

theorem inv_lock (hI : Inv s) (pc : Pc) (hpc : (s.pc t).target = some x) (htarget : pc.target = some x)
    (hstage : Stage ((s.setHolder x.1 (some (.thread t))).goto t pc) t pc)
    (hstep : s.lock t x.1 pc = some s') : Inv s' := by
  rw [System.lock] at hstep
  split at hstep
  · next hfree =>
    obtain rfl := Option.some.inj hstep
    refine hI.quiet (hI.apart.other hpc) (.inr hpc) rfl rfl rfl rfl (fun _ _ => rfl) (fun _ h => h)
      (fun _ h => .inl h) (Nat.le_refl _) ?_ (.inr htarget) (fun _ => .inr htarget) hstage
    intro k w hw hk
    have hne : k ≠ x.1 := by
      rintro rfl
      exact absurd (hfree.symm.trans hk) (by simp)
    exact (Function.update_of_ne hne _ _).trans hk
  · cases hstep

theorem inv_unlock (hI : Inv s) (pc : Pc) (hpc : (s.pc t).target = some x)
    (hheld : s.holder x.1 = some (.thread t)) (hafter : pc.target = none ∨ pc.target = some x)
    (hobject : Listed s x → s.objMap x ∨ pc.target = some x)
    (hstage : Stage ((s.setHolder x.1 none).goto t pc) t pc) :
    Inv ((s.setHolder x.1 none).goto t pc) := by
  refine hI.quiet (hI.apart.other hpc) (.inr hpc) rfl rfl rfl rfl (fun _ _ => rfl) (fun _ h => h)
    (fun _ h => .inl h) (Nat.le_refl _) ?_ hafter hobject hstage
  intro k w hw hk
  have hne : k ≠ x.1 := by
    rintro rfl
    exact hw (Option.some.inj (hk.symm.trans hheld))
  exact (Function.update_of_ne hne _ _).trans hk

theorem inv_objMap (hI : Inv s) (v : Bool) (pc : Pc) (hpc : (s.pc t).target = some x)
    (htarget : pc.target = some x)
    (hstage : Stage ({s with objMap := Function.update s.objMap x v}.goto t pc) t pc) :
    Inv ({s with objMap := Function.update s.objMap x v}.goto t pc) :=
  hI.quiet (hI.apart.other hpc) (.inr hpc) rfl rfl rfl rfl (fun _ hy => Function.update_of_ne hy _ _)
    (fun _ h => h) (fun _ h => .inl h) (Nat.le_refl _) (fun _ _ _ h => h) (.inr htarget)
    (fun _ => .inr htarget) hstage

/-- The entry of a key that is not listed changes. -/
theorem inv_shmMap (hI : Inv s) (v : Option Slot) (pc : Pc) (hpc : (s.pc t).target = some x)
    (hnot : ¬Listed s x) (hslot : ∀ o, v = some o → o.key = x ∧ o.serial < s.next)
    (hafter : pc.target = none ∨ pc.target = some x)
    (hstage : Stage ({s with shmMap := Function.update s.shmMap x v}.goto t pc) t pc) :
    Inv ({s with shmMap := Function.update s.shmMap x v}.goto t pc) := by
  refine Moved.inv (s := s) (t := t) (x := x) ⟨⟨fun _ _ => Iff.rfl,fun _ hy => Function.update_of_ne hy _ _,
    fun _ _ => rfl,fun _ h => h,fun _ h => .inl h,Nat.le_refl _,fun _ _ _ h => h,
    fun t' => goto_other _ t t' pc,rfl⟩,hI.apart.other hpc,.inr hpc,?_,?_,
    fun hl => absurd hl hnot,fun hl => absurd hl hnot,hI.nodup,hI.deleting_lt,?_,
    fun k i o hserving hkey => absurd hkey (hI.not_serving hnot k i o hserving)⟩ hI
  · rw [goto_self]
    exact hafter
  · intro o ho
    have hv : Function.update s.shmMap x v x = some o := ho
    rw [Function.update_self] at hv
    exact hslot o hv
  · rw [goto_self]
    exact hstage

/-- The vector of the kind changes at `x` only, under the mutex. -/
theorem inv_vec (hI : Inv s) (l : List ℕ) (pc : Pc) (hpc : (s.pc t).target = some x)
    (hheld : s.holder x.1 = some (.thread t)) (hmem : ∀ h, h ≠ x.2 → (h ∈ l ↔ h ∈ s.vec x.1))
    (hnodup : l.Nodup) (hlive : x.2 ∈ l → Live s x) (htarget : pc.target = some x)
    (hstage : Stage ({s with vec := Function.update s.vec x.1 l}.goto t pc) t pc) :
    Inv ({s with vec := Function.update s.vec x.1 l}.goto t pc) := by
  have hself : Function.update s.vec x.1 l x.1 = l := Function.update_self _ _ _
  refine Moved.inv (s := s) (t := t) (x := x) ⟨⟨?_,fun _ _ => rfl,fun _ _ => rfl,fun _ h => h,
    fun _ h => .inl h,Nat.le_refl _,fun _ _ _ h => h,fun t' => goto_other _ t t' pc,rfl⟩,
    hI.apart.other hpc,.inr hpc,?_,fun o ho => hI.slot x o ho,?_,fun _ => .inr ?_,?_,hI.deleting_lt,?_,
    fun k i o hserving hkey => absurd hkey (hI.not_serving_held hheld k i o hserving)⟩ hI
  · intro y hy
    show y.2 ∈ Function.update s.vec x.1 l y.1 ↔ y.2 ∈ s.vec y.1
    by_cases hk : y.1 = x.1
    · rw [hk,hself]
      exact hmem y.2 fun hh => hy (Prod.ext hk hh)
    · rw [Function.update_of_ne hk]
  · rw [goto_self]
    exact .inr htarget
  · intro hl
    have hl' : x.2 ∈ Function.update s.vec x.1 l x.1 := hl
    rw [hself] at hl'
    exact hlive hl'
  · rw [goto_self]
    exact htarget
  · intro k
    by_cases hk : k = x.1
    · subst hk
      show (Function.update s.vec x.1 l x.1).Nodup
      rw [hself]
      exact hnodup
    · show (Function.update s.vec x.1 l k).Nodup
      rw [Function.update_of_ne hk]
      exact hI.nodup k
  · rw [goto_self]
    exact hstage

theorem inv_push (hI : Inv s) (hpc : s.pc t = .pushing x) (hstage : Stage s t (.pushing x)) :
    Inv ({s with vec := Function.update s.vec x.1 (s.vec x.1++[x.2])}.goto t (.pushed x)) := by
  obtain ⟨hnot,hobj,hlive,hheld⟩ := hstage
  refine inv_vec hI _ (.pushed x) (by rw [hpc]; rfl) hheld ?_ ?_ (fun _ => hlive) rfl ⟨hobj,hheld⟩
  · intro h hh
    simp [hh]
  · refine List.nodup_append.mpr ⟨hI.nodup x.1,List.nodup_singleton _,?_⟩
    intro h hmem h' hmem' heq
    rw [heq,List.mem_singleton.mp hmem'] at hmem
    exact hnot hmem

theorem inv_erase (hI : Inv s) (hpc : s.pc t = .erasing x) (hheld : s.holder x.1 = some (.thread t)) :
    Inv ({s with vec := Function.update s.vec x.1 ((s.vec x.1).erase x.2)}.goto t (.erased x)) := by
  have hnot : x.2 ∉ (s.vec x.1).erase x.2 := (hI.nodup x.1).not_mem_erase
  refine inv_vec hI _ (.erased x) (by rw [hpc]; rfl) hheld (fun h hh => List.mem_erase_of_ne hh)
    ((hI.nodup x.1).erase _) (fun hmem => absurd hmem hnot) rfl ⟨?_,hheld⟩
  show x.2 ∉ Function.update s.vec x.1 _ x.1
  rw [Function.update_self]
  exact hnot

theorem inv_advance (hI : Inv s) (hstep : advance s t = some s') : Inv s' := by
  have hstage := hI.stage t
  rw [advance] at hstep
  generalize hpc : s.pc t = pc at hstep hstage
  have htarget : (s.pc t).target = pc.target := congrArg Pc.target hpc
  cases pc with
  | idle => cases hstep
  | created x =>
    obtain rfl := Option.some.inj hstep
    exact inv_objMap hI true (.mapped x) htarget rfl ⟨hstage,Function.update_self _ _ _⟩
  | mapped x =>
    obtain rfl := Option.some.inj hstep
    refine hI.quiet (hI.apart.other htarget) (.inr htarget) rfl rfl rfl rfl (fun _ _ => rfl)
      (fun _ h => h) (fun _ h => .inl h) (Nat.le_succ _) (fun _ _ _ h => h) (.inr rfl)
      (fun _ => .inr rfl) ⟨hstage.1,hstage.2,rfl,Nat.lt_succ_self _,?_⟩
    exact fun hmem => Nat.lt_irrefl _ (hI.deleting_lt _ hmem)
  | opening x o =>
    obtain rfl := Option.some.inj hstep
    obtain ⟨hnot,hobj,hkey,hlt,hdel⟩ := hstage
    exact hI.quiet (hI.apart.other htarget) (.inr htarget) rfl rfl rfl rfl (fun _ _ => rfl)
      (fun _ => List.mem_cons_of_mem o) (fun _ h => .inl h) (Nat.le_refl _) (fun _ _ _ h => h)
      (.inr rfl) (fun _ => .inr rfl) ⟨hnot,hobj,hkey,hlt,hdel,List.mem_cons_self⟩
  | opened x o =>
    obtain rfl := Option.some.inj hstep
    obtain ⟨hnot,hobj,hkey,hlt,hdel,hready⟩ := hstage
    refine inv_shmMap hI (some o) (.installed x) htarget hnot ?_ (.inr rfl)
      ⟨hnot,hobj,o,Function.update_self _ _ _,hready,hdel⟩
    intro o' ho'
    obtain rfl := Option.some.inj ho'
    exact ⟨hkey,hlt⟩
  | installed x =>
    obtain ⟨hnot,hobj,hlive⟩ := hstage
    exact inv_lock hI (.pushing x) htarget rfl
      ⟨hnot,hobj,hlive,Function.update_self _ _ _⟩ hstep
  | pushing x =>
    obtain rfl := Option.some.inj hstep
    exact inv_push hI hpc hstage
  | pushed x =>
    obtain rfl := Option.some.inj hstep
    exact inv_unlock hI .idle htarget hstage.2 (.inl rfl) (fun _ => .inl hstage.1) trivial
  | found x =>
    obtain rfl := Option.some.inj hstep
    exact inv_objMap hI false (.unmapped x) htarget rfl trivial
  | unmapped x =>
    obtain rfl := Option.some.inj hstep
    exact inv_goto hI (.destroyed x) htarget rfl trivial
  | destroyed x =>
    exact inv_lock hI (.erasing x) htarget rfl (Function.update_self _ _ _) hstep
  | erasing x =>
    obtain rfl := Option.some.inj hstep
    exact inv_erase hI hpc hstage
  | erased x =>
    obtain rfl := Option.some.inj hstep
    exact inv_unlock hI (.released x) htarget hstage.2 (.inr rfl)
      (fun hl => absurd hl hstage.1) hstage.1
  | released x =>
    dsimp only at hstep
    cases hmap : s.shmMap x with
    | none =>
      rw [hmap] at hstep
      obtain rfl := Option.some.inj hstep
      exact inv_goto hI (.deleted x) htarget rfl hstage
    | some o =>
      rw [hmap] at hstep
      obtain rfl := Option.some.inj hstep
      exact inv_goto hI (.taken x o) htarget rfl ⟨hstage,hI.slot x o hmap⟩
  | taken x o =>
    obtain rfl := Option.some.inj hstep
    refine hI.quiet (hI.apart.other htarget) (.inr htarget) rfl rfl rfl rfl (fun _ _ => rfl)
      (fun _ h => h) ?_ (Nat.le_refl _) (fun _ _ _ h => h) (.inr rfl) (fun _ => .inr rfl) hstage
    intro o' ho'
    rcases List.mem_cons.mp ho' with rfl | hold
    · exact .inr hstage
    · exact .inl hold
  | deleting x o =>
    obtain rfl := Option.some.inj hstep
    exact inv_goto hI (.deleted x) htarget rfl hstage.1
  | deleted x =>
    obtain rfl := Option.some.inj hstep
    exact inv_shmMap hI none .idle htarget hstage (fun o ho => by cases ho) (.inl rfl) trivial

/-- A thread that begins a request. -/
theorem inv_begin (hI : Inv s) (pc : Pc) (hidle : s.pc t = .idle) (huntouched : Untouched s x)
    (htarget : pc.target = some x) (hstage : Stage (s.goto t pc) t pc) : Inv (s.goto t pc) :=
  hI.quiet (fun t' _ => huntouched t') (.inl (by rw [hidle]; rfl)) rfl rfl rfl rfl (fun _ _ => rfl)
    (fun _ h => h) (fun _ h => .inl h) (Nat.le_refl _) (fun _ _ _ h => h) (.inr htarget)
    (fun _ => .inr htarget) hstage

theorem inv_create (hI : Inv s) (hd : Disciplined s (.create t x))
    (hstep : step s (.create t x) = some s') : Inv s' := by
  obtain ⟨huntouched,hobj⟩ := hd
  rw [step] at hstep
  split at hstep
  · next hidle =>
    split at hstep
    · obtain rfl := Option.some.inj hstep
      refine inv_begin hI (.created x) hidle huntouched rfl fun hl => ?_
      rcases hI.object x hl with hobj' | ⟨t',ht'⟩
      · exact absurd (hobj.symm.trans hobj') (by simp)
      · exact huntouched t' ht'
    · cases hstep
  · cases hstep

theorem inv_destroy (hI : Inv s) (hd : Disciplined s (.destroy t x))
    (hstep : step s (.destroy t x) = some s') : Inv s' := by
  rw [step] at hstep
  split at hstep
  · next hidle =>
    split at hstep
    · split at hstep
      · obtain rfl := Option.some.inj hstep
        exact inv_begin hI (.found x) hidle hd rfl trivial
      · obtain rfl := Option.some.inj hstep
        exact hI
    · cases hstep
  · cases hstep

/-- A step of the loop. -/
theorem Inv.of_loop (hI : Inv s) (loop : LoopPc) (holder : Kind → Option Owner)
    (hholder : ∀ k t, s.holder k = some (.thread t) → holder k = some (.thread t))
    (hloop : LoopStage {s with loop := loop, holder := holder} loop) :
    Inv {s with loop := loop, holder := holder} := by
  refine ⟨hI.slot,hI.live,hI.object,hI.nodup,hI.deleting_lt,hI.apart,?_,hloop⟩
  intro t
  have hstage := hI.stage t
  show Stage _ t (s.pc t)
  revert hstage
  cases s.pc t with
  | pushing x => exact fun h => ⟨h.1,h.2.1,h.2.2.1,hholder _ _ h.2.2.2⟩
  | pushed x => exact fun h => ⟨h.1,hholder _ _ h.2⟩
  | erasing x => exact fun h => hholder _ _ h
  | erased x => exact fun h => ⟨h.1,hholder _ _ h.2⟩
  | _ => exact id

theorem inv_look (hI : Inv s) (hstep : step s .look = some s') : Inv s' := by
  have hloop := hI.loop
  rw [step] at hstep
  split at hstep
  · next k i hpc =>
    rw [hpc] at hloop
    cases hvec : (s.vec k)[i]? with
    | none => simp [hvec] at hstep
    | some h =>
      rw [hvec] at hstep
      dsimp only at hstep
      cases hmap : s.shmMap (k,h) with
      | none =>
        rw [hmap] at hstep
        obtain rfl := Option.some.inj hstep
        exact hI.of_loop (.scanning k (i+1)) s.holder (fun _ _ h => h) hloop
      | some o =>
        rw [hmap] at hstep
        obtain rfl := Option.some.inj hstep
        obtain ⟨hkey,-⟩ := hI.slot (k,h) o hmap
        refine hI.of_loop (.serving k i o) s.holder (fun _ _ h => h) ⟨hloop,by rw [hkey],?_,?_⟩
        · show s.shmMap o.key = some o
          rw [hkey]
          exact hmap
        · show o.key.2 ∈ s.vec o.key.1
          rw [hkey]
          exact List.mem_of_getElem? hvec
  · cases hstep

theorem inv_step (s : System) (e : Event) (s' : System) (hI : Inv s) (hd : Disciplined s e)
    (hstep : step s e = some s') : Inv s' := by
  cases e with
  | create t x => exact inv_create hI hd hstep
  | destroy t x => exact inv_destroy hI hd hstep
  | advance t => exact inv_advance hI hstep
  | look => exact inv_look hI hstep
  | lock =>
    rw [step] at hstep
    split at hstep
    · next k hpc =>
      split at hstep
      · next hfree =>
        obtain rfl := Option.some.inj hstep
        refine hI.of_loop (.scanning k 0) _ (fun k' t hk' => ?_) (Function.update_self _ _ _)
        have hne : k' ≠ k := by
          rintro rfl
          exact absurd (hfree.symm.trans hk') (by simp)
        exact (Function.update_of_ne hne _ _).trans hk'
      · cases hstep
    · cases hstep
  | served j =>
    have hloop := hI.loop
    rw [step] at hstep
    split at hstep
    · next k i o hpc =>
      rw [hpc] at hloop
      obtain rfl := Option.some.inj hstep
      exact hI.of_loop (.scanning k j) s.holder (fun _ _ h => h) hloop.1
    · cases hstep
  | unlock =>
    have hloop := hI.loop
    rw [step] at hstep
    split at hstep
    · next k i hpc =>
      rw [hpc] at hloop
      split at hstep
      · obtain rfl := Option.some.inj hstep
        refine hI.of_loop (.outside (following k)) _ (fun k' t hk' => ?_) trivial
        have hne : k' ≠ k := by
          rintro rfl
          exact absurd (hloop.symm.trans hk') (by simp)
        exact (Function.update_of_ne hne _ _).trans hk'
      · cases hstep
    · cases hstep

end Steps

theorem inv_booted : Inv booted where
  slot := fun x o ho => by cases ho
  live := fun x hl => by cases hl
  object := fun x hl => by cases hl
  nodup := fun k => List.nodup_nil
  deleting_lt := fun o ho => by cases ho
  apart := fun t t' x ht => by cases ht
  stage := fun t => trivial
  loop := trivial

/-- In every interleaving of the control loop with create and destroy requests of any number of
threads, where handles are issued only when they are not in use and destroyed only when no
request for them is under way, the loop dereferences no slot but those that are made and whose
deletion has not begun. -/
theorem loop_slots_live (events : List Event) (u : System)
    (hd : Along step Disciplined booted events) (hrun : run step booted events = some u) : Safe u :=
  (run_invariant step Disciplined Inv inv_step booted events u inv_booted hd hrun).safe

/-- QP 3 is created and served, and waits for the loop with its destroy request. -/
def served : List Event :=
  [.create 0 (.qp,3),.advance 0,.advance 0,.advance 0,.advance 0,.advance 0,.advance 0,.advance 0,
    .destroy 1 (.qp,3),.advance 1,.advance 1,.lock,.look]

theorem served_slot_live : ∃ u, run step booted served = some u ∧
    u.loop = .serving .qp 0 ⟨(.qp,3),0⟩ ∧ Safe u := by
  have hd : Along step Disciplined booted served := by
    refine along_cons _ Disciplined _ _ _ _ rfl ⟨fun t => by simp [booted,Pc.target],rfl⟩ ?_
    iterate 7 refine along_cons _ Disciplined _ _ _ _ rfl trivial ?_
    refine along_cons _ Disciplined _ _ _ _ rfl (fun t => ?_) ?_
    · by_cases ht : t = 0 <;> simp [booted,System.goto,System.setHolder,Pc.target,ht]
    · iterate 4 refine along_cons _ Disciplined _ _ _ _ rfl trivial ?_
      trivial
  exact ⟨_,rfl,rfl,loop_slots_live served _ hd rfl⟩

end FreeFlow.SlotLifetimes
