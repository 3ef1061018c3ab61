import FreeFlow.ControlLoop
import FreeFlow.Threads

/-!
# The control loop against destroy requests

The loop scans the slots of one kind of object at a time, under the mutex of that
kind. It loads a pointer, repairs the request and calls the driver. A destroy
request runs in another thread: it reads the table entry, clears it, calls
`ibv_destroy_qp`, `ibv_destroy_cq` or `ibv_destroy_srq`, and takes the mutex only
afterwards, to remove the slot. The loop and the threads may be interrupted
between any two of these steps.

Objects are numbered in the order of their creation. `begun` collects those
whose destruction has begun.
-/

set_option autoImplicit false

namespace FreeFlow.DestroyRace

open ControlLoop Runs Threads Wire

inductive Kind
  | qp
  | cq
  | srq
  deriving DecidableEq

def entry (ts : Tables ℕ) : Kind → ℕ → Option ℕ
  | .qp => ts.qpMap
  | .cq => ts.cqMap
  | .srq => ts.srqMap

def store (ts : Tables ℕ) (k : Kind) (h : ℕ) (v : Option ℕ) : Tables ℕ :=
  match k with
  | .qp => {ts with qpMap := Function.update ts.qpMap h v}
  | .cq => {ts with cqMap := Function.update ts.cqMap h v}
  | .srq => {ts with srqMap := Function.update ts.srqMap h v}

def carried (s : ControlLoop.State ℕ) : Kind → Option ℕ
  | .qp => s.qp
  | .cq => s.cq
  | .srq => s.srq

def Request.kind : Request → Kind
  | .qpSlot _ _ => .qp
  | .cqSlot _ => .cq
  | .srqSlot _ => .srq

def Request.handle : Request → ℕ
  | .qpSlot _ h => h
  | .cqSlot h => h
  | .srqSlot h => h

/-- Where the loop stands. -/
inductive LoopPc
  | outside
  | scanning (k : Kind)
  | loaded (k : Kind) (verb : Verb) (o : ℕ)
  | calling (k : Kind) (verb : Verb) (o : ℕ)
  deriving DecidableEq

def LoopPc.mutex : LoopPc → Option Kind
  | .outside => none
  | .scanning k => some k
  | .loaded k _ _ => some k
  | .calling k _ _ => some k

/-- The object of the driver call that the loop prepares or makes. -/
def LoopPc.object : LoopPc → Option ℕ
  | .outside => none
  | .scanning _ => none
  | .loaded _ _ o => some o
  | .calling _ _ o => some o

/-- Where a thread with a destroy request stands. -/
inductive Pc
  | idle
  | found (k : Kind) (h o : ℕ)
  | unmapped (k : Kind) (h o : ℕ)
  | destroying (k : Kind) (h o : ℕ)
  | destroyed (k : Kind) (h : ℕ)
  | erased (k : Kind) (h : ℕ)
  deriving DecidableEq

def Pc.target : Pc → Option (Kind × ℕ)
  | .idle => none
  | .found k h _ => some (k,h)
  | .unmapped k h _ => some (k,h)
  | .destroying k h _ => some (k,h)
  | .destroyed k h => some (k,h)
  | .erased k h => some (k,h)

structure System where
  loop : ControlLoop.State ℕ
  loopPc : LoopPc
  vec : Kind → List ℕ
  pc : ℕ → Pc
  begun : List ℕ
  next : ℕ

def booted : System := ⟨ControlLoop.started,.outside,fun _ => [],fun _ => .idle,[],0⟩

inductive Event
  /-- The loop locks the mutex of a kind, or unlocks the one it holds. -/
  | lock (k : Kind)
  | unlock
  /-- The loop finds a request in the slot of `slot` and loads the pointer. -/
  | serve (slot : ℕ) (q : Request)
  | callBegins
  | callReturns
  /-- A create request stores a new object; later it adds the slot. -/
  | create (k : Kind) (h : ℕ)
  | push (k : Kind) (h : ℕ)
  /-- A destroy request looks `h` up; then it goes on. -/
  | destroy (t : ℕ) (k : Kind) (h : ℕ)
  | advance (t : ℕ)

def System.goto (s : System) (t : ℕ) (pc : Pc) : System := {s with pc := Function.update s.pc t pc}

def System.put (s : System) (k : Kind) (h : ℕ) (v : Option ℕ) : System :=
  {s with loop := {s.loop with tables := store s.loop.tables k h v}}

def serve (s : System) (k : Kind) (q : Request) : Option System :=
  let loop := recover s.loop q
  match callWith loop q with
  | none => if crashes loop q then none else some {s with loop := loop}
  | some c => c.object.map fun o => {s with loop := loop,loopPc := .loaded k c.verb o}

def advance (s : System) (t : ℕ) : Option System :=
  match s.pc t with
  | .idle => none
  | .found k h o => some ((s.put k h none).goto t (.unmapped k h o))
  | .unmapped k h o => some ({s with begun := o::s.begun}.goto t (.destroying k h o))
  | .destroying k h _ => some (s.goto t (.destroyed k h))
  | .destroyed k h =>
    if s.loopPc.mutex = some k then none
    else some ({s with vec := Function.update s.vec k ((s.vec k).erase h)}.goto t (.erased k h))
  | .erased _ _ => some (s.goto t .idle)

def step (s : System) : Event → Option System
  | .lock k => if s.loopPc = .outside then some {s with loopPc := .scanning k} else none
  | .unlock =>
    match s.loopPc with
    | .scanning _ => some {s with loopPc := .outside}
    | _ => none
  | .serve slot q =>
    if s.loopPc = .scanning (Request.kind q) ∧ slot ∈ s.vec (Request.kind q) then
      serve s (Request.kind q) q
    else none
  | .callBegins =>
    match s.loopPc with
    | .loaded k verb o => some {s with loopPc := .calling k verb o}
    | _ => none
  | .callReturns =>
    match s.loopPc with
    | .calling k _ _ => some {s with loopPc := .scanning k}
    | _ => none
  | .create k h =>
    if h < mapSize then some {s.put k h (some s.next) with next := s.next+1} else none
  | .push k h =>
    if s.loopPc.mutex = some k then none
    else some {s with vec := Function.update s.vec k (s.vec k++[h])}
  | .destroy t k h =>
    if s.pc t = .idle ∧ h < mapSize then
      match entry s.loop.tables k h with
      | none => some s
      | some o => some (s.goto t (.found k h o))
    else none
  | .advance t => advance s t

/-- No driver call of the loop is on an object whose destruction has begun. -/
def Safe (s : System) : Prop :=
  ∀ k verb o, s.loopPc = .calling k verb o → o ∉ s.begun

def Untouched (s : System) (k : Kind) (h : ℕ) : Prop := ∀ t, (s.pc t).target ≠ some (k,h)

/-- A live handle is destroyed once, and no handle is issued again before its
destroy request has completed. -/
def OneDestroy (s : System) : Event → Prop
  | .create k h => Untouched s k h ∧ entry s.loop.tables k h = none
  | .destroy _ k h => Untouched s k h
  | _ => True

/-- No destruction begins while the loop is between the load of that object and
the end of its call, and no request out of range is served while the loop
carries an object whose destruction has begun. -/
def Exclusive (s : System) : Event → Prop
  | .advance t => ∀ k h o, s.pc t = .unmapped k h o → s.loopPc.object ≠ some o
  | .serve _ q => Request.handle q < mapSize ∨
      ∀ o, carried s.loop (Request.kind q) = some o → o ∉ s.begun
  | _ => True

/-- What the tables show to a thread. -/
def Stage (ts : Tables ℕ) (next : ℕ) : Pc → Prop
  | .found k h o => entry ts k h = some o
  | .unmapped _ _ o => o < next ∧ ∀ k h, entry ts k h ≠ some o
  | _ => True

structure Inv (s : System) : Prop where
  fresh : ∀ k h o, entry s.loop.tables k h = some o → o < s.next
  entry_unique : ∀ k h k' h' o, entry s.loop.tables k h = some o →
    entry s.loop.tables k' h' = some o → k = k' ∧ h = h'
  entry_live : ∀ k h o, entry s.loop.tables k h = some o → o ∉ s.begun
  begun_fresh : ∀ o ∈ s.begun, o < s.next
  apart : Apart Pc.target s.pc
  stage : ∀ t, Stage s.loop.tables s.next (s.pc t)
  loop : ∀ o, s.loopPc.object = some o → o ∉ s.begun

theorem Inv.safe {s : System} (hI : Inv s) : Safe s := by
  intro k verb o hcalling
  exact hI.loop o (by rw [hcalling]; rfl)

theorem entry_store (ts : Tables ℕ) (k k' : Kind) (h h' : ℕ) (v : Option ℕ) :
    entry (store ts k h v) k' h' = if k' = k ∧ h' = h then v else entry ts k' h' := by
  by_cases hk : k' = k
  · subst hk
    cases k' <;> by_cases hh : h' = h <;> simp [entry,store,hh]
  · have hnot : ¬(k' = k ∧ h' = h) := fun hboth => hk hboth.1
    rw [if_neg hnot]
    cases k <;> cases k' <;> first | rfl | exact absurd rfl hk

theorem recover_tables (s : ControlLoop.State ℕ) (q : Request) :
    (recover s q).tables = s.tables := by
  cases q with
  | qpSlot func h => cases func <;> rfl
  | cqSlot h => rfl
  | srqSlot h => rfl

/-- The object of a call is the one the table shows at the request's handle,
or the one the loop carries if the handle is out of range. -/
theorem callWith_object (s : ControlLoop.State ℕ) (q : Request) (c : DriverCall ℕ) (o : ℕ)
    (hc : callWith (recover s q) q = some c) (ho : c.object = some o) :
    load (entry s.tables (Request.kind q)) (carried s (Request.kind q)) (Request.handle q) =
      some o := by
  cases q with
  | qpSlot func h =>
    cases func with
    | ibvPostSend =>
      obtain ⟨o',ho',rfl⟩ := Option.map_eq_some_iff.mp hc
      rw [← ho]
      exact ho'
    | ibvPostRecv =>
      obtain rfl := Option.some.inj hc
      exact ho
    | _ => cases hc
  | cqSlot h =>
    obtain ⟨o',ho',rfl⟩ := Option.map_eq_some_iff.mp hc
    rw [← ho]
    exact ho'
  | srqSlot h =>
    obtain rfl := Option.some.inj hc
    exact ho

section Steps

variable {s s' : System}

/-- A step of the loop. -/
theorem Inv.of_loop (hI : Inv s) (htables : s'.loop.tables = s.loop.tables) (hpc : s'.pc = s.pc)
    (hbegun : s'.begun = s.begun) (hnext : s'.next = s.next)
    (hloop : ∀ o, s'.loopPc.object = some o → o ∉ s.begun) : Inv s' := by
  constructor
  · rw [htables,hnext]
    exact hI.fresh
  · rw [htables]
    exact hI.entry_unique
  · rw [htables,hbegun]
    exact hI.entry_live
  · rw [hbegun,hnext]
    exact hI.begun_fresh
  · rw [hpc]
    exact hI.apart
  · rw [hpc,htables,hnext]
    exact hI.stage
  · rw [hbegun]
    exact hloop

theorem inv_serve (hI : Inv s) (slot : ℕ) (q : Request) (he : Exclusive s (.serve slot q))
    (hstep : step s (.serve slot q) = some s') : Inv s' := by
  rw [step] at hstep
  split at hstep
  · next hguard =>
    simp only [serve] at hstep
    cases hc : callWith (recover s.loop q) q with
    | none =>
      rw [hc] at hstep
      dsimp only at hstep
      split at hstep
      · cases hstep
      · obtain rfl := Option.some.inj hstep
        refine hI.of_loop (recover_tables s.loop q) rfl rfl rfl ?_
        intro o ho
        rw [hguard.1] at ho
        cases ho
    | some c =>
      rw [hc] at hstep
      obtain ⟨o,ho,rfl⟩ := Option.map_eq_some_iff.mp hstep
      have hload := callWith_object s.loop q c o hc ho
      refine hI.of_loop (recover_tables s.loop q) rfl rfl rfl ?_
      intro o' ho'
      obtain rfl := Option.some.inj ho'
      rw [load] at hload
      split at hload
      · exact hI.entry_live _ _ o hload
      · next hrange =>
        rcases he with hlt | hcarried
        · exact absurd hlt hrange
        · exact hcarried o hload
  · cases hstep

theorem entry_create (ts : Tables ℕ) (k k' : Kind) (h h' o new : ℕ)
    (ho : entry (store ts k h (some new)) k' h' = some o) :
    (k' = k ∧ h' = h ∧ o = new) ∨ entry ts k' h' = some o := by
  rw [entry_store] at ho
  split at ho
  · next hsame => exact Or.inl ⟨hsame.1,hsame.2,(Option.some.inj ho).symm⟩
  · exact Or.inr ho

theorem Stage.create {ts : Tables ℕ} {k : Kind} {h next : ℕ} {pc : Pc} (hs : Stage ts next pc)
    (huntouched : pc.target ≠ some (k,h)) : Stage (store ts k h (some next)) (next+1) pc := by
  cases pc with
  | found k' h' o =>
    have hne : ¬(k' = k ∧ h' = h) := by
      rintro ⟨rfl,rfl⟩
      exact huntouched rfl
    show entry _ _ _ = _
    rw [entry_store,if_neg hne]
    exact hs
  | unmapped k' h' o =>
    refine ⟨Nat.lt_succ_of_lt hs.1,?_⟩
    intro k₂ h₂ ho
    rcases entry_create ts k k₂ h h₂ o next ho with ⟨-,-,rfl⟩ | hold
    · exact absurd hs.1 (Nat.lt_irrefl _)
    · exact hs.2 k₂ h₂ hold
  | _ => trivial

theorem inv_create (hI : Inv s) (k : Kind) (h : ℕ) (ho : OneDestroy s (.create k h))
    (hstep : step s (.create k h) = some s') : Inv s' := by
  rw [step] at hstep
  split at hstep
  · obtain rfl := Option.some.inj hstep
    have hentry := entry_create s.loop.tables k
    constructor
    · intro k' h' o ho
      show o < s.next+1
      rcases hentry k' h h' o s.next ho with ⟨-,-,rfl⟩ | hold
      · omega
      · exact Nat.lt_succ_of_lt (hI.fresh k' h' o hold)
    · intro k₁ h₁ k₂ h₂ o ho₁ ho₂
      rcases hentry k₁ h h₁ o s.next ho₁ with ⟨hk₁,hh₁,hnew₁⟩ | hold₁ <;>
        rcases hentry k₂ h h₂ o s.next ho₂ with ⟨hk₂,hh₂,hnew₂⟩ | hold₂
      · exact ⟨hk₁.trans hk₂.symm,hh₁.trans hh₂.symm⟩
      · exact absurd (hI.fresh _ _ _ hold₂) (by omega)
      · exact absurd (hI.fresh _ _ _ hold₁) (by omega)
      · exact hI.entry_unique _ _ _ _ o hold₁ hold₂
    · intro k' h' o ho
      rcases hentry k' h h' o s.next ho with ⟨-,-,rfl⟩ | hold
      · exact fun hmem => absurd (hI.begun_fresh _ hmem) (Nat.lt_irrefl _)
      · exact hI.entry_live k' h' o hold
    · exact fun o ho => Nat.lt_succ_of_lt (hI.begun_fresh o ho)
    · exact hI.apart
    · exact fun t => (hI.stage t).create (ho.1 t)
    · exact hI.loop
  · cases hstep

/-- The thread `t` goes on to `pc`; the tables stay as they are. -/
theorem Inv.of_goto (hI : Inv s) (t : ℕ) (pc : Pc) (vec : Kind → List ℕ)
    (hapart : Apart Pc.target (Function.update s.pc t pc))
    (hstage : Stage s.loop.tables s.next pc) : Inv ({s with vec := vec}.goto t pc) :=
  ⟨hI.fresh,hI.entry_unique,hI.entry_live,hI.begun_fresh,hapart,
    (Function.forall_update_iff s.pc fun _ => Stage s.loop.tables s.next).mpr
      ⟨hstage,fun t' _ => hI.stage t'⟩,hI.loop⟩

theorem inv_destroy (hI : Inv s) (t : ℕ) (k : Kind) (h : ℕ)
    (ho : OneDestroy s (.destroy t k h)) (hstep : step s (.destroy t k h) = some s') : Inv s' := by
  rw [step] at hstep
  split at hstep
  · cases hentry : entry s.loop.tables k h with
    | none =>
      rw [hentry] at hstep
      obtain rfl := Option.some.inj hstep
      exact hI
    | some o =>
      rw [hentry] at hstep
      obtain rfl := Option.some.inj hstep
      refine hI.of_goto t (.found k h o) s.vec (hI.apart.update ?_) hentry
      intro x hx t' _
      obtain rfl := Option.some.inj hx
      exact ho t'
  · cases hstep

theorem entry_clear (ts : Tables ℕ) (k k' : Kind) (h h' o : ℕ)
    (ho : entry (store ts k h none) k' h' = some o) :
    ¬(k' = k ∧ h' = h) ∧ entry ts k' h' = some o := by
  rw [entry_store] at ho
  split at ho
  · cases ho
  · next hne => exact ⟨hne,ho⟩

theorem Stage.clear {ts : Tables ℕ} {k : Kind} {h next : ℕ} {pc : Pc} (hs : Stage ts next pc)
    (hother : pc.target ≠ some (k,h)) : Stage (store ts k h none) next pc := by
  cases pc with
  | found k' h' o =>
    have hne : ¬(k' = k ∧ h' = h) := by
      rintro ⟨rfl,rfl⟩
      exact hother rfl
    show entry _ _ _ = _
    rw [entry_store,if_neg hne]
    exact hs
  | unmapped k' h' o =>
    exact ⟨hs.1,fun k₂ h₂ ho => hs.2 k₂ h₂ (entry_clear ts k k₂ h h₂ o ho).2⟩
  | _ => trivial

/-- Clearing the entry that a thread has found. -/
theorem inv_unmap (hI : Inv s) (t : ℕ) (k : Kind) (h o : ℕ) (hpc : s.pc t = .found k h o) :
    Inv ((s.put k h none).goto t (.unmapped k h o)) := by
  have hfound : entry s.loop.tables k h = some o := by
    have hstage := hI.stage t
    rwa [hpc] at hstage
  have hold := entry_clear s.loop.tables k
  constructor
  · exact fun k' h' o' ho' => hI.fresh k' h' o' (hold k' h h' o' ho').2
  · exact fun k₁ h₁ k₂ h₂ o' ho₁ ho₂ =>
      hI.entry_unique k₁ h₁ k₂ h₂ o' (hold k₁ h h₁ o' ho₁).2 (hold k₂ h h₂ o' ho₂).2
  · exact fun k' h' o' ho' => hI.entry_live k' h' o' (hold k' h h' o' ho').2
  · exact hI.begun_fresh
  · exact hI.apart.move fun x hx => by rwa [hpc]
  · apply (Function.forall_update_iff s.pc fun _ => Stage _ _).mpr
    constructor
    · refine ⟨hI.fresh k h o hfound,?_⟩
      intro k' h' ho'
      obtain ⟨hne,hentry⟩ := hold k' h h' o ho'
      exact hne (hI.entry_unique k' h' k h o hentry hfound)
    · intro t' ht
      exact (hI.stage t').clear (hI.apart.other (by rw [hpc]; rfl) t' ht)
  · exact hI.loop

/-- The destruction of an object begins that no entry and no call of the loop
refers to. -/
theorem inv_begin (hI : Inv s) (t : ℕ) (k : Kind) (h o : ℕ) (hpc : s.pc t = .unmapped k h o)
    (hloop : s.loopPc.object ≠ some o) :
    Inv ({s with begun := o::s.begun}.goto t (.destroying k h o)) := by
  have hstage := hI.stage t
  rw [hpc] at hstage
  obtain ⟨hfresh,hentries⟩ := hstage
  constructor
  · exact hI.fresh
  · exact hI.entry_unique
  · intro k' h' o' ho' hmem
    rcases List.mem_cons.mp hmem with rfl | hmem
    · exact hentries k' h' ho'
    · exact hI.entry_live k' h' o' ho' hmem
  · intro o' ho'
    rcases List.mem_cons.mp ho' with rfl | hmem
    · exact hfresh
    · exact hI.begun_fresh o' hmem
  · exact hI.apart.move fun x hx => by rwa [hpc]
  · exact (Function.forall_update_iff s.pc fun _ => Stage _ _).mpr
      ⟨trivial,fun t' _ => hI.stage t'⟩
  · intro o' ho' hmem
    rcases List.mem_cons.mp hmem with rfl | hmem
    · exact hloop ho'
    · exact hI.loop o' ho' hmem

theorem inv_advance (hI : Inv s) (t : ℕ) (he : Exclusive s (.advance t))
    (hstep : step s (.advance t) = some s') : Inv s' := by
  rw [step,advance] at hstep
  generalize hpc : s.pc t = pc at hstep
  cases pc with
  | idle => cases hstep
  | found k h o =>
    obtain rfl := Option.some.inj hstep
    exact inv_unmap hI t k h o hpc
  | unmapped k h o =>
    obtain rfl := Option.some.inj hstep
    exact inv_begin hI t k h o hpc (he k h o hpc)
  | destroying k h o =>
    obtain rfl := Option.some.inj hstep
    exact hI.of_goto t _ s.vec (hI.apart.move fun x hx => by rwa [hpc]) trivial
  | destroyed k h =>
    dsimp only at hstep
    split at hstep
    · cases hstep
    · obtain rfl := Option.some.inj hstep
      exact hI.of_goto t _ _ (hI.apart.move fun x hx => by rwa [hpc]) trivial
  | erased k h =>
    obtain rfl := Option.some.inj hstep
    exact hI.of_goto t _ s.vec (hI.apart.move fun x hx => by cases hx) trivial

theorem inv_step (s : System) (e : Event) (s' : System) (hI : Inv s)
    (he : OneDestroy s e ∧ Exclusive s e) (hstep : step s e = some s') : Inv s' := by
  cases e with
  | lock k =>
    rw [step] at hstep
    split at hstep
    · obtain rfl := Option.some.inj hstep
      exact hI.of_loop rfl rfl rfl rfl fun o ho => by cases ho
    · cases hstep
  | unlock =>
    rw [step] at hstep
    split at hstep
    · obtain rfl := Option.some.inj hstep
      exact hI.of_loop rfl rfl rfl rfl fun o ho => by cases ho
    · cases hstep
  | serve slot q => exact inv_serve hI slot q he.2 hstep
  | callBegins =>
    rw [step] at hstep
    split at hstep
    · next k verb o hpc =>
      obtain rfl := Option.some.inj hstep
      refine hI.of_loop rfl rfl rfl rfl fun o' ho' => hI.loop o' ?_
      rw [hpc]
      exact ho'
    · cases hstep
  | callReturns =>
    rw [step] at hstep
    split at hstep
    · obtain rfl := Option.some.inj hstep
      exact hI.of_loop rfl rfl rfl rfl fun o ho => by cases ho
    · cases hstep
  | create k h => exact inv_create hI k h he.1 hstep
  | push k h =>
    rw [step] at hstep
    split at hstep
    · cases hstep
    · obtain rfl := Option.some.inj hstep
      exact hI.of_loop rfl rfl rfl rfl hI.loop
  | destroy t k h => exact inv_destroy hI t k h he.1 hstep
  | advance t => exact inv_advance hI t he.2 hstep

end Steps

theorem entry_booted (k : Kind) (h : ℕ) : entry booted.loop.tables k h = none := by
  cases k <;> rfl

theorem inv_booted : Inv booted := by
  constructor
  · simp [entry_booted]
  · simp [entry_booted]
  · simp [entry_booted]
  · simp [booted]
  · intro t t' x ht
    cases ht
  · intro t
    trivial
  · intro o ho
    cases ho

/-- In every run in which live handles are destroyed once and are not issued
again too early, and in which no destruction begins under the hands of the loop,
no driver call of the loop is ever on an object whose destruction has begun. -/
theorem calls_not_on_destroyed (events : List Event) (u : System)
    (hone : Along step OneDestroy booted events) (hexclusive : Along step Exclusive booted events)
    (hrun : run step booted events = some u) : Safe u := by
  have hI : Inv u := run_invariant step (fun s e => OneDestroy s e ∧ Exclusive s e) Inv inv_step
    booted events u inv_booted (along_and step _ _ booted events hone hexclusive) hrun
  exact hI.safe

/-- QP 3 is created, used by the loop and then destroyed. -/
def orderly : List Event :=
  [.create .qp 3,.push .qp 3,.lock .qp,.serve 3 (.qpSlot .ibvPostSend 3),.callBegins,.callReturns,
    .unlock,.destroy 0 .qp 3,.advance 0,.advance 0,.advance 0,.lock .qp]

theorem orderly_safe : ∃ u, run step booted orderly = some u ∧ u.begun = [0] ∧ Safe u := by
  have hone : Along step OneDestroy booted orderly := by
    apply along_cons _ _ _ _ _ _ rfl ⟨fun t => by simp [booted,Pc.target],rfl⟩
    iterate 6 apply along_cons _ _ _ _ _ _ rfl trivial
    apply along_cons _ _ _ _ _ _ rfl (fun t => by simp [booted,System.put,Pc.target])
    iterate 4 apply along_cons _ _ _ _ _ _ rfl trivial
    trivial
  have hexclusive : Along step Exclusive booted orderly := by
    iterate 3 apply along_cons _ _ _ _ _ _ rfl trivial
    refine along_cons _ Exclusive _ _ _ _ rfl (Or.inl (by decide)) ?_
    iterate 4 apply along_cons _ _ _ _ _ _ rfl trivial
    iterate 3 refine along_cons _ Exclusive _ _ _ _ rfl (fun k h o _ ho => by cases ho) ?_
    apply along_cons _ _ _ _ _ _ rfl trivial
    trivial
  exact ⟨_,rfl,rfl,calls_not_on_destroyed orderly _ hone hexclusive rfl⟩

/-- The loop has loaded QP 3 when another thread destroys it; then the loop
posts. -/
def raced : List Event :=
  [.create .qp 3,.push .qp 3,.lock .qp,.serve 3 (.qpSlot .ibvPostRecv 3),
    .destroy 0 .qp 3,.advance 0,.advance 0,.callBegins]

theorem raced_call_on_destroyed : ∃ u, run step booted raced = some u ∧
    Along step OneDestroy booted raced ∧ u.loopPc = .calling .qp .postRecv 0 ∧ 0 ∈ u.begun ∧
    ¬Safe u := by
  refine ⟨_,rfl,?_,rfl,List.mem_cons_self,?_⟩
  · apply along_cons _ _ _ _ _ _ rfl ⟨fun t => by simp [booted,Pc.target],rfl⟩
    iterate 3 apply along_cons _ _ _ _ _ _ rfl trivial
    apply along_cons _ _ _ _ _ _ rfl (fun t => by simp [booted,System.put,Pc.target])
    iterate 3 apply along_cons _ _ _ _ _ _ rfl trivial
    trivial
  · intro h
    exact h .qp .postRecv 0 rfl List.mem_cons_self

end FreeFlow.DestroyRace
