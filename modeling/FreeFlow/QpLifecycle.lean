import FreeFlow.Runs
import FreeFlow.Wire
import Mathlib.Data.List.Count

/-!
# Creating and destroying queue pairs

Every client connection has its own `HandleRequest` thread. `IBV_CREATE_QP` and
`IBV_DESTROY_QP` work on four tables that all threads share: the driver's
handles, `qp_map`, `qp_shm_map` and `qp_shm_vec`. A thread is interrupted between
any two driver calls, table writes and sections of `qp_shm_vec_mtx`.

The driver issues any free handle below `MAP_SIZE`, also one it has just got back.
It may refuse to destroy a queue pair. Queue pairs are numbered in the order of
their creation; the name replies are kept as ghost state.
-/

set_option autoImplicit false

namespace FreeFlow.QpLifecycle

open Runs Wire

/-- A control slot: the queue pair it was created for and the name of its
shared memory. -/
structure ShmPiece where
  qp : ℕ
  name : String
  deriving DecidableEq

/-- `initCtrlShm`. -/
def initCtrlShm (qp h : ℕ) : ShmPiece := ⟨qp,"ctrlshm-qp"++toString h⟩

/-- Where a thread stands. -/
inductive Pc
  | idle
  | created (qp h : ℕ)
  | mapped (qp h : ℕ)
  | opened (qp h : ℕ) (sp : ShmPiece)
  | installed (qp h : ℕ) (sp : ShmPiece)
  | found (qp h : ℕ)
  | unmapped (qp h : ℕ)
  | destroyed (h : ℕ)
  | erased (h : ℕ)
  | deleted (h : ℕ)
  deriving DecidableEq

/-- The handle a thread is working on. -/
def Pc.handle : Pc → Option ℕ
  | .idle => none
  | .created _ h => some h
  | .mapped _ h => some h
  | .opened _ h _ => some h
  | .installed _ h _ => some h
  | .found _ h => some h
  | .unmapped _ h => some h
  | .destroyed h => some h
  | .erased h => some h
  | .deleted h => some h

/-- The tables of the router, the live queue pair of each handle (`holder`, the
driver's own table) and the names returned to clients. -/
structure State where
  holder : ℕ → Option ℕ
  qpMap : ℕ → Option ℕ
  qpShmMap : ℕ → Option ShmPiece
  qpShmVec : List ℕ
  pc : ℕ → Pc
  next : ℕ
  replies : List (ℕ × String)

def started : State := ⟨fun _ => none,fun _ => none,fun _ => none,[],fun _ => .idle,0,[]⟩

def State.goto (s : State) (t : ℕ) (pc : Pc) : State := {s with pc := Function.update s.pc t pc}

/-- The next table write of a thread. -/
def advance (s : State) (t : ℕ) : Option State :=
  match s.pc t with
  | .created qp h => some ({s with qpMap := Function.update s.qpMap h (some qp)}.goto t (.mapped qp h))
  | .mapped qp h => some (s.goto t (.opened qp h (initCtrlShm qp h)))
  | .opened qp h sp => some
      ({s with qpShmMap := Function.update s.qpShmMap h (some sp)}.goto t (.installed qp h sp))
  | .installed qp h sp => some
      ({s with qpShmVec := s.qpShmVec++[h],replies := (qp,sp.name)::s.replies}.goto t .idle)
  | .found qp h => some ({s with qpMap := Function.update s.qpMap h none}.goto t (.unmapped qp h))
  | .destroyed h => some ({s with qpShmVec := s.qpShmVec.erase h}.goto t (.erased h))
  | .erased h => some (s.goto t (.deleted h))
  | .deleted h => some ({s with qpShmMap := Function.update s.qpShmMap h none}.goto t .idle)
  | .idle => none
  | .unmapped _ _ => none

inductive Event
  /-- `ibv_create_qp` returns a queue pair with handle `h`. -/
  | create (t h : ℕ)
  /-- A destroy request looks `h` up. -/
  | destroy (t h : ℕ)
  /-- `ibv_destroy_qp` returns. -/
  | ibvDestroyQp (t : ℕ) (success : Bool)
  | advance (t : ℕ)

def step (s : State) : Event → Option State
  | .create t h =>
    if s.pc t = .idle ∧ s.holder h = none ∧ h < mapSize then
      some ({s with holder := Function.update s.holder h (some s.next),next := s.next+1}.goto t
        (.created s.next h))
    else none
  | .destroy t h =>
    if s.pc t = .idle ∧ h < mapSize then
      match s.qpMap h with
      | none => some s
      | some qp => some (s.goto t (.found qp h))
    else none
  | .ibvDestroyQp t success =>
    match s.pc t with
    | .unmapped qp h =>
      if success then
        if s.holder h = some qp then
          some ({s with holder := Function.update s.holder h none}.goto t (.destroyed h))
        else none
      else some (s.goto t (.destroyed h))
    | _ => none
  | .advance t => advance s t

def Quiet (s : State) : Prop := ∀ t, s.pc t = .idle

/-- The tables at a handle show its live queue pair, and nothing if there is
none. -/
def Settled (s : State) (h : ℕ) : Prop :=
  match s.holder h with
  | none => s.qpMap h = none ∧ s.qpShmMap h = none ∧ s.qpShmVec.count h = 0
  | some qp => s.qpMap h = some qp ∧ s.qpShmVec.count h = 1 ∧
    ∃ sp, s.qpShmMap h = some sp ∧ sp.qp = qp ∧ (qp,sp.name) ∈ s.replies

/-- No thread works on the handle. -/
def Free (s : State) (h : ℕ) : Prop := ∀ t, (s.pc t).handle ≠ some h

/-- Requests on one handle do not overlap, and the driver destroys what it is
asked to. -/
def Apart (s : State) : Event → Prop
  | .create _ h => Free s h
  | .destroy _ h => Free s h
  | .ibvDestroyQp _ success => success = true
  | .advance _ => True

/-- What the tables hold at the handle a thread works on. -/
def Stage (s : State) (h : ℕ) : Pc → Prop
  | .idle => False
  | .created qp _ => s.holder h = some qp ∧ s.qpMap h = none ∧ s.qpShmMap h = none ∧
      s.qpShmVec.count h = 0
  | .mapped qp _ => s.holder h = some qp ∧ s.qpMap h = some qp ∧ s.qpShmVec.count h = 0
  | .opened qp _ sp => s.holder h = some qp ∧ s.qpMap h = some qp ∧ s.qpShmVec.count h = 0 ∧
      sp.qp = qp
  | .installed qp _ sp => s.holder h = some qp ∧ s.qpMap h = some qp ∧
      s.qpShmVec.count h = 0 ∧ s.qpShmMap h = some sp ∧ sp.qp = qp
  | .found qp _ => s.holder h = some qp ∧ s.qpMap h = some qp ∧ s.qpShmVec.count h = 1
  | .unmapped qp _ => s.holder h = some qp ∧ s.qpMap h = none ∧ s.qpShmVec.count h = 1
  | .destroyed _ => s.holder h = none ∧ s.qpMap h = none ∧ s.qpShmVec.count h = 1
  | .erased _ => s.holder h = none ∧ s.qpMap h = none ∧ s.qpShmVec.count h = 0
  | .deleted _ => s.holder h = none ∧ s.qpMap h = none ∧ s.qpShmVec.count h = 0

/-- A handle is settled, or exactly one thread works on it. -/
inductive At (s : State) (h : ℕ) : Prop
  | settled (free : Free s h) (tables : Settled s h)
  | busy (t : ℕ) (works : (s.pc t).handle = some h)
      (alone : ∀ t', (s.pc t').handle = some h → t' = t) (stage : Stage s h (s.pc t))

def Inv (s : State) : Prop := ∀ h, At s h

theorem inv_started : Inv started :=
  fun _ => .settled (fun _ => by simp [started,Pc.handle]) (by simp [Settled,started])

/-- A step of thread `t` on handle `h` that ends at `pc`. -/
structure Moved (s s' : State) (t h : ℕ) (pc : Pc) : Prop where
  pcs : s'.pc = Function.update s.pc t pc
  before : (s.pc t).handle = none ∨ (s.pc t).handle = some h
  after : pc.handle = none ∨ pc.handle = some h
  holder : ∀ h', h' ≠ h → s'.holder h' = s.holder h'
  qpMap : ∀ h', h' ≠ h → s'.qpMap h' = s.qpMap h'
  qpShmMap : ∀ h', h' ≠ h → s'.qpShmMap h' = s.qpShmMap h'
  count : ∀ h', h' ≠ h → s'.qpShmVec.count h' = s.qpShmVec.count h'
  replies : s.replies ⊆ s'.replies

section Frame

variable {s s' : State} {t h : ℕ} {pc : Pc}

theorem Moved.handle_iff (m : Moved s s' t h pc) (t' h' : ℕ) (hne : h' ≠ h) :
    (s'.pc t').handle = some h' ↔ (s.pc t').handle = some h' := by
  by_cases ht : t' = t
  · have hold : (s.pc t).handle ≠ some h' := by
      rcases m.before with hb | hb <;> simp [hb,Ne.symm hne]
    have hnew : pc.handle ≠ some h' := by
      rcases m.after with ha | ha <;> simp [ha,Ne.symm hne]
    rw [ht,m.pcs,Function.update_self]
    exact iff_of_false hnew hold
  · rw [m.pcs,Function.update_of_ne ht]

theorem Moved.settled (m : Moved s s' t h pc) (h' : ℕ) (hne : h' ≠ h) (hs : Settled s h') :
    Settled s' h' := by
  unfold Settled at hs ⊢
  rw [m.holder h' hne,m.qpMap h' hne,m.qpShmMap h' hne,m.count h' hne]
  cases hholder : s.holder h' with
  | none =>
    rw [hholder] at hs
    exact hs
  | some qp =>
    rw [hholder] at hs
    obtain ⟨hmap,hcount,sp,hsp,hqp,hreply⟩ := hs
    exact ⟨hmap,hcount,sp,hsp,hqp,m.replies hreply⟩

theorem Moved.stage (m : Moved s s' t h pc) (h' : ℕ) (hne : h' ≠ h) (pc' : Pc)
    (hs : Stage s h' pc') : Stage s' h' pc' := by
  cases pc' with
  | idle => exact hs.elim
  | _ => simpa only [Stage,m.holder h' hne,m.qpMap h' hne,m.qpShmMap h' hne,m.count h' hne] using hs

/-- A step keeps the invariant at every handle it does not work on. -/
theorem Moved.elsewhere (m : Moved s s' t h pc) (h' : ℕ) (hne : h' ≠ h) (hs : At s h') :
    At s' h' := by
  cases hs with
  | settled free tables =>
    refine .settled (fun t' => ?_) (m.settled h' hne tables)
    rw [Ne,m.handle_iff t' h' hne]
    exact free t'
  | busy t' works alone stage =>
    have hpc : s'.pc t' = s.pc t' := by
      rw [m.pcs]
      apply Function.update_of_ne
      rintro rfl
      rcases m.before with hb | hb <;> simp [hb,Ne.symm hne] at works
    refine .busy t' ((m.handle_iff t' h' hne).mpr works) ?_ (hpc ▸ m.stage h' hne _ stage)
    intro t'' hworks
    exact alone t'' ((m.handle_iff t'' h' hne).mp hworks)

/-- No other thread works on the handle of the step. -/
def Sole (s : State) (t h : ℕ) : Prop := ∀ t', t' ≠ t → (s.pc t').handle ≠ some h

theorem Moved.sole (m : Moved s s' t h pc) (hs : Sole s t h) : Sole s' t h := by
  intro t' ht
  rw [m.pcs,Function.update_of_ne ht]
  exact hs t' ht

theorem Moved.inv_busy (m : Moved s s' t h pc) (hI : Inv s) (hsole : Sole s t h)
    (hpc : pc.handle = some h) (hstage : Stage s' h pc) : Inv s' := by
  intro h'
  by_cases hne : h' = h
  · subst hne
    have hself : s'.pc t = pc := by rw [m.pcs,Function.update_self]
    refine .busy t (by rw [hself,hpc]) ?_ (by rwa [hself])
    intro t' ht'
    by_contra hother
    exact m.sole hsole t' hother ht'
  · exact m.elsewhere h' hne (hI h')

theorem Moved.inv_settled (m : Moved s s' t h pc) (hI : Inv s) (hsole : Sole s t h)
    (hpc : pc = .idle) (htables : Settled s' h) : Inv s' := by
  intro h'
  by_cases hne : h' = h
  · subst hne
    refine .settled ?_ htables
    intro t'
    by_cases ht : t' = t
    · rw [ht,m.pcs,Function.update_self,hpc]
      simp [Pc.handle]
    · exact m.sole hsole t' ht
  · exact m.elsewhere h' hne (hI h')

end Frame

/-- The thread that works on a handle is alone, and its stage holds. -/
theorem Inv.works {s : State} (hI : Inv s) {t h : ℕ} {pc : Pc} (hpc : s.pc t = pc)
    (hw : pc.handle = some h) : Sole s t h ∧ Stage s h pc := by
  subst hpc
  cases hI h with
  | settled free tables => exact absurd hw (free t)
  | busy t' works alone stage =>
    obtain rfl := alone t hw
    refine ⟨?_,stage⟩
    intro t'' hne hw''
    exact hne (alone t'' hw'')

theorem Inv.free {s : State} (hI : Inv s) (h : ℕ) (hfree : Free s h) : Settled s h := by
  cases hI h with
  | settled free tables => exact tables
  | busy t works alone stage => exact absurd works (hfree t)

section Moves

variable {s : State} {t h : ℕ} {pc : Pc}

theorem moved_goto (hb : (s.pc t).handle = none ∨ (s.pc t).handle = some h)
    (ha : pc.handle = none ∨ pc.handle = some h) : Moved s (s.goto t pc) t h pc :=
  ⟨rfl,hb,ha,fun _ _ => rfl,fun _ _ => rfl,fun _ _ => rfl,fun _ _ => rfl,List.Subset.refl _⟩

theorem moved_qpMap (v : Option ℕ) (hb : (s.pc t).handle = none ∨ (s.pc t).handle = some h)
    (ha : pc.handle = none ∨ pc.handle = some h) :
    Moved s ({s with qpMap := Function.update s.qpMap h v}.goto t pc) t h pc :=
  ⟨rfl,hb,ha,fun _ _ => rfl,fun _ hne => Function.update_of_ne hne _ _,fun _ _ => rfl,
    fun _ _ => rfl,List.Subset.refl _⟩

theorem moved_qpShmMap (v : Option ShmPiece)
    (hb : (s.pc t).handle = none ∨ (s.pc t).handle = some h)
    (ha : pc.handle = none ∨ pc.handle = some h) :
    Moved s ({s with qpShmMap := Function.update s.qpShmMap h v}.goto t pc) t h pc :=
  ⟨rfl,hb,ha,fun _ _ => rfl,fun _ _ => rfl,fun _ hne => Function.update_of_ne hne _ _,
    fun _ _ => rfl,List.Subset.refl _⟩

theorem moved_holder (v : Option ℕ) (next : ℕ)
    (hb : (s.pc t).handle = none ∨ (s.pc t).handle = some h)
    (ha : pc.handle = none ∨ pc.handle = some h) :
    Moved s ({s with holder := Function.update s.holder h v,next := next}.goto t pc) t h pc :=
  ⟨rfl,hb,ha,fun _ hne => Function.update_of_ne hne _ _,fun _ _ => rfl,fun _ _ => rfl,
    fun _ _ => rfl,List.Subset.refl _⟩

theorem moved_qpShmVec (vec : List ℕ) (replies : List (ℕ × String))
    (hvec : ∀ h', h' ≠ h → vec.count h' = s.qpShmVec.count h') (hreplies : s.replies ⊆ replies)
    (hb : (s.pc t).handle = none ∨ (s.pc t).handle = some h)
    (ha : pc.handle = none ∨ pc.handle = some h) :
    Moved s ({s with qpShmVec := vec,replies := replies}.goto t pc) t h pc :=
  ⟨rfl,hb,ha,fun _ _ => rfl,fun _ _ => rfl,fun _ _ => rfl,hvec,hreplies⟩

end Moves

section Steps

variable {s s' : State}

theorem count_append_other (xs : List ℕ) (h h' : ℕ) (hne : h' ≠ h) :
    (xs++[h]).count h' = xs.count h' := by
  rw [List.count_append,List.count_singleton,if_neg (by simpa using Ne.symm hne),Nat.add_zero]

theorem inv_advance (t : ℕ) (hI : Inv s) (hstep : advance s t = some s') : Inv s' := by
  rw [advance] at hstep
  generalize hpc : s.pc t = pc at hstep
  have hhandle : (s.pc t).handle = pc.handle := congrArg Pc.handle hpc
  cases pc with
  | idle => cases hstep
  | unmapped qp h => cases hstep
  | created qp h =>
    obtain rfl := Option.some.inj hstep
    obtain ⟨hsole,hholder,-,-,hcount⟩ := hI.works hpc rfl
    apply (moved_qpMap (some qp) (Or.inr hhandle) (Or.inr rfl)).inv_busy hI hsole rfl
    exact ⟨hholder,Function.update_self _ _ _,hcount⟩
  | mapped qp h =>
    obtain rfl := Option.some.inj hstep
    obtain ⟨hsole,hholder,hmap,hcount⟩ := hI.works hpc rfl
    apply (moved_goto (Or.inr hhandle) (Or.inr rfl)).inv_busy hI hsole rfl
    exact ⟨hholder,hmap,hcount,rfl⟩
  | opened qp h sp =>
    obtain rfl := Option.some.inj hstep
    obtain ⟨hsole,hholder,hmap,hcount,hqp⟩ := hI.works hpc rfl
    apply (moved_qpShmMap (some sp) (Or.inr hhandle) (Or.inr rfl)).inv_busy hI hsole rfl
    exact ⟨hholder,hmap,hcount,Function.update_self _ _ _,hqp⟩
  | installed qp h sp =>
    obtain rfl := Option.some.inj hstep
    obtain ⟨hsole,hholder,hmap,hcount,hslot,hqp⟩ := hI.works hpc rfl
    apply (moved_qpShmVec (s.qpShmVec++[h]) _ (fun h' => count_append_other _ h h')
      (List.subset_cons_self _ _) (Or.inr hhandle) (Or.inl rfl)).inv_settled hI hsole rfl
    have hcount' : (s.qpShmVec++[h]).count h = 1 := by simp [hcount]
    simp only [Settled,State.goto,hholder]
    exact ⟨hmap,hcount',sp,hslot,hqp,List.mem_cons_self⟩
  | found qp h =>
    obtain rfl := Option.some.inj hstep
    obtain ⟨hsole,hholder,-,hcount⟩ := hI.works hpc rfl
    apply (moved_qpMap none (Or.inr hhandle) (Or.inr rfl)).inv_busy hI hsole rfl
    exact ⟨hholder,Function.update_self _ _ _,hcount⟩
  | destroyed h =>
    obtain rfl := Option.some.inj hstep
    obtain ⟨hsole,hholder,hmap,hcount⟩ := hI.works hpc rfl
    apply (moved_qpShmVec (s.qpShmVec.erase h) s.replies (fun _ hne => List.count_erase_of_ne hne)
      (List.Subset.refl _) (Or.inr hhandle) (Or.inr rfl)).inv_busy hI hsole rfl
    refine ⟨hholder,hmap,?_⟩
    show (s.qpShmVec.erase h).count h = 0
    rw [List.count_erase_self,hcount]
  | erased h =>
    obtain rfl := Option.some.inj hstep
    obtain ⟨hsole,hstage⟩ := hI.works hpc rfl
    exact (moved_goto (Or.inr hhandle) (Or.inr rfl)).inv_busy hI hsole rfl hstage
  | deleted h =>
    obtain rfl := Option.some.inj hstep
    obtain ⟨hsole,hholder,hmap,hcount⟩ := hI.works hpc rfl
    apply (moved_qpShmMap none (Or.inr hhandle) (Or.inl rfl)).inv_settled hI hsole rfl
    simp [Settled,State.goto,hholder,hmap,hcount]

theorem Free.sole {t h : ℕ} (hfree : Free s h) : Sole s t h := fun t' _ => hfree t'

theorem inv_create (t h : ℕ) (hI : Inv s) (hfree : Free s h)
    (hstep : step s (.create t h) = some s') : Inv s' := by
  rw [step] at hstep
  split at hstep
  · next hguard =>
    obtain ⟨hpc,hholder,-⟩ := hguard
    have htables := hI.free h hfree
    rw [Settled,hholder] at htables
    obtain rfl := Option.some.inj hstep
    apply (moved_holder (some s.next) _ (Or.inl (congrArg Pc.handle hpc)) (Or.inr rfl)).inv_busy hI
      hfree.sole rfl
    exact ⟨Function.update_self _ _ _,htables⟩
  · cases hstep

theorem inv_destroy (t h : ℕ) (hI : Inv s) (hfree : Free s h)
    (hstep : step s (.destroy t h) = some s') : Inv s' := by
  rw [step] at hstep
  split at hstep
  · next hguard =>
    have htables := hI.free h hfree
    cases hmap : s.qpMap h with
    | none =>
      rw [hmap] at hstep
      obtain rfl := Option.some.inj hstep
      exact hI
    | some qp =>
      rw [hmap] at hstep
      obtain rfl := Option.some.inj hstep
      apply (moved_goto (Or.inl (congrArg Pc.handle hguard.1)) (Or.inr rfl)).inv_busy hI
        hfree.sole rfl
      cases hholder : s.holder h with
      | none =>
        rw [Settled,hholder] at htables
        simp [hmap] at htables
      | some qp' =>
        rw [Settled,hholder] at htables
        obtain ⟨hmap',hcount,-⟩ := htables
        obtain rfl := Option.some.inj (hmap.symm.trans hmap')
        exact ⟨hholder,hmap,hcount⟩
  · cases hstep

theorem inv_ibvDestroyQp (t : ℕ) (hI : Inv s)
    (hstep : step s (.ibvDestroyQp t true) = some s') : Inv s' := by
  rw [step] at hstep
  split at hstep
  · next qp h hpc =>
    obtain ⟨hsole,hholder,hmap,hcount⟩ := hI.works hpc rfl
    rw [if_pos rfl,if_pos hholder] at hstep
    obtain rfl := Option.some.inj hstep
    apply (moved_holder none s.next (Or.inr (congrArg Pc.handle hpc)) (Or.inr rfl)).inv_busy hI
      hsole rfl
    exact ⟨Function.update_self _ _ _,hmap,hcount⟩
  · cases hstep

theorem inv_step (s : State) (e : Event) (s' : State) (hI : Inv s) (ha : Apart s e)
    (hstep : step s e = some s') : Inv s' := by
  cases e with
  | create t h => exact inv_create t h hI ha hstep
  | destroy t h => exact inv_destroy t h hI ha hstep
  | ibvDestroyQp t success =>
    obtain rfl : success = true := ha
    exact inv_ibvDestroyQp t hI hstep
  | advance t => exact inv_advance t hI hstep

end Steps

/-- The tables of a router with no request in progress show exactly its live
queue pairs. -/
def Consistent (s : State) : Prop :=
  (∀ h qp, s.holder h = some qp → s.qpMap h = some qp ∧ s.qpShmVec.count h = 1 ∧
    ∃ sp, s.qpShmMap h = some sp ∧ sp.qp = qp ∧ (qp,sp.name) ∈ s.replies) ∧
  ∀ h ∈ s.qpShmVec, s.holder h ≠ none

/-- In every run in which requests on one handle do not overlap and no destroy
fails, the tables are consistent whenever no request is in progress. -/
theorem tables_consistent (events : List Event) (u : State) (ha : Along step Apart started events)
    (hrun : run step started events = some u) (hquiet : Quiet u) : Consistent u := by
  have hI : Inv u := run_invariant step Apart Inv inv_step started events u inv_started ha hrun
  have hsettled : ∀ h, Settled u h := by
    intro h
    apply hI.free
    intro t
    rw [hquiet t]
    simp [Pc.handle]
  constructor
  · intro h qp hholder
    have htables := hsettled h
    rw [Settled,hholder] at htables
    exact htables
  · intro h hmem hholder
    have htables := hsettled h
    rw [Settled,hholder] at htables
    exact absurd hmem (List.count_eq_zero.mp htables.2.2)

theorem free_of_two (s : State) (h : ℕ) (h0 : (s.pc 0).handle ≠ some h)
    (h1 : (s.pc 1).handle ≠ some h) (hidle : ∀ t, t ≠ 0 → t ≠ 1 → s.pc t = .idle) : Free s h := by
  intro t
  by_cases ht0 : t = 0
  · rwa [ht0]
  · by_cases ht1 : t = 1
    · rwa [ht1]
    · rw [hidle t ht0 ht1]
      simp [Pc.handle]

/-- Two create requests step by step in turns; then thread 1 destroys the
queue pair with handle 3, and thread 0 gets the handle for a new one. -/
def turns : List Event :=
  [.create 0 3,.create 1 5,.advance 1,.advance 0,.advance 0,.advance 1,.advance 1,.advance 0,
    .advance 0,.advance 1,
    .destroy 1 3,.advance 1,.ibvDestroyQp 1 true,.advance 1,.advance 1,.advance 1,
    .create 0 3,.advance 0,.advance 0,.advance 0,.advance 0]

theorem turns_consistent : ∃ u, run step started turns = some u ∧ Quiet u ∧
    u.holder 3 = some 2 ∧ u.holder 5 = some 1 ∧ Consistent u := by
  have hquiet : ∀ u, run step started turns = some u → Quiet u := by
    intro u hu t
    obtain rfl := Option.some.inj hu
    by_cases h0 : t = 0 <;> by_cases h1 : t = 1 <;> simp [State.goto,started,h0,h1]
  have hapart : Along step Apart started turns := by
    -- only the creates, the lookup and the driver's result ask for something
    iterate 21
      refine along_cons step Apart _ _ _ _ rfl ?_ ?_
      first
        | exact trivial
        | rfl
        | refine free_of_two _ _ (by decide) (by decide) fun t h0 h1 => ?_
          simp [State.goto,started,h0,h1]
    trivial
  exact ⟨_,rfl,hquiet _ rfl,rfl,rfl,tables_consistent turns _ hapart rfl (hquiet _ rfl)⟩

/-- Thread 0 destroys the queue pair with handle 3. When the driver has taken
the handle back, thread 1 gets it for a new queue pair and completes; then
thread 0 goes on. -/
def reissued : List Event :=
  [.create 0 3,.advance 0,.advance 0,.advance 0,.advance 0,
    .destroy 0 3,.advance 0,.ibvDestroyQp 0 true,
    .create 1 3,.advance 1,.advance 1,.advance 1,.advance 1,
    .advance 0,.advance 0,.advance 0]

/-- No request is in progress, the new queue pair is live and has lost its
slot. -/
theorem reissued_handle_loses_slot : ∃ u, run step started reissued = some u ∧ Quiet u ∧
    u.holder 3 = some 1 ∧ u.qpShmMap 3 = none ∧ ¬Consistent u := by
  refine ⟨_,rfl,?_,rfl,rfl,?_⟩
  · intro t
    by_cases h0 : t = 0 <;> by_cases h1 : t = 1 <;> simp [State.goto,started,h0,h1]
  · intro h
    obtain ⟨-,-,sp,hsp,-⟩ := h.1 3 1 rfl
    cases hsp

end FreeFlow.QpLifecycle
