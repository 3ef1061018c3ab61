import FreeFlow.Runs
import FreeFlow.Wire

/-!
# The objects the control loop acts on

`CtrlChannelLoop` keeps `qp`, `cq` and `srq` in variables that live as long as
the loop. A request whose handle is below `MAP_SIZE` loads the variable from the
table, any other request only logs and goes on with what the variable holds. A
send reads `qp->qp_type` before it posts, so NULL stops the router there; a poll
skips a NULL completion queue; the two receives hand the variable over
unseen. Other threads change the tables between two requests.
-/

set_option autoImplicit false

namespace FreeFlow.ControlLoop

open Runs Wire

variable {O : Type*}

/-- A request in a slot: the function code where the loop reads it, and the
handle in the body. -/
inductive Request
  | qpSlot (func : RdmaFunctionCall) (handle : ℕ)
  | cqSlot (handle : ℕ)
  | srqSlot (handle : ℕ)

inductive Verb
  | postSend
  | postRecv
  | pollCq
  | postSrqRecv
  deriving DecidableEq

/-- A driver call; `none` is the NULL pointer. -/
structure DriverCall (O : Type*) where
  verb : Verb
  object : Option O
  deriving DecidableEq

structure Tables (O : Type*) where
  qpMap : ℕ → Option O
  cqMap : ℕ → Option O
  srqMap : ℕ → Option O

structure State (O : Type*) where
  tables : Tables O
  qp : Option O
  cq : Option O
  srq : Option O

def started : State O := ⟨⟨fun _ => none,fun _ => none,fun _ => none⟩,none,none,none⟩

def load (table : ℕ → Option O) (carried : Option O) (handle : ℕ) : Option O :=
  if handle < mapSize then table handle else carried

/-- The three variables after the lookup of a request. -/
def recover (s : State O) : Request → State O
  | .qpSlot .ibvPostSend h => {s with qp := load s.tables.qpMap s.qp h}
  | .qpSlot .ibvPostRecv h => {s with qp := load s.tables.qpMap s.qp h}
  | .qpSlot _ _ => s
  | .cqSlot h => {s with cq := load s.tables.cqMap s.cq h}
  | .srqSlot h => {s with srq := load s.tables.srqMap s.srq h}

/-- The driver call of a request, made with the variables after its lookup. -/
def callWith (s : State O) : Request → Option (DriverCall O)
  | .qpSlot .ibvPostSend _ => s.qp.map fun o => ⟨.postSend,some o⟩
  | .qpSlot .ibvPostRecv _ => some ⟨.postRecv,s.qp⟩
  | .qpSlot _ _ => none
  | .cqSlot _ => s.cq.map fun o => ⟨.pollCq,some o⟩
  | .srqSlot _ => some ⟨.postSrqRecv,s.srq⟩

def call (s : State O) (q : Request) : Option (DriverCall O) := callWith (recover s q) q

/-- NULL reaches the driver or is dereferenced before. -/
def crashes (s : State O) : Request → Bool
  | .qpSlot .ibvPostSend _ => s.qp.isNone
  | .qpSlot .ibvPostRecv _ => s.qp.isNone
  | .qpSlot _ _ => false
  | .cqSlot _ => false
  | .srqSlot _ => s.srq.isNone

inductive Event (O : Type*)
  | serve (q : Request)
  | tables (new : Tables O)

def step (s : State O) : Event O → Option (State O)
  | .serve q => if crashes (recover s q) q then none else some (recover s q)
  | .tables new => some {s with tables := new}

/-- The object stored at the request's own handle. -/
def named (s : State O) : Request → Option O
  | .qpSlot _ h => if h < mapSize then s.tables.qpMap h else none
  | .cqSlot h => if h < mapSize then s.tables.cqMap h else none
  | .srqSlot h => if h < mapSize then s.tables.srqMap h else none

/-- Every driver call of the step is on the object the request names. -/
def ActsOnNamed (s : State O) : Event O → Prop
  | .serve q => ∀ c, call s q = some c → ∃ o, named s q = some o ∧ c.object = some o
  | .tables _ => True

/-- A receive names an object. A send and a poll have a handle in range, or the
loop still carries NULL. -/
def Addressed (s : State O) : Event O → Prop
  | .serve (.qpSlot .ibvPostSend h) => h < mapSize ∨ s.qp = none
  | .serve (.qpSlot .ibvPostRecv h) => h < mapSize ∧ s.tables.qpMap h ≠ none
  | .serve (.qpSlot _ _) => True
  | .serve (.cqSlot h) => h < mapSize ∨ s.cq = none
  | .serve (.srqSlot h) => h < mapSize ∧ s.tables.srqMap h ≠ none
  | .tables _ => True

/-- A verb that tests the loaded pointer. -/
theorem tested_iff (verb : Verb) (table : ℕ → Option O) (carried : Option O) (h : ℕ) :
    (∀ c, (load table carried h).map (fun o => (⟨verb,some o⟩ : DriverCall O)) = some c →
      ∃ o, (if h < mapSize then table h else none) = some o ∧ c.object = some o) ↔
    (h < mapSize ∨ carried = none) := by
  by_cases hh : h < mapSize
  · simp only [load,hh,if_true,true_or,iff_true]
    intro c hc
    obtain ⟨o,ho,rfl⟩ := Option.map_eq_some_iff.mp hc
    exact ⟨o,ho,rfl⟩
  · cases carried with
    | none => simp [load,hh]
    | some o => simp [load,hh]

/-- A verb that takes the loaded pointer as it is. -/
theorem untested_iff (verb : Verb) (table : ℕ → Option O) (carried : Option O) (h : ℕ) :
    (∀ c, some (⟨verb,load table carried h⟩ : DriverCall O) = some c →
      ∃ o, (if h < mapSize then table h else none) = some o ∧ c.object = some o) ↔
    (h < mapSize ∧ table h ≠ none) := by
  by_cases hh : h < mapSize
  · simp [load,hh,Option.ne_none_iff_exists']
  · simp [load,hh]

theorem actsOnNamed_iff_addressed (s : State O) (e : Event O) :
    ActsOnNamed s e ↔ Addressed s e := by
  cases e with
  | tables new => exact Iff.rfl
  | serve q =>
    cases q with
    | qpSlot func h =>
      cases func with
      | ibvPostSend => exact tested_iff .postSend s.tables.qpMap s.qp h
      | ibvPostRecv => exact untested_iff .postRecv s.tables.qpMap s.qp h
      | _ => exact iff_of_true (fun c hc => by cases hc) trivial
    | cqSlot h => exact tested_iff .pollCq s.tables.cqMap s.cq h
    | srqSlot h => exact untested_iff .postSrqRecv s.tables.srqMap s.srq h

/-- In every history of requests and table changes, each driver call is on the
object named by its own request exactly when every request is addressed. -/
theorem calls_on_named_iff (events : List (Event O)) :
    Along step ActsOnNamed started events ↔ Along step Addressed started events :=
  along_iff step ActsOnNamed Addressed (fun _ => True)
    (fun s e _ => actsOnNamed_iff_addressed s e) (fun _ _ _ _ _ _ => trivial)
    started events trivial

/-- The event loads `qp` from the table. -/
def LoadsQp : Event O → Prop
  | .serve (.qpSlot .ibvPostSend h) => h < mapSize
  | .serve (.qpSlot .ibvPostRecv h) => h < mapSize
  | _ => False

theorem load_out_of_range (table : ℕ → Option O) (carried : Option O) (h : ℕ) (hh : ¬h < mapSize) :
    load table carried h = carried := if_neg hh

theorem recover_qp_kept (s : State O) (q : Request) (hq : ¬LoadsQp (.serve q : Event O)) :
    (recover s q).qp = s.qp := by
  cases q with
  | qpSlot func h =>
    cases func with
    | ibvPostSend => exact load_out_of_range s.tables.qpMap s.qp h hq
    | ibvPostRecv => exact load_out_of_range s.tables.qpMap s.qp h hq
    | _ => rfl
  | cqSlot h => rfl
  | srqSlot h => rfl

theorem step_qp_kept (s t : State O) (e : Event O) (he : ¬LoadsQp e) (h : step s e = some t) :
    t.qp = s.qp := by
  cases e with
  | tables new =>
    obtain rfl := Option.some.inj h
    rfl
  | serve q =>
    rw [step] at h
    split at h
    · cases h
    · obtain rfl := Option.some.inj h
      exact recover_qp_kept s q he

/-- A receive with a handle out of range goes to the queue pair that the last
request with a handle in range has found, whoever sent that request and
whatever the tables hold by now. -/
theorem stale_qp_receives (s : State O) (h : ℕ) (hh : ¬h < mapSize) (events : List (Event O))
    (hkept : ∀ e ∈ events, ¬LoadsQp e) (t : State O) (hrun : run step s events = some t) :
    call t (.qpSlot .ibvPostRecv h) = some ⟨.postRecv,s.qp⟩ := by
  have hqp : t.qp = s.qp := by
    apply run_invariant step (fun _ e => ¬LoadsQp e) (fun u => u.qp = s.qp) _ s events t rfl
      (along_of_forall step _ s events fun e he _ => hkept e he) hrun
    intro u e v hu he hstep
    rw [step_qp_kept u v e he hstep,hu]
  rw [← hqp]
  show some (⟨.postRecv,load t.tables.qpMap t.qp h⟩ : DriverCall O) = _
  rw [load_out_of_range t.tables.qpMap t.qp h hh]

/-- QP 3 holds the object 7; a send names it, and then a receive names the
handle 10240. -/
theorem receive_on_stale_qp :
    (run step (started : State ℕ)
      [.tables ⟨fun h => if h = 3 then some 7 else none,fun _ => none,fun _ => none⟩,
        .serve (.qpSlot .ibvPostSend 3)]).map
      (fun t => (call t (.qpSlot .ibvPostRecv 10240),named t (.qpSlot .ibvPostRecv 10240))) =
    some (some ⟨.postRecv,some 7⟩,none) := by
  decide

end FreeFlow.ControlLoop
