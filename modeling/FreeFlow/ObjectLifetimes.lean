import FreeFlow.ObjectSlots
import FreeFlow.RequestHandler

/-!
# The lifetimes of driver objects

`HandleRequest` keeps a pointer to every object of the driver in a table of
`MAP_SIZE` entries, under the handle or descriptor that the driver gave it. A request
names entries; the objects there are handed to a driver function. A destroy request clears
its entry first, except `IBV_DESTROY_AH`, which leaves it.

Requests are handled one after the other. An index outside a table leaves the
request undefined. A NULL pointer that is used without a test ends the router, and
with it the run.
-/

set_option autoImplicit false

namespace FreeFlow.ObjectLifetimes

open ObjectSlots RequestHandler Runs Wire

inductive Kind
  | pd
  | cq
  | qp
  | srq
  | ah
  | channel
  | eventChannel
  | mr
  deriving DecidableEq

abbrev Entry := Kind × ℤ

abbrev State := Slots Entry

structure Event where
  request : Request
  calls : Calls

/-- The entry is looked up only if the handle is below `MAP_SIZE`. -/
def tested (k : Kind) (h : ℕ) : List Entry := if h < mapSize then [(k,h)] else []

/-- The object of a handle that was tested. -/
def found (s : State) (k : Kind) (h : ℕ) : Option ℕ := if h < mapSize then s.slot (k,h) else none

variable (ud : ℕ → Bool)

/-- The entries whose objects a request hands to the driver. `ud` tells the queue
pairs of type UD. -/
def named (s : State) (c : Calls) : Request → List Entry
  | .deallocPd h => [(.pd,h)]
  | .createCq fd => if fd < 0 then [] else [(.channel,fd)]
  | .destroyCq h => [(.cq,h)]
  | .reqNotifyCq h => [(.cq,h)]
  | .createQp pd srq sendCq recvCq => [(.srq,srq),(.cq,sendCq),(.cq,recvCq),(.pd,pd)]
  | .destroyQp h => [(.qp,h)]
  | .regMr h => if c.shmPiece then [(.pd,h)] else []
  | .deregMr h => [(.mr,h)]
  | .modifyQp h => tested .qp h
  | .postSend h _ wrs => tested .qp h++
      if (found s .qp h).any ud then wrs.map fun w => (.ah,(w.ah : ℤ)) else []
  | .postRecv h _ => tested .qp h
  | .pollCq h => tested .cq h
  | .destroyCompChannel fd => [(.channel,fd)]
  | .getCqEvent fd => [(.channel,fd)]
  | .ackCqEvent h => [(.cq,h)]
  | .createAh h => [(.pd,h)]
  | .destroyAh h => [(.ah,h)]
  | .createSrq h => [(.pd,h)]
  | .modifySrq h => [(.srq,h)]
  | .destroySrq h => [(.srq,h)]
  | .postSrqRecv h _ => tested .srq h
  | .destroyEventChannel fd => [(.eventChannel,fd)]
  | _ => []

inductive Effect
  | nothing
  /-- The driver returns an object, kept if its handle is below `MAP_SIZE`. -/
  | create (k : Kind) (created : Option ℕ)
  | take (k : Kind) (i : ℤ)
  | destroyAh (i : ℤ)

def effect (s : State) (c : Calls) : Request → Effect
  | .allocPd => .create .pd c.created
  | .deallocPd h => .take .pd h
  | .createCq fd =>
      if fd < 0 ∨ (s.slot (.channel,fd)).isSome then .create .cq c.created else .nothing
  | .destroyCq h => .take .cq h
  | .createQp pd _ _ _ => if (s.slot (.pd,pd)).isSome then .create .qp c.created else .nothing
  | .destroyQp h => .take .qp h
  | .regMr h =>
      if c.shmPiece ∧ (s.slot (.pd,h)).isSome then .create .mr c.created else .nothing
  | .deregMr h => .take .mr h
  | .createCompChannel => .create .channel c.created
  | .destroyCompChannel fd => .take .channel fd
  | .createAh h => if (s.slot (.pd,h)).isSome then .create .ah c.created else .nothing
  | .destroyAh h => .destroyAh h
  | .createSrq h => if (s.slot (.pd,h)).isSome then .create .srq c.created else .nothing
  | .destroySrq h => .take .srq h
  | .createEventChannel => .create .eventChannel c.created
  | .destroyEventChannel fd => .take .eventChannel fd
  | _ => .nothing

def State.apply (s : State) : Effect → State
  | .nothing => s
  | .create k (some h) => if h < mapSize then s.create (k,h) else s
  | .create _ none => s
  | .take k i => s.take (k,i)
  | .destroyAh i => s.expire (.ah,i)

/-- A new CQ, QP or SRQ has a control segment, stored under its handle. -/
def hasSegment (s : State) (c : Calls) (req : Request) : Bool :=
  match effect s c req with
  | .create .cq _ => true
  | .create .qp _ => true
  | .create .srq _ => true
  | _ => false

/-- A NULL pointer is used: the driver returns none, or an entry has none. -/
def crashes (s : State) (c : Calls) : Request → Bool
  -- a QP that the driver refuses is tested, the PD is not
  | .createQp pd _ _ _ => (s.slot (.pd,pd)).isNone || c.created.isSome && !c.ctrlShm
  | .deregMr h => (s.slot (.mr,h)).isNone
  | .modifyQp h => (found s .qp h).isNone
  | .postSend h _ _ => (found s .qp h).isNone
  | .postRecv h _ => (found s .qp h).isNone
  | .postSrqRecv h _ => (found s .srq h).isNone
  -- the piece, the PD and the MR are tested
  | .regMr _ => false
  | req =>
    match effect s c req with
    | .create _ created => created.isNone || hasSegment s c req && !c.ctrlShm
    | _ => false

def InTable (i : ℤ) : Prop := 0 ≤ i ∧ i < mapSize

instance (i : ℤ) : Decidable (InTable i) := inferInstanceAs (Decidable (_ ∧ _))

/-- Every index is inside its table: those of the entries named, and the one of a
new control segment. -/
def Defined (s : State) (e : Event) : Prop :=
  (∀ x ∈ named ud s e.calls e.request, InTable x.2) ∧
    (hasSegment s e.calls e.request = true → ∀ h ∈ e.calls.created, InTable h)

instance (s : State) (e : Event) : Decidable (Defined ud s e) :=
  inferInstanceAs (Decidable (_ ∧ _))

def step (s : State) (e : Event) : Option State :=
  if Defined ud s e ∧ crashes s e.calls e.request = false then
    some (State.apply s (effect s e.calls e.request))
  else none

/-- The request is defined and hands no destroyed object to the driver. -/
def Sound (s : State) (e : Event) : Prop :=
  Defined ud s e ∧ ∀ x ∈ named ud s e.calls e.request, s.Live x

/-- The request is defined and names no address handle that was destroyed since
the driver returned it. -/
def Proper (s : State) (e : Event) : Prop :=
  Defined ud s e ∧ ∀ i, (.ah,i) ∈ named ud s e.calls e.request → s.Live (.ah,i)

/-- All entries but those of address handles are live. -/
def Inv (s : State) : Prop := ∀ x : Entry, x.1 ≠ .ah → s.Live x

variable {ud}

theorem inv_apply (s : State) (effect : Effect) (hI : Inv s) : Inv (State.apply s effect) := by
  intro x hx
  have hlive := hI x hx
  cases effect with
  | nothing => exact hlive
  | create k created =>
    cases created with
    | none => exact hlive
    | some h =>
      rw [State.apply]
      split
      · exact live_create hlive _
      · exact hlive
  | take k i => exact live_take hlive _
  | destroyAh i =>
    apply live_expire hlive
    rintro rfl
    exact hx rfl

theorem inv_step (s : State) (e : Event) (s' : State) (hI : Inv s)
    (hstep : step ud s e = some s') : Inv s' := by
  rw [step] at hstep
  split at hstep
  · obtain rfl := Option.some.inj hstep
    exact inv_apply s _ hI
  · cases hstep

theorem sound_iff_proper (s : State) (e : Event) (hI : Inv s) : Sound ud s e ↔ Proper ud s e := by
  apply and_congr_right
  intro _
  constructor
  · exact fun h i hi => h (.ah,i) hi
  · rintro h ⟨k,i⟩ hx
    by_cases hk : k = .ah
    · subst hk
      exact h i hx
    · exact hI (k,i) hk

/-- No request of a sequence hands a destroyed object to the driver exactly
when none names a destroyed address handle. -/
theorem objects_live_iff (ud : ℕ → Bool) (events : List Event) :
    Along (step ud) (Sound ud) empty events ↔ Along (step ud) (Proper ud) empty events := by
  refine along_iff (step ud) (Sound ud) (Proper ud) Inv sound_iff_proper
    (fun s e t hI _ => inv_step s e t hI) empty events ?_
  rintro x _ o ⟨⟩

/-- The driver returns the handle, and nothing else goes wrong. -/
def returns (created : Option ℕ) : Calls := ⟨created,true,true,none,[],true,0,true,true,true⟩

theorem ah_destroyed_twice : ∃ s, run (step fun _ => false) empty
    [⟨.allocPd,returns (some 0)⟩,⟨.createAh 0,returns (some 3)⟩,⟨.destroyAh 3,returns none⟩] =
      some s ∧ s.slot (.ah,3) = some 1 ∧ s.destroyed = [1] ∧
      ¬ Sound (fun _ => false) s ⟨.destroyAh 3,returns none⟩ := by
  refine ⟨_,rfl,rfl,rfl,?_⟩
  rintro ⟨_,hlive⟩
  exact hlive (.ah,3) List.mem_cons_self 1 rfl List.mem_cons_self

end FreeFlow.ObjectLifetimes
