import FreeFlow.Runs
import FreeFlow.Wire

/-!
# The ring of a receive completion

Every CQ and every SRQ of a client has a ring, created with the object and
found by its handle. For a receive completion `ibv_cmd_poll_cq` takes the ring
of the SRQ that `map_cq_to_srq` has for the CQ, or the ring of the CQ where
the cell is above `MAP_SIZE`. `ibv_exp_cmd_create_qp` sets the cell for a QP
with an SRQ; for a QP without one, and when objects are destroyed, the cell
stays as it is.

A receive of a QP with an SRQ was posted with `ibv_cmd_post_srq_recv`, any
other with `ibv_cmd_post_recv`. The driver does not destroy a CQ or an SRQ
that a QP uses, and a QP takes its completions with it. The list `attached` is
ghost state.
-/

set_option autoImplicit false

namespace FreeFlow.SrqRouting

open Runs
open Wire (mapSize)

structure Cq where
  handle : ℕ
  ring : ℕ
  deriving DecidableEq

structure Srq where
  handle : ℕ
  ring : ℕ
  deriving DecidableEq

structure Qp where
  handle : ℕ
  recvCq : Cq
  srq : Option Srq
  deriving DecidableEq

/-- The live objects and the tables of the client. Rings are numbered;
`attached` has the handles of CQ and SRQ of every QP ever created with an SRQ,
the newest first. -/
structure State where
  cqs : List Cq
  srqs : List Srq
  qps : List Qp
  mapCqToWrQueue : ℕ → Option ℕ
  mapSrqToWrQueue : ℕ → Option ℕ
  mapCqToSrq : ℕ → ℕ
  rings : ℕ
  attached : List (ℕ × ℕ)

def started : State := ⟨[],[],[],fun _ => none,fun _ => none,fun _ => mapSize+1,0,[]⟩

def ibvCmdCreateCq (s : State) (handle : ℕ) : State :=
  {s with cqs := ⟨handle,s.rings⟩::s.cqs
          mapCqToWrQueue := Function.update s.mapCqToWrQueue handle (some s.rings)
          rings := s.rings+1}

def ibvCmdCreateSrq (s : State) (handle : ℕ) : State :=
  {s with srqs := ⟨handle,s.rings⟩::s.srqs
          mapSrqToWrQueue := Function.update s.mapSrqToWrQueue handle (some s.rings)
          rings := s.rings+1}

def ibvExpCmdCreateQp (s : State) (q : Qp) : State :=
  match q.srq with
  | some r =>
    {s with qps := q::s.qps
            mapCqToSrq := Function.update s.mapCqToSrq q.recvCq.handle r.handle
            attached := (q.recvCq.handle,r.handle)::s.attached}
  | none => {s with qps := q::s.qps}

/-- The ring that `ibv_cmd_poll_cq` pops for a receive completion. -/
def polledRing (s : State) (c : Cq) : Option ℕ :=
  if mapSize < s.mapCqToSrq c.handle then s.mapCqToWrQueue c.handle
  else s.mapSrqToWrQueue (s.mapCqToSrq c.handle)

/-- The ring the receive was pushed to. -/
def Qp.ring (q : Qp) : ℕ :=
  match q.srq with
  | some r => r.ring
  | none => q.recvCq.ring

inductive Event
  | createCq (handle : ℕ)
  | createSrq (handle : ℕ)
  | createQp (q : Qp)
  | destroyCq (c : Cq)
  | destroySrq (r : Srq)
  | destroyQp (q : Qp)
  | completion (q : Qp)

/-- The router issues handles that no live object of the kind has. -/
def step (s : State) : Event → Option State
  | .createCq h => if ∀ c ∈ s.cqs, c.handle ≠ h then some (ibvCmdCreateCq s h) else none
  | .createSrq h => if ∀ r ∈ s.srqs, r.handle ≠ h then some (ibvCmdCreateSrq s h) else none
  | .createQp q =>
    if (∀ q' ∈ s.qps, q'.handle ≠ q.handle) ∧ q.recvCq ∈ s.cqs ∧ ∀ r ∈ q.srq, r ∈ s.srqs then
      some (ibvExpCmdCreateQp s q) else none
  | .destroyCq c =>
    some (if ∃ q ∈ s.qps, q.recvCq = c then s else {s with cqs := s.cqs.erase c})
  | .destroySrq r =>
    some (if ∃ q ∈ s.qps, q.srq = some r then s else {s with srqs := s.srqs.erase r})
  | .destroyQp q => some {s with qps := s.qps.erase q}
  | .completion q => if q ∈ s.qps then some s else none

/-- Handles stay in the tables, and a completion pops the ring its receive was
pushed to. -/
def Routed (s : State) : Event → Prop
  | .createCq h => h < mapSize
  | .createSrq h => h < mapSize
  | .completion q => q ∈ s.qps → polledRing s q.recvCq = some q.ring
  | _ => True

/-- The SRQ of the last QP with an SRQ created on a CQ handle. -/
def lastSrq (attached : List (ℕ × ℕ)) (h : ℕ) : Option ℕ :=
  (attached.find? fun p => p.1 = h).map Prod.snd

/-- Handles stay in the tables. When a receive of a QP completes, the last QP
with an SRQ ever created on the handle of its CQ had an SRQ of the same
handle; for a QP without an SRQ there was no such QP. -/
def Named (s : State) : Event → Prop
  | .createCq h => h < mapSize
  | .createSrq h => h < mapSize
  | .completion q => q ∈ s.qps → lastSrq s.attached q.recvCq.handle = q.srq.map Srq.handle
  | _ => True

structure Inv (s : State) : Prop where
  cell : ∀ h, s.mapCqToSrq h = (lastSrq s.attached h).getD (mapSize+1)
  bound : ∀ p ∈ s.attached, p.2 < mapSize
  cqs : ∀ c ∈ s.cqs, s.mapCqToWrQueue c.handle = some c.ring
  srqs : ∀ r ∈ s.srqs, r.handle < mapSize ∧ s.mapSrqToWrQueue r.handle = some r.ring
  qps : ∀ q ∈ s.qps, q.recvCq ∈ s.cqs ∧ ∀ r ∈ q.srq, r ∈ s.srqs
  cqRings : ∀ h x, s.mapCqToWrQueue h = some x → x < s.rings
  srqRings : ∀ h x, s.mapSrqToWrQueue h = some x → x < s.rings
  apart : ∀ h h' x, s.mapCqToWrQueue h = some x → s.mapSrqToWrQueue h' ≠ some x
  distinct : ∀ h h' x, s.mapSrqToWrQueue h = some x → s.mapSrqToWrQueue h' = some x → h = h'

theorem inv_started : Inv started := by
  constructor <;> simp [started,lastSrq]

theorem lastSrq_lt (s : State) (hI : Inv s) (h r : ℕ) (hr : lastSrq s.attached h = some r) :
    r < mapSize := by
  obtain ⟨p,hp,rfl⟩ := Option.map_eq_some_iff.mp hr
  exact hI.bound p (List.mem_of_find?_eq_some hp)

theorem polledRing_none (s : State) (hI : Inv s) (c : Cq)
    (hlast : lastSrq s.attached c.handle = none) :
    polledRing s c = s.mapCqToWrQueue c.handle := by
  have hcell : s.mapCqToSrq c.handle = mapSize+1 := by rw [hI.cell,hlast,Option.getD_none]
  exact if_pos (by omega)

theorem polledRing_some (s : State) (hI : Inv s) (c : Cq) (r : ℕ)
    (hlast : lastSrq s.attached c.handle = some r) :
    polledRing s c = s.mapSrqToWrQueue r := by
  have hlt := lastSrq_lt s hI c.handle r hlast
  have hcell : s.mapCqToSrq c.handle = r := by rw [hI.cell,hlast,Option.getD_some]
  rw [polledRing,hcell,if_neg (by omega)]

/-- The ring is the right one exactly when the cell names the SRQ of the QP. -/
theorem polledRing_iff (s : State) (hI : Inv s) (q : Qp) (hq : q ∈ s.qps) :
    polledRing s q.recvCq = some q.ring ↔
      lastSrq s.attached q.recvCq.handle = q.srq.map Srq.handle := by
  obtain ⟨hcq,hsrq⟩ := hI.qps q hq
  have hring := hI.cqs _ hcq
  cases hlast : lastSrq s.attached q.recvCq.handle with
  | none =>
    rw [polledRing_none s hI _ hlast,hring]
    cases hr : q.srq with
    | none => simp [Qp.ring,hr]
    | some r =>
      obtain ⟨-,hmap⟩ := hI.srqs r (hsrq r hr)
      have hne : q.recvCq.ring ≠ r.ring := fun heq => hI.apart _ _ _ hring (heq ▸ hmap)
      simp [Qp.ring,hr,hne]
  | some r' =>
    rw [polledRing_some s hI _ r' hlast]
    cases hr : q.srq with
    | none => simp [Qp.ring,hr,hI.apart _ r' _ hring]
    | some r =>
      obtain ⟨-,hmap⟩ := hI.srqs r (hsrq r hr)
      rw [Option.map_some,Option.some.injEq,Qp.ring,hr]
      constructor
      · intro h
        exact hI.distinct _ _ _ h hmap
      · rintro rfl
        exact hmap

theorem routed_iff_named (s : State) (e : Event) (hI : Inv s) :
    Routed s e ↔ Named s e := by
  cases e with
  | completion q => exact imp_congr_right (polledRing_iff s hI q)
  | _ => exact Iff.rfl

/-- What a table of rings holds when a new ring has been entered. -/
theorem update_ring (table : ℕ → Option ℕ) (h n h' x : ℕ)
    (hx : Function.update table h (some n) h' = some x) : (h' = h ∧ x = n) ∨ table h' = some x := by
  by_cases heq : h' = h
  · rw [heq,Function.update_self,Option.some.injEq] at hx
    exact Or.inl ⟨heq,hx.symm⟩
  · rw [Function.update_of_ne heq] at hx
    exact Or.inr hx

theorem inv_createCq (s : State) (hI : Inv s) (h : ℕ) (hfree : ∀ c ∈ s.cqs, c.handle ≠ h) :
    Inv (ibvCmdCreateCq s h) where
  cell := hI.cell
  bound := hI.bound
  cqs := by
    intro c hc
    rcases List.mem_cons.mp hc with rfl | hc
    · exact Function.update_self ..
    · exact (Function.update_of_ne (hfree c hc) _ _).trans (hI.cqs c hc)
  srqs := hI.srqs
  qps q hq := ⟨List.mem_cons_of_mem _ (hI.qps q hq).1,(hI.qps q hq).2⟩
  cqRings := by
    intro h' x hx
    rcases update_ring _ _ _ _ _ hx with ⟨-,rfl⟩ | hold
    · exact Nat.lt_succ_self _
    · exact Nat.lt_succ_of_lt (hI.cqRings h' x hold)
  srqRings h' x hx := Nat.lt_succ_of_lt (hI.srqRings h' x hx)
  apart := by
    intro h₁ h₂ x hx hsrq
    rcases update_ring _ _ _ _ _ hx with ⟨-,rfl⟩ | hold
    · exact Nat.lt_irrefl _ (hI.srqRings h₂ _ hsrq)
    · exact hI.apart h₁ h₂ x hold hsrq
  distinct := hI.distinct

theorem inv_createSrq (s : State) (hI : Inv s) (h : ℕ) (hfree : ∀ r ∈ s.srqs, r.handle ≠ h)
    (hlt : h < mapSize) : Inv (ibvCmdCreateSrq s h) where
  cell := hI.cell
  bound := hI.bound
  cqs := hI.cqs
  srqs := by
    intro r hr
    rcases List.mem_cons.mp hr with rfl | hr
    · exact ⟨hlt,Function.update_self ..⟩
    · exact ⟨(hI.srqs r hr).1,
        (Function.update_of_ne (hfree r hr) _ _).trans (hI.srqs r hr).2⟩
  qps q hq := ⟨(hI.qps q hq).1,fun r hr => List.mem_cons_of_mem _ ((hI.qps q hq).2 r hr)⟩
  cqRings h' x hx := Nat.lt_succ_of_lt (hI.cqRings h' x hx)
  srqRings := by
    intro h' x hx
    rcases update_ring _ _ _ _ _ hx with ⟨-,rfl⟩ | hold
    · exact Nat.lt_succ_self _
    · exact Nat.lt_succ_of_lt (hI.srqRings h' x hold)
  apart := by
    intro h₁ h₂ x hcq hx
    rcases update_ring _ _ _ _ _ hx with ⟨-,rfl⟩ | hold
    · exact Nat.lt_irrefl _ (hI.cqRings h₁ _ hcq)
    · exact hI.apart h₁ h₂ x hcq hold
  distinct := by
    intro h₁ h₂ x hx hx'
    rcases update_ring _ _ _ _ _ hx with ⟨rfl,rfl⟩ | hold
    · rcases update_ring _ _ _ _ _ hx' with ⟨rfl,-⟩ | hold'
      · rfl
      · exact absurd (hI.srqRings h₂ _ hold') (Nat.lt_irrefl _)
    · rcases update_ring _ _ _ _ _ hx' with ⟨rfl,rfl⟩ | hold'
      · exact absurd (hI.srqRings h₁ _ hold) (Nat.lt_irrefl _)
      · exact hI.distinct h₁ h₂ x hold hold'

theorem lastSrq_cons (attached : List (ℕ × ℕ)) (c r h : ℕ) :
    lastSrq ((c,r)::attached) h = if c = h then some r else lastSrq attached h := by
  by_cases heq : c = h
  · simp [lastSrq,heq]
  · simp [lastSrq,heq]

theorem inv_createQp (s : State) (hI : Inv s) (q : Qp) (hcq : q.recvCq ∈ s.cqs)
    (hsrq : ∀ r ∈ q.srq, r ∈ s.srqs) : Inv (ibvExpCmdCreateQp s q) := by
  have hqps : ∀ q' ∈ q::s.qps, q'.recvCq ∈ s.cqs ∧ ∀ r ∈ q'.srq, r ∈ s.srqs :=
    List.forall_mem_cons.mpr ⟨⟨hcq,hsrq⟩,hI.qps⟩
  unfold ibvExpCmdCreateQp
  split
  · next r hr =>
    have hlt := (hI.srqs r (hsrq r hr)).1
    refine {hI with
      cell := fun h => ?_
      bound := List.forall_mem_cons.mpr ⟨hlt,hI.bound⟩
      qps := hqps}
    show Function.update s.mapCqToSrq q.recvCq.handle r.handle h = _
    rw [lastSrq_cons]
    by_cases heq : q.recvCq.handle = h
    · rw [if_pos heq,← heq,Function.update_self,Option.getD_some]
    · rw [if_neg heq,Function.update_of_ne (Ne.symm heq)]
      exact hI.cell h
  · exact {hI with qps := hqps}

theorem inv_destroyCq (s : State) (hI : Inv s) (c : Cq) (hunused : ¬∃ q ∈ s.qps, q.recvCq = c) :
    Inv {s with cqs := s.cqs.erase c} :=
  {hI with
    cqs := fun c' hc' => hI.cqs c' (List.mem_of_mem_erase hc')
    qps := fun q hq => ⟨(List.mem_erase_of_ne fun heq => hunused ⟨q,hq,heq⟩).mpr (hI.qps q hq).1,
      (hI.qps q hq).2⟩}

theorem inv_destroySrq (s : State) (hI : Inv s) (r : Srq)
    (hunused : ¬∃ q ∈ s.qps, q.srq = some r) : Inv {s with srqs := s.srqs.erase r} :=
  {hI with
    srqs := fun r' hr' => hI.srqs r' (List.mem_of_mem_erase hr')
    qps := fun q hq => ⟨(hI.qps q hq).1,fun r' hr' =>
      (List.mem_erase_of_ne fun heq : r' = r => hunused ⟨q,hq,heq ▸ hr'⟩).mpr
        ((hI.qps q hq).2 r' hr')⟩}

theorem inv_step (s : State) (e : Event) (t : State) (hI : Inv s)
    (hrouted : Routed s e) (ht : step s e = some t) : Inv t := by
  cases e with
  | createCq h =>
    simp only [step,Option.ite_none_right_eq_some,Option.some.injEq] at ht
    obtain ⟨hfree,rfl⟩ := ht
    exact inv_createCq s hI h hfree
  | createSrq h =>
    simp only [step,Option.ite_none_right_eq_some,Option.some.injEq] at ht
    obtain ⟨hfree,rfl⟩ := ht
    exact inv_createSrq s hI h hfree hrouted
  | createQp q =>
    simp only [step,Option.ite_none_right_eq_some,Option.some.injEq] at ht
    obtain ⟨⟨-,hcq,hsrq⟩,rfl⟩ := ht
    exact inv_createQp s hI q hcq hsrq
  | destroyCq c =>
    obtain rfl := Option.some.inj ht
    split
    · exact hI
    · next hunused => exact inv_destroyCq s hI c hunused
  | destroySrq r =>
    obtain rfl := Option.some.inj ht
    split
    · exact hI
    · next hunused => exact inv_destroySrq s hI r hunused
  | destroyQp q =>
    obtain rfl := Option.some.inj ht
    exact {hI with qps := fun q' hq' => hI.qps q' (List.mem_of_mem_erase hq')}
  | completion q =>
    simp only [step,Option.ite_none_right_eq_some,Option.some.injEq] at ht
    obtain ⟨-,rfl⟩ := ht
    exact hI

/-- In every sequence of creations and destructions of CQs, SRQs and QPs with
receive completions in between, every completion pops the ring its receive was
pushed to exactly when, at every completion, the last QP with an SRQ created
on the handle of the CQ had the SRQ of the completing QP. -/
theorem completions_routed_iff (events : List Event) :
    Along step Routed started events ↔ Along step Named started events :=
  along_iff step Routed Named Inv routed_iff_named inv_step started events inv_started

def demoCq : Cq := ⟨3,0⟩

def demoSrq : Srq := ⟨4,1⟩

/-- A QP with an SRQ and then a QP without one on the same CQ: the receive of
the second pops the ring of the SRQ. -/
theorem shared_cq_misrouted :
    ¬Along step Routed started [.createCq 3,.createSrq 4,.createQp ⟨1,demoCq,some demoSrq⟩,
      .createQp ⟨2,demoCq,none⟩,.completion ⟨2,demoCq,none⟩] ∧
    ∃ s, run step started [.createCq 3,.createSrq 4,.createQp ⟨1,demoCq,some demoSrq⟩,
      .createQp ⟨2,demoCq,none⟩] = some s ∧ polledRing s demoCq = some demoSrq.ring ∧
      (⟨2,demoCq,none⟩ : Qp).ring = demoCq.ring := by
  refine ⟨fun h => ?_,_,rfl,rfl,rfl⟩
  have hrouted := ((((h.2 _ rfl).2 _ rfl).2 _ rfl).2 _ rfl).1
  exact absurd (hrouted List.mem_cons_self) (by decide)

end FreeFlow.SrqRouting
