import FreeFlow.PollPaths
import FreeFlow.Runs
import Mathlib.Logic.Function.Iterate

/-!
# One pass of the control loop over the completion queues

The pass runs an index `i` over `cq_shm_vec`. For a slot with a request it
polls the CQ and then logs the completions in a loop over the same variable
`i`, which leaves it at the number of completions. The pass goes on behind
that number: it can skip slots, and it can come back to slots it has seen.

The log of the polls is kept with the state. No client changes a slot during
the pass. A poll returns at most `ne` completions.
-/

set_option autoImplicit false

namespace FreeFlow.CqPass

open Mailbox (Flag)
open Runs Wire
open ControlLoop (load)
open PollPaths (loopRspSize)

/-- What the pass reads and writes of a slot. -/
structure Csp where
  state : Flag
  cqHandle : ℕ
  ne : ℤ
  rspSize : ℤ
  deriving DecidableEq

variable {C : Type*}

/-- The pass between two rounds; `cq` is carried from round to round, and
`polls` lists the slot and the CQ of each poll, the last one first. -/
structure State (C : Type*) where
  i : ℕ
  slots : ℕ → Option Csp
  cq : Option C
  polls : List (ℕ × C)

inductive Event
  | next
  | poll (count : ℕ)

/-- The request in the slot of a handle. -/
def request (slots : ℕ → Option Csp) (h : ℕ) : Option Csp :=
  (slots h).bind fun c => if c.state = .requested then some c else none

/-- The slot after its request has been polled with `count` completions. -/
def Csp.answer (c : Csp) (count : ℕ) : Csp :=
  {c with state := .answered, rspSize := loopRspSize count}

section Pass

variable (cqMap : ℕ → Option C) (vec : List ℕ)

/-- The request of a round. -/
def looking (s : State C) : Option (ℕ × Csp) :=
  (vec[s.i]?).bind fun h => (request s.slots h).map fun c => (h,c)

/-- A round that polls takes the number of completions, one that does not
moves on to the next index. -/
def step (s : State C) : Event → Option (State C)
  | .next =>
    if s.i < vec.length then
      match looking vec s with
      | none => some {s with i := s.i+1}
      | some (_,c) =>
        match load cqMap s.cq c.cqHandle with
        | none => some {s with i := s.i+1, cq := none}
        | some _ => none
    else none
  | .poll count =>
    match looking vec s with
    | none => none
    | some (h,c) =>
      match load cqMap s.cq c.cqHandle with
      | none => none
      | some cq =>
        if (count : ℤ) ≤ max c.ne 0 then
          some ⟨count+1,Function.update s.slots h (some (c.answer count)),some cq,(h,cq)::s.polls⟩
        else none

def started (slots : ℕ → Option Csp) (cq : Option C) : State C := ⟨0,slots,cq,[]⟩

/-- Every request is for a CQ in the table. -/
def Valid (slots : ℕ → Option Csp) : Prop :=
  ∀ h ∈ vec, ∀ c, request slots h = some c → c.cqHandle < mapSize ∧ cqMap c.cqHandle ≠ none

def Pending (slots : ℕ → Option Csp) (h : ℕ) : Prop := request slots h ≠ none

instance (slots : ℕ → Option Csp) (h : ℕ) : Decidable (Pending slots h) :=
  inferInstanceAs (Decidable (_ ≠ _))

def Answered (slots : ℕ → Option Csp) (h : ℕ) : Prop :=
  ∃ c, slots h = some c ∧ c.state = .answered

/-- A poll leaves no other request, or one behind the number of completions. -/
def Reaches (s : State C) : Event → Prop
  | .next => True
  | .poll count =>
    (∀ h ∈ vec, vec[s.i]? ≠ some h → ¬Pending s.slots h) ∨
      ∃ (j h : ℕ), count < j ∧ vec[j]? = some h ∧ vec[s.i]? ≠ some h ∧ Pending s.slots h

/-- No request is left, or one at the index or behind it. -/
def Ahead (s : State C) : Prop :=
  (∀ h ∈ vec, ¬Pending s.slots h) ∨
    ∃ (j h : ℕ), s.i ≤ j ∧ vec[j]? = some h ∧ Pending s.slots h

variable {cqMap vec}

theorem request_update (slots : ℕ → Option Csp) (h h' : ℕ) (c : Csp) (count : ℕ) :
    request (Function.update slots h (some (c.answer count))) h' =
      if h' = h then none else request slots h' := by
  by_cases hh : h' = h
  · simp [request,hh,Csp.answer]
  · simp [request,hh]

theorem looking_eq_some (s : State C) (h : ℕ) (c : Csp) :
    looking vec s = some (h,c) ↔ vec[s.i]? = some h ∧ request s.slots h = some c := by
  simp only [looking,Option.bind_eq_some_iff,Option.map_eq_some_iff,Prod.mk.injEq]
  constructor
  · rintro ⟨h',hh,c',hc,rfl,rfl⟩
    exact ⟨hh,hc⟩
  · rintro ⟨hh,hc⟩
    exact ⟨h,hh,c,hc,rfl,rfl⟩

/-- A round without a poll moves the index. -/
theorem step_next (s t : State C) (ht : step cqMap vec s .next = some t) :
    s.i < vec.length ∧ t.i = s.i+1 ∧ t.slots = s.slots ∧ t.polls = s.polls ∧
      ∀ h c, looking vec s = some (h,c) → load cqMap s.cq c.cqHandle = none := by
  simp only [step] at ht
  split at ht
  · next hlt =>
    split at ht
    · next hnone =>
      obtain rfl := Option.some.inj ht
      exact ⟨hlt,rfl,rfl,rfl,fun h c hc => absurd (hnone.symm.trans hc) (by simp)⟩
    · next h c hlook =>
      split at ht
      · next hload =>
        obtain rfl := Option.some.inj ht
        refine ⟨hlt,rfl,rfl,rfl,fun h' c' hc => ?_⟩
        obtain ⟨rfl,rfl⟩ := Prod.mk.inj (Option.some.inj (hlook.symm.trans hc))
        exact hload
      · exact absurd ht (by simp)
  · exact absurd ht (by simp)

/-- A round with a poll answers the request at the index. -/
theorem step_poll (s t : State C) (count : ℕ) (ht : step cqMap vec s (.poll count) = some t) :
    ∃ h c cq, vec[s.i]? = some h ∧ request s.slots h = some c ∧
      load cqMap s.cq c.cqHandle = some cq ∧
      t = ⟨count+1,Function.update s.slots h (some (c.answer count)),some cq,(h,cq)::s.polls⟩ := by
  simp only [step] at ht
  split at ht
  · exact absurd ht (by simp)
  · next h c hlook =>
    obtain ⟨hh,hc⟩ := (looking_eq_some s h c).mp hlook
    split at ht
    · exact absurd ht (by simp)
    · next cq hload =>
      split at ht
      · exact ⟨h,c,cq,hh,hc,hload,(Option.some.inj ht).symm⟩
      · exact absurd ht (by simp)

theorem valid_step (s t : State C) (e : Event) (hs : Valid cqMap vec s.slots)
    (ht : step cqMap vec s e = some t) : Valid cqMap vec t.slots := by
  cases e with
  | next =>
    obtain ⟨-,-,hslots,-⟩ := step_next s t ht
    rwa [hslots]
  | poll count =>
    obtain ⟨h,c,cq,-,-,-,rfl⟩ := step_poll s t count ht
    intro h' hmem c' hc'
    rw [request_update] at hc'
    split at hc'
    · exact absurd hc' (by simp)
    · exact hs h' hmem c' hc'

/-- With valid handles a round moves on only where there is no request. -/
theorem ahead_next (s t : State C) (hs : Valid cqMap vec s.slots) (ha : Ahead vec s)
    (ht : step cqMap vec s .next = some t) : Ahead vec t := by
  obtain ⟨-,hi,hslots,-,hnone⟩ := step_next s t ht
  rw [Ahead,hslots,hi]
  refine ha.imp id ?_
  rintro ⟨j,h,hj,hh,hp⟩
  refine ⟨j,h,?_,hh,hp⟩
  by_contra hlt
  obtain rfl : j = s.i := by omega
  obtain ⟨c,hc⟩ := Option.ne_none_iff_exists'.mp hp
  obtain ⟨hbound,hentry⟩ := hs h (List.mem_of_getElem? hh) c hc
  have hload := hnone h c ((looking_eq_some s h c).mpr ⟨hh,hc⟩)
  rw [load,if_pos hbound] at hload
  exact hentry hload

/-- After a poll there is a request ahead exactly when the poll reaches one. -/
theorem ahead_poll (s t : State C) (count : ℕ) (ht : step cqMap vec s (.poll count) = some t) :
    Ahead vec t ↔ Reaches vec s (.poll count) := by
  obtain ⟨h,c,cq,hh,-,-,rfl⟩ := step_poll s t count ht
  have hpend : ∀ h', Pending (Function.update s.slots h (some (c.answer count))) h' ↔
      vec[s.i]? ≠ some h' ∧ Pending s.slots h' := by
    intro h'
    rw [Pending,request_update,hh]
    by_cases heq : h' = h
    · simp [heq]
    · simp [heq,Ne.symm heq,Pending]
  simp only [Ahead,Reaches,hpend,not_and,Nat.succ_le_iff]

/-- A slot is as it was and has not been polled, or its request has been
polled once and answered. -/
def Tracked (slots : ℕ → Option Csp) (s : State C) (h : ℕ) : Prop :=
  (s.slots h = slots h ∧ (s.polls.map Prod.fst).count h = 0) ∨
    (Pending slots h ∧ Answered s.slots h ∧ (s.polls.map Prod.fst).count h = 1)

theorem not_pending_of_answered (slots : ℕ → Option Csp) (h : ℕ) (ha : Answered slots h) :
    ¬Pending slots h := by
  obtain ⟨c,hc,hstate⟩ := ha
  simp [Pending,request,hc,hstate]

theorem tracked_step (slots : ℕ → Option Csp) (s t : State C) (e : Event)
    (hs : ∀ h, Tracked slots s h) (ht : step cqMap vec s e = some t) (h : ℕ) :
    Tracked slots t h := by
  cases e with
  | next =>
    obtain ⟨-,-,hslots,hpolls,-⟩ := step_next s t ht
    rw [Tracked,hslots,hpolls]
    exact hs h
  | poll count =>
    obtain ⟨h',c,cq,-,hc,-,rfl⟩ := step_poll s t count ht
    by_cases hh : h' = h
    · subst hh
      have hpend : Pending s.slots h' := by simp [Pending,hc]
      rcases hs h' with ⟨hsame,hzero⟩ | ⟨-,hans,-⟩
      · refine .inr ⟨?_,⟨_,Function.update_self _ _ _,rfl⟩,?_⟩
        · rwa [Pending,request,hsame] at hpend
        · rw [List.map_cons,List.count_cons_self,hzero]
      · exact absurd hpend (not_pending_of_answered _ _ hans)
    · have hkept : Function.update s.slots h' (some (c.answer count)) h = s.slots h :=
        Function.update_of_ne (Ne.symm hh) _ _
      simp only [Tracked,Answered,List.map_cons,List.count_cons_of_ne hh,hkept]
      exact hs h

/-- At the end of a pass, every request of the start is answered and polled
once exactly when none is left. -/
theorem served_iff (slots : ℕ → Option Csp) (t : State C) (ht : ∀ h, Tracked slots t h) (h : ℕ) :
    (Pending slots h → Answered t.slots h ∧ (t.polls.map Prod.fst).count h = 1) ↔
      ¬Pending t.slots h := by
  rcases ht h with ⟨hsame,-⟩ | ⟨hpend,hans,hone⟩
  · have hpending : Pending t.slots h ↔ Pending slots h := by
      rw [Pending,Pending,request,request,hsame]
    rw [hpending]
    refine ⟨fun hall hp => ?_,fun hnot hp => absurd hp hnot⟩
    exact not_pending_of_answered _ _ (hall hp).1 (hpending.mpr hp)
  · exact iff_of_true (fun _ => ⟨hans,hone⟩) (not_pending_of_answered _ _ hans)

/-- For every vector, all slots and requests with valid handles and all
results of the polls, a pass that has come to its end has answered every
request, each with one poll, exactly when each of its polls left no other
request or one behind the number of its completions. -/
theorem pass_serves_iff (cqMap : ℕ → Option C) (vec : List ℕ) (slots : ℕ → Option Csp)
    (cq : Option C) (hvalid : Valid cqMap vec slots) (events : List Event) (t : State C)
    (hrun : run (step cqMap vec) (started slots cq) events = some t) (hend : vec.length ≤ t.i) :
    (∀ h ∈ vec, Pending slots h → Answered t.slots h ∧ (t.polls.map Prod.fst).count h = 1) ↔
      Along (step cqMap vec) (Reaches vec) (started slots cq) events := by
  have htracked : ∀ h, Tracked slots t h :=
    run_preserves (step cqMap vec) (fun s => ∀ h, Tracked slots s h)
      (fun s e u hs hu => tracked_step slots s u e hs hu) (started slots cq) events t
      (fun h => .inl ⟨rfl,rfl⟩) hrun
  have hahead : Ahead vec t ↔ ∀ h ∈ vec, ¬Pending t.slots h := by
    refine or_iff_left ?_
    rintro ⟨j,h,hj,hh,-⟩
    obtain ⟨hlt,-⟩ := List.getElem?_eq_some_iff.mp hh
    omega
  have hstart : Ahead vec (started slots cq) := by
    by_cases hp : ∃ h ∈ vec, Pending slots h
    · obtain ⟨h,hmem,hpend⟩ := hp
      obtain ⟨j,hj⟩ := List.getElem?_of_mem hmem
      exact .inr ⟨j,h,Nat.zero_le j,hj,hpend⟩
    · exact .inl fun h hmem hpend => hp ⟨h,hmem,hpend⟩
  have hrule := run_iff_along_of_inv (step cqMap vec) (fun _ _ => True) (Reaches vec)
    (fun s => Valid cqMap vec s.slots ∧ Ahead vec s) (Ahead vec) ?_ ?_ ?_ (fun s hs => hs.2)
    (started slots cq) events t ⟨hvalid,hstart⟩ (along_trivial _ _ _) hrun
  · rw [← hrule,hahead]
    exact forall_congr' fun h => forall_congr' fun _ => served_iff slots t htracked h
  · intro s e u hs _ hreach hu
    refine ⟨valid_step s u e hs.1 hu,?_⟩
    cases e with
    | next => exact ahead_next s u hs.1 hs.2 hu
    | poll count => exact (ahead_poll s u count hu).mpr hreach
  · intro s e u hs _ hreach hu
    cases e with
    | next => exact absurd trivial hreach
    | poll count => exact fun ha => hreach ((ahead_poll s u count hu).mp ha)
  · -- a request ahead of the index was ahead of the smaller index too
    intro s e u hu ha
    cases e with
    | next =>
      obtain ⟨-,hi,hslots,-⟩ := step_next s u hu
      rw [Ahead,hslots,hi] at ha
      refine ha.imp id ?_
      rintro ⟨j,h,hj,hrest⟩
      exact ⟨j,h,by omega,hrest⟩
    | poll count =>
      obtain ⟨h,c,-,hh,hc,-⟩ := step_poll s u count hu
      exact .inr ⟨s.i,h,le_refl _,hh,by simp [Pending,hc]⟩

/-- Rounds left at most: a round without a poll moves the index on, and one
with a poll takes a request away. -/
def fuel (vec : List ℕ) (s : State C) : ℕ :=
  (vec.toFinset.filter fun h => (request s.slots h).isSome).card*(vec.length+1)+(vec.length-s.i)

theorem fuel_next (s t : State C) (ht : step cqMap vec s .next = some t) : fuel vec t < fuel vec s := by
  obtain ⟨hlt,hi,hslots,-⟩ := step_next s t ht
  simp only [fuel,hslots,hi]
  omega

/-- Answering the request at the index takes it away, wherever the index goes. -/
theorem fuel_answer (s t : State C) (h : ℕ) (c : Csp) (count : ℕ) (hh : vec[s.i]? = some h)
    (hc : request s.slots h = some c)
    (ht : t.slots = Function.update s.slots h (some (c.answer count))) : fuel vec t < fuel vec s := by
  have hcard : (vec.toFinset.filter fun h' => (request t.slots h').isSome).card <
      (vec.toFinset.filter fun h' => (request s.slots h').isSome).card := by
    rw [ht]
    apply Finset.card_lt_card
    rw [Finset.ssubset_iff_of_subset]
    · refine ⟨h,?_,?_⟩
      · simp [List.mem_of_getElem? hh,hc]
      · simp [request_update]
    · intro h' hmem
      rw [Finset.mem_filter,request_update] at hmem
      refine Finset.mem_filter.mpr ⟨hmem.1,?_⟩
      by_cases heq : h' = h
      · simp [heq] at hmem
      · rw [if_neg heq] at hmem
        exact hmem.2
  have hmul := Nat.mul_le_mul_right (vec.length+1) hcard
  simp only [fuel]
  rw [Nat.succ_mul] at hmul
  omega

theorem fuel_poll (s t : State C) (count : ℕ) (ht : step cqMap vec s (.poll count) = some t) :
    fuel vec t < fuel vec s := by
  obtain ⟨h,c,cq,hh,hc,-,rfl⟩ := step_poll s t count ht
  exact fuel_answer s _ h c count hh hc rfl

/-- Before the end there is a next round: one that moves on, or a poll with
any number of completions the driver may return. -/
theorem step_total (s : State C) (hlt : s.i < vec.length) :
    (∃ t, step cqMap vec s .next = some t) ∨
      ∃ h c, looking vec s = some (h,c) ∧
        ∀ count : ℕ, (count : ℤ) ≤ max c.ne 0 → ∃ t, step cqMap vec s (.poll count) = some t := by
  cases hlook : looking vec s with
  | none => exact .inl ⟨{s with i := s.i+1},by simp [step,hlook,hlt]⟩
  | some found =>
    obtain ⟨h,c⟩ := found
    cases hload : load cqMap s.cq c.cqHandle with
    | none => exact .inl ⟨{s with i := s.i+1, cq := none},by simp [step,hlook,hload,hlt]⟩
    | some cq =>
      refine .inr ⟨h,c,rfl,fun count hcount => ?_⟩
      simp only [step,hlook,hload,if_pos hcount]
      exact ⟨_,rfl⟩

/-- Every pass comes to its end, whatever the polls return. -/
theorem pass_ends (cqMap : ℕ → Option C) (vec : List ℕ) (driver : State C → Csp → ℕ)
    (hdriver : ∀ s c, (driver s c : ℤ) ≤ max c.ne 0) (s : State C) :
    ∃ events t, run (step cqMap vec) s events = some t ∧ vec.length ≤ t.i ∧
      Along (step cqMap vec) (fun s e => ∀ count, e = .poll count →
        ∃ h c, looking vec s = some (h,c) ∧ count = driver s c) s events := by
  induction hn : fuel vec s using Nat.strong_induction_on generalizing s with
  | _ n ih =>
    by_cases hend : vec.length ≤ s.i
    · exact ⟨[],s,rfl,hend,trivial⟩
    · have hround : ∃ e u, step cqMap vec s e = some u ∧ fuel vec u < n ∧
          ∀ count, e = .poll count → ∃ h c, looking vec s = some (h,c) ∧ count = driver s c := by
        rcases @step_total C cqMap vec s (Nat.lt_of_not_le hend) with
          ⟨u,hu⟩ | ⟨h,c,hlook,hpoll⟩
        · exact ⟨.next,u,hu,hn ▸ fuel_next s u hu,nofun⟩
        · obtain ⟨u,hu⟩ := hpoll (driver s c) (hdriver s c)
          refine ⟨.poll (driver s c),u,hu,hn ▸ fuel_poll s u _ hu,fun count heq => ?_⟩
          exact ⟨h,c,hlook,(Event.poll.inj heq).symm⟩
      obtain ⟨e,u,hu,hless,hcount⟩ := hround
      obtain ⟨events,t,hrun,hlast,halong⟩ := ih _ hless u rfl
      exact ⟨e::events,t,(run_cons _ _ _ _ _).mpr ⟨u,hu,hrun⟩,hlast,
        along_cons _ _ s e events u hu hcount halong⟩

/-- One iteration of the loop. The `k`-th poll of the pass returns `results k`, and
nothing is asked of it: not even that it is at most `ne`. -/
def round (cqMap : ℕ → Option C) (vec : List ℕ) (results : ℕ → ℕ) (s : State C) : State C :=
  if s.i < vec.length then
    match looking vec s with
    | none => {s with i := s.i+1}
    | some (h,c) =>
      match load cqMap s.cq c.cqHandle with
      | none => {s with i := s.i+1, cq := none}
      | some cq =>
        let count := results s.polls.length
        ⟨count+1,Function.update s.slots h (some (c.answer count)),some cq,(h,cq)::s.polls⟩
  else s

/-- Where the driver keeps to `ne`, an iteration is a step of the pass. -/
theorem step_round (results : ℕ → ℕ) (s : State C) (hlt : s.i < vec.length)
    (hne : ∀ h c, looking vec s = some (h,c) → (results s.polls.length : ℤ) ≤ max c.ne 0) :
    ∃ e, step cqMap vec s e = some (round cqMap vec results s) := by
  rw [round,if_pos hlt]
  cases hlook : looking vec s with
  | none => exact ⟨.next,by simp [step,hlook,hlt]⟩
  | some found =>
    obtain ⟨h,c⟩ := found
    cases hload : load cqMap s.cq c.cqHandle with
    | none => exact ⟨.next,by simp [step,hlook,hload,hlt]⟩
    | some cq => exact ⟨.poll (results s.polls.length),by simp [step,hlook,hload,hne h c hlook]⟩

theorem fuel_round (results : ℕ → ℕ) (s : State C) (hlt : s.i < vec.length) :
    fuel vec (round cqMap vec results s) < fuel vec s := by
  rw [round,if_pos hlt]
  cases hlook : looking vec s with
  | none =>
    simp only [fuel]
    omega
  | some found =>
    obtain ⟨h,c⟩ := found
    obtain ⟨hh,hc⟩ := (looking_eq_some s h c).mp hlook
    cases hload : load cqMap s.cq c.cqHandle with
    | none =>
      simp only [hload,fuel]
      omega
    | some cq =>
      simp only [hload]
      exact fuel_answer s _ h c _ hh hc rfl

theorem rounds_from (results : ℕ → ℕ) (s : State C) :
    ∃ n ≤ fuel vec s, vec.length ≤ ((round cqMap vec results)^[n] s).i := by
  induction hn : fuel vec s using Nat.strong_induction_on generalizing s with
  | _ k ih =>
    by_cases hend : vec.length ≤ s.i
    · exact ⟨0,Nat.zero_le k,hend⟩
    · have hless := @fuel_round C cqMap vec results s (Nat.lt_of_not_le hend)
      rw [hn] at hless
      obtain ⟨n,hle,hi⟩ := ih _ hless (round cqMap vec results s) rfl
      exact ⟨n+1,by omega,by rwa [Function.iterate_succ_apply]⟩

/-- For every vector, every assignment of slot states and requests, whatever CQ is
carried into the pass, and every sequence of results, the index reaches the end of the
vector. The number of iterations has a bound that does not depend on the results: the
length for the last sweep and one more than it for each handle with a request. -/
theorem cq_loop_ends (cqMap : ℕ → Option C) (vec : List ℕ) (slots : ℕ → Option Csp) (cq : Option C)
    (results : ℕ → ℕ) :
    ∃ n ≤ (vec.toFinset.filter fun h => (request slots h).isSome).card*(vec.length+1)+vec.length,
      vec.length ≤ ((round cqMap vec results)^[n] (started slots cq)).i :=
  rounds_from results (started slots cq)

end Pass

/-- Both CQs hold a request for up to four completions. -/
def twoPending : ℕ → Option Csp := fun h =>
  if h = 5 ∨ h = 6 then some ⟨.requested,h,4,0⟩ else none

def twoCqs : ℕ → Option ℕ := fun h => if h = 5 ∨ h = 6 then some h else none

theorem twoPending_valid (vec : List ℕ) : Valid twoCqs vec twoPending := by
  intro h _ c hc
  have hh : h = 5 ∨ h = 6 := by
    by_contra hnot
    simp [request,twoPending,hnot] at hc
  obtain rfl : ⟨.requested,h,4,0⟩ = c := by simpa [request,twoPending,hh] using hc
  rcases hh with rfl | rfl <;> decide

/-- One completion sends the index from the first CQ over one without a slot
to the last, whose three end the pass. -/
theorem polls_behind_completions_serve : ∃ t,
    run (step twoCqs [5,9,6]) (started twoPending none) [.poll 1,.poll 3] = some t ∧
    ∀ h ∈ [5,9,6], Pending twoPending h →
      Answered t.slots h ∧ (t.polls.map Prod.fst).count h = 1 := by
  refine ⟨_,rfl,(pass_serves_iff twoCqs [5,9,6] twoPending none (twoPending_valid _)
    [.poll 1,.poll 3] _ rfl (by decide)).mpr ?_⟩
  refine along_cons _ _ _ _ _ _ rfl (.inr ⟨2,6,by decide,rfl,by decide,by decide⟩) ?_
  exact along_cons _ _ _ _ _ _ rfl (.inl (by decide)) trivial

/-- Two completions for the first CQ send the index past the second. -/
theorem second_cq_skipped : ∃ t, run (step twoCqs [5,6]) (started twoPending none) [.poll 2] = some t ∧
    2 ≤ t.i ∧ Pending t.slots 6 :=
  ⟨_,rfl,by decide,by decide⟩

end FreeFlow.CqPass
