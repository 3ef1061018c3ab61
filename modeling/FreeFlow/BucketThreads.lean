import FreeFlow.BucketArithmetic
import FreeFlow.LaidOut
import FreeFlow.Runs
import Mathlib.Algebra.BigOperators.Group.List.Basic
import Mathlib.Algebra.Order.Ring.Nat
import Mathlib.Data.List.Induction

/-!
# Threads on one token bucket

`consume` takes no lock and is written for threads that spend from one bucket at
the same time; the handlers of the router call it with `lkey_ptr_mtx` held and so
one after the other. A call reads the clock, loads `time_`, and tries to exchange
the time it has loaded for the new one until the exchange succeeds or the new
time lies ahead of the clock. All accesses are relaxed and the exchange is the
weak one, so a load and a failing exchange may show any time that was ever
stored, and an exchange may fail for no reason; one that succeeds has met the
last time.

The lower bound `minTime` is applied to the time that was loaded first and to no
time that a failing exchange shows.
-/

set_option autoImplicit false

namespace FreeFlow.BucketThreads

open TokenBucket BucketArithmetic LaidOut Runs

structure Attempt where
  now : ℕ
  tokens : ℕ
  oldTime : ℕ
  newTime : ℕ
  retried : Bool
  deriving DecidableEq

/-- What a thread does next: nothing, the first load, or an exchange. -/
inductive Pc
  | idle
  | reading (now tokens : ℕ)
  | trying (a : Attempt)
  deriving DecidableEq

abbrev Thread := ℕ

/-- `past` are the times that were stored before `time`, and `grants` the
exchanges that have succeeded, in their order. -/
structure System where
  clock : ℕ
  time : ℕ
  past : List ℕ
  pc : Thread → Pc
  grants : List Attempt

def started (clock time : ℕ) : System := ⟨clock,time,[],fun _ => .idle,[]⟩

inductive Act
  | tick (d : ℕ)
  | call (t : Thread) (tokens : ℕ)
  | load (t : Thread) (v : ℕ)
  | exchange (t : Thread)
  | fail (t : Thread) (v : ℕ)
  deriving DecidableEq

variable (b : Bucket)

/-- The body of the loop up to the exchange. -/
def attempt (now tokens oldTime newTime : ℕ) (retried : Bool) : Pc :=
  let newTime := (newTime+tokens*b.timePerToken%2^64)%2^64
  if newTime > now then .idle else .trying ⟨now,tokens,oldTime,newTime,retried⟩

def minTime (now : ℕ) : ℕ := (now+2^64-b.timePerBurst)%2^64

def setPc (w : System) (t : Thread) (pc : Pc) : System :=
  ⟨w.clock,w.time,w.past,Function.update w.pc t pc,w.grants⟩

def step (w : System) : Act → Option System
  | .tick d => some ⟨w.clock+d,w.time,w.past,w.pc,w.grants⟩
  | .call t tokens =>
    match w.pc t with
    | .idle => some (setPc w t (.reading w.clock tokens))
    | _ => none
  | .load t v =>
    match w.pc t with
    | .reading now tokens =>
      if v ∈ w.time::w.past then
        let newTime := if minTime b now > v then minTime b now else v
        some (setPc w t (attempt b now tokens v newTime false))
      else none
    | _ => none
  | .exchange t =>
    match w.pc t with
    | .trying a =>
      if w.time = a.oldTime then
        some ⟨w.clock,a.newTime,w.time::w.past,Function.update w.pc t .idle,w.grants++[a]⟩
      else none
    | _ => none
  | .fail t v =>
    match w.pc t with
    | .trying a =>
      if v ∈ w.time::w.past then some (setPc w t (attempt b a.now a.tokens v v true)) else none
    | _ => none

def runs : System → List Act → Option System := run (step b)

/-- What a step can do. -/
theorem step_cases {w w' : System} {a : Act} (hstep : step b w a = some w') :
    (∃ d, w' = ⟨w.clock+d,w.time,w.past,w.pc,w.grants⟩) ∨
      (∃ t tokens, a = .call t tokens ∧ w' = setPc w t (.reading w.clock tokens)) ∨
      (∃ t now tokens v, w.pc t = .reading now tokens ∧ v ∈ w.time::w.past ∧ w' = setPc w t
        (attempt b now tokens v (if minTime b now > v then minTime b now else v) false)) ∨
      (∃ t a, w.pc t = .trying a ∧ w.time = a.oldTime ∧
        w' = ⟨w.clock,a.newTime,w.time::w.past,Function.update w.pc t .idle,w.grants++[a]⟩) ∨
      ∃ t a v, w.pc t = .trying a ∧ v ∈ w.time::w.past ∧
        w' = setPc w t (attempt b a.now a.tokens v v true) := by
  cases a with
  | tick d => exact .inl ⟨d,(Option.some.inj hstep).symm⟩
  | call t tokens =>
    simp only [step] at hstep
    cases hpc : w.pc t with
    | idle =>
      rw [hpc] at hstep
      exact .inr (.inl ⟨t,tokens,rfl,(Option.some.inj hstep).symm⟩)
    | reading now tokens => simp [hpc] at hstep
    | trying a => simp [hpc] at hstep
  | load t v =>
    simp only [step] at hstep
    cases hpc : w.pc t with
    | idle => simp [hpc] at hstep
    | reading now tokens =>
      rw [hpc] at hstep
      obtain ⟨hv,heq⟩ := Option.ite_none_right_eq_some.mp hstep
      exact .inr (.inr (.inl ⟨t,now,tokens,v,hpc,hv,(Option.some.inj heq).symm⟩))
    | trying a => simp [hpc] at hstep
  | exchange t =>
    simp only [step] at hstep
    cases hpc : w.pc t with
    | idle => simp [hpc] at hstep
    | reading now tokens => simp [hpc] at hstep
    | trying a =>
      rw [hpc] at hstep
      obtain ⟨htime,heq⟩ := Option.ite_none_right_eq_some.mp hstep
      exact .inr (.inr (.inr (.inl ⟨t,a,hpc,htime,(Option.some.inj heq).symm⟩)))
  | fail t v =>
    simp only [step] at hstep
    cases hpc : w.pc t with
    | idle => simp [hpc] at hstep
    | reading now tokens => simp [hpc] at hstep
    | trying a =>
      rw [hpc] at hstep
      obtain ⟨hv,heq⟩ := Option.ite_none_right_eq_some.mp hstep
      exact .inr (.inr (.inr (.inr ⟨t,a,v,hpc,hv,(Option.some.inj heq).symm⟩)))

theorem attempt_eq (now tokens oldTime start n : ℕ) (retried : Bool)
    (h : (start+tokens*b.timePerToken%2^64)%2^64 = n) : attempt b now tokens oldTime start retried =
      if n > now then .idle else .trying ⟨now,tokens,oldTime,n,retried⟩ := by
  rw [← h]
  rfl

/-- A call that meets no other one is `consume`. -/
theorem attempt_first (now tokens v : ℕ) :
    attempt b now tokens v (if minTime b now > v then minTime b now else v) false =
      match consume b now v tokens with
      | none => .idle
      | some t => .trying ⟨now,tokens,v,t,false⟩ := by
  obtain ⟨n,hn⟩ : ∃ n, ((if minTime b now > v then minTime b now else v)+
      tokens*b.timePerToken%2^64)%2^64 = n := ⟨_,rfl⟩
  have hconsume : consume b now v tokens = if n > now then none else some n := by
    rw [← hn]
    rfl
  rw [attempt_eq b now tokens v _ n false hn,hconsume]
  by_cases hlate : n > now
  · rw [if_pos hlate,if_pos hlate]
  · rw [if_neg hlate,if_neg hlate]

variable {b} {clock time limit : ℕ} {w w' : System}

/-- The time from which an attempt counts. -/
def Attempt.base (b : Bucket) (a : Attempt) : ℕ :=
  if a.retried then a.oldTime else max (a.now-b.timePerBurst) a.oldTime

def Attempt.cost (b : Bucket) (a : Attempt) : ℕ := timeNeeded b a.tokens

/-- What a retry is not charged: as far as the time it has met lies below `minTime`. -/
def Attempt.overdraft (b : Bucket) (a : Attempt) : ℕ :=
  if a.retried then min (a.cost b) (a.now-b.timePerBurst-a.oldTime) else 0

structure Sound (b : Bucket) (clock limit : ℕ) (a : Attempt) : Prop where
  burst_le : b.timePerBurst ≤ a.now
  now_le : a.now ≤ clock
  room : a.cost b+limit < 2^64
  new_eq : a.newTime = a.base b+a.cost b
  new_le : a.newTime ≤ a.now
  cost_le : a.cost b ≤ b.timePerBurst

theorem Sound.mono {a : Attempt} (h : Sound b clock limit a) {clock' : ℕ} (hle : clock ≤ clock') :
    Sound b clock' limit a :=
  ⟨h.burst_le,h.now_le.trans hle,h.room,h.new_eq,h.new_le,h.cost_le⟩

/-- What is known of a call that has read the clock. -/
structure Begun (b : Bucket) (clock limit now tokens : ℕ) : Prop where
  burst_le : b.timePerBurst ≤ now
  now_le : now ≤ clock
  room : timeNeeded b tokens+limit < 2^64

def PcSound (b : Bucket) (clock limit : ℕ) : Pc → Prop
  | .idle => True
  | .reading now tokens => Begun b clock limit now tokens
  | .trying a => Sound b clock limit a

theorem PcSound.mono {pc : Pc} (h : PcSound b clock limit pc) {clock' : ℕ} (hle : clock ≤ clock') :
    PcSound b clock' limit pc := by
  cases pc with
  | idle => trivial
  | reading now tokens => exact ⟨h.burst_le,h.now_le.trans hle,h.room⟩
  | trying a => exact Sound.mono h hle

/-- The first attempt of a call. -/
theorem Begun.first {now tokens v : ℕ} (h : Begun b clock limit now tokens) (hclock : clock ≤ limit)
    (hv : v ≤ clock) : PcSound b clock limit
      (attempt b now tokens v (if minTime b now > v then minTime b now else v) false) := by
  obtain ⟨hburst,hnow,hroom⟩ := h
  rw [attempt_first,consume_of_burst_le b now v tokens (by omega) hburst,Nat.mod_eq_of_lt (by omega)]
  by_cases hlate : max (now-b.timePerBurst) v+timeNeeded b tokens > now
  · rw [if_pos hlate]
    trivial
  · rw [if_neg hlate]
    exact ⟨hburst,hnow,hroom,rfl,by show max _ _+_ ≤ now; omega,by show timeNeeded b tokens ≤ _; omega⟩

/-- An attempt after a failing exchange. -/
theorem Sound.retry {a : Attempt} {v : ℕ} (h : Sound b clock limit a) (hclock : clock ≤ limit)
    (hv : v ≤ clock) : PcSound b clock limit (attempt b a.now a.tokens v v true) := by
  obtain ⟨hburst,hnow,hroom,-,-,hcost⟩ := h
  have hneeded : a.tokens*b.timePerToken%2^64 = a.cost b := Nat.mod_eq_of_lt (by
    show a.cost b < 2^64
    omega)
  rw [attempt_eq b a.now a.tokens v v (v+a.cost b) true (by rw [hneeded,Nat.mod_eq_of_lt (by omega)])]
  by_cases hlate : v+a.cost b > a.now
  · rw [if_pos hlate]
    trivial
  · rw [if_neg hlate]
    exact ⟨hburst,hnow,hroom,rfl,by show v+a.cost b ≤ a.now; omega,hcost⟩

/-- The grants are a chain: each exchanges the time that the one before it has stored. -/
structure Inv (b : Bucket) (time limit : ℕ) (w : System) : Prop where
  burst_le : b.timePerBurst ≤ w.clock
  chain : Laid (fun _ a => a.newTime) (fun v a => a.oldTime = v ∧ Sound b w.clock limit a)
    time w.grants w.time
  stored : ∀ v ∈ w.time::w.past, v ≤ w.clock
  pcs : ∀ t, PcSound b w.clock limit (w.pc t)

theorem inv_started (hburst : b.timePerBurst ≤ clock) (htime : time ≤ clock) :
    Inv b time limit (started clock time) :=
  ⟨hburst,.nil _,by simpa [started] using htime,fun _ => trivial⟩

theorem Inv.setPc (h : Inv b time limit w) (t : Thread) {pc : Pc} (hpc : PcSound b w.clock limit pc) :
    Inv b time limit (setPc w t pc) := by
  refine ⟨h.burst_le,h.chain,h.stored,fun u => ?_⟩
  show PcSound b w.clock limit (Function.update w.pc t pc u)
  by_cases hu : u = t
  · rw [hu,Function.update_self]
    exact hpc
  · rw [Function.update_of_ne hu]
    exact h.pcs u

theorem Inv.tick (h : Inv b time limit w) (d : ℕ) :
    Inv b time limit ⟨w.clock+d,w.time,w.past,w.pc,w.grants⟩ := by
  have hle : w.clock ≤ w.clock+d := Nat.le_add_right _ _
  refine ⟨h.burst_le.trans hle,h.chain.imp ?_,fun v hv => (h.stored v hv).trans hle,
    fun t => (h.pcs t).mono hle⟩
  rintro v a - ⟨hold,hsound⟩
  exact ⟨hold,hsound.mono hle⟩

theorem Inv.exchange (h : Inv b time limit w) (t : Thread) {a : Attempt} (ha : w.pc t = .trying a)
    (htime : w.time = a.oldTime) : Inv b time limit
      ⟨w.clock,a.newTime,w.time::w.past,Function.update w.pc t .idle,w.grants++[a]⟩ := by
  have hsound : Sound b w.clock limit a := by
    have := h.pcs t
    rwa [ha] at this
  have hidle : PcSound b w.clock limit .idle := trivial
  refine ⟨h.burst_le,h.chain.concat ⟨htime.symm,hsound⟩,?_,(h.setPc t hidle).pcs⟩
  intro v hv
  rcases List.mem_cons.mp hv with rfl | hv
  · exact hsound.new_le.trans hsound.now_le
  · exact h.stored v hv

/-- The calls of a run whose cost leaves room in 64 bits. -/
def InRange (b : Bucket) (limit : ℕ) : Act → Prop
  | .call _ tokens => timeNeeded b tokens+limit < 2^64
  | _ => True

instance (b : Bucket) (limit : ℕ) : (a : Act) → Decidable (InRange b limit a)
  | .call _ tokens => inferInstanceAs (Decidable (timeNeeded b tokens+limit < 2^64))
  | .tick _ | .load _ _ | .exchange _ | .fail _ _ => .isTrue trivial

theorem Inv.step {a : Act} (h : Inv b time limit w) (hrange : InRange b limit a)
    (hlimit : w'.clock ≤ limit) (hstep : step b w a = some w') : Inv b time limit w' := by
  obtain ⟨d,rfl⟩ | ⟨t,tokens,rfl,rfl⟩ | ⟨t,now,tokens,v,hpc,hv,rfl⟩ | ⟨t,a,hpc,htime,rfl⟩ |
    ⟨t,a,v,hpc,hv,rfl⟩ := step_cases b hstep
  · exact h.tick d
  · exact h.setPc t ⟨h.burst_le,le_rfl,hrange⟩
  · have hbegun := h.pcs t
    rw [hpc] at hbegun
    exact h.setPc t (Begun.first hbegun hlimit (h.stored v hv))
  · exact h.exchange t hpc htime
  · have hsound := h.pcs t
    rw [hpc] at hsound
    exact h.setPc t (Sound.retry hsound hlimit (h.stored v hv))

theorem clock_le_of_step {a : Act} (hstep : BucketThreads.step b w a = some w') :
    w.clock ≤ w'.clock := by
  obtain ⟨d,rfl⟩ | ⟨t,tokens,rfl,rfl⟩ | ⟨t,now,tokens,v,hpc,hv,rfl⟩ | ⟨t,a,hpc,htime,rfl⟩ |
    ⟨t,a,v,hpc,hv,rfl⟩ := step_cases b hstep
  · exact Nat.le_add_right _ _
  all_goals exact le_rfl

theorem grants_of_step {a : Act} (hstep : BucketThreads.step b w a = some w') :
    ∃ new, w'.grants = w.grants++new := by
  obtain ⟨d,rfl⟩ | ⟨t,tokens,rfl,rfl⟩ | ⟨t,now,tokens,v,hpc,hv,rfl⟩ | ⟨t,a,hpc,htime,rfl⟩ |
    ⟨t,a,v,hpc,hv,rfl⟩ := step_cases b hstep
  · exact ⟨[],(List.append_nil _).symm⟩
  · exact ⟨[],(List.append_nil _).symm⟩
  · exact ⟨[],(List.append_nil _).symm⟩
  · exact ⟨[a],rfl⟩
  · exact ⟨[],(List.append_nil _).symm⟩

theorem Inv.runs {acts : List Act} (h : w.clock ≤ limit → Inv b time limit w)
    (hrange : ∀ a ∈ acts, InRange b limit a) (hrun : runs b w acts = some w')
    (hlimit : w'.clock ≤ limit) : Inv b time limit w' := by
  refine run_invariant (BucketThreads.step b) (fun _ a => InRange b limit a)
    (fun w => w.clock ≤ limit → Inv b time limit w) ?_ w acts w' h
    (along_of_forall _ _ w acts fun a ha _ => hrange a ha) hrun hlimit
  intro w a w' hw ha hstep hle
  exact (hw ((clock_le_of_step hstep).trans hle)).step ha hle hstep

theorem grants_of_runs {acts : List Act} (hrun : runs b w acts = some w') :
    ∃ new, w'.grants = w.grants++new := by
  refine run_preserves (BucketThreads.step b) (fun v => ∃ new, v.grants = w.grants++new) ?_ w acts w'
    ⟨[],(List.append_nil _).symm⟩ hrun
  rintro v a v' ⟨new,hnew⟩ hstep
  obtain ⟨more,hmore⟩ := grants_of_step hstep
  exact ⟨new++more,by rw [hmore,hnew,List.append_assoc]⟩

theorem Sound.le_base {a : Attempt} : a.oldTime ≤ a.base b := by
  rw [Attempt.base]
  split
  · exact le_rfl
  · exact le_max_right _ _

/-- Whatever the threads do, no grant is lost: what is granted between two moments costs no more than
`time_` has moved, and `time_` never passes the clock. -/
theorem granted_between (clock time : ℕ) (hburst : b.timePerBurst ≤ clock) (htime : time ≤ clock)
    (acts acts' : List Act) (hrun : runs b (started clock time) acts = some w)
    (hrun' : runs b w acts' = some w') (hrange : ∀ a ∈ acts++acts', InRange b w'.clock a) :
    ∃ new, w'.grants = w.grants++new ∧ w.time+(new.map (Attempt.cost b)).sum ≤ w'.time ∧
      w'.time ≤ w'.clock := by
  have hinv : w.clock ≤ w'.clock → Inv b time w'.clock w :=
    Inv.runs (fun _ => inv_started hburst htime) (fun a ha => hrange a (List.mem_append_left _ ha)) hrun
  have hinv' := Inv.runs hinv (fun a ha => hrange a (List.mem_append_right _ ha)) hrun' le_rfl
  have hclock : w.clock ≤ w'.clock := run_preserves (BucketThreads.step b) (fun v => w.clock ≤ v.clock)
    (fun _ _ _ hv hstep => hv.trans (clock_le_of_step hstep)) w acts' w' le_rfl hrun'
  obtain ⟨new,hnew⟩ := grants_of_runs hrun'
  have hchain := hinv'.chain
  rw [hnew,laid_append] at hchain
  obtain ⟨m,hold,hchain⟩ := hchain
  -- both chains through the old grants end at the same time
  obtain rfl : m = w.time := hold.foldl_eq.symm.trans (hinv hclock).chain.foldl_eq
  refine ⟨new,hnew,hchain.add_sum_le id (Attempt.cost b) ?_,hinv'.stored _ List.mem_cons_self⟩
  rintro v a - ⟨rfl,hsound⟩
  show a.oldTime+a.cost b ≤ a.newTime
  rw [hsound.new_eq]
  exact Nat.add_le_add_right Sound.le_base _

/-- Two threads have loaded the same time; the second one has to try again. -/
theorem granted_between_retry : ∃ b w w', runs b (started 1000 0) [.call 0 5,.load 0 0,.call 1 4,.load 1 0] = some w ∧
    runs b w [.exchange 0,.fail 1 995,.exchange 1] = some w' ∧ w'.time = 999 ∧
    ∃ new, w'.grants = w.grants++new ∧ w.time+(new.map (Attempt.cost b)).sum ≤ w'.time ∧
      w'.time ≤ w'.clock := by
  let b : Bucket := ⟨1,10,by decide⟩
  have heval : (runs b (started 1000 0) [.call 0 5,.load 0 0,.call 1 4,.load 1 0]).bind (fun w =>
      (runs b w [.exchange 0,.fail 1 995,.exchange 1]).map fun w' => (w'.time,w'.clock)) =
      some (999,1000) := by decide +kernel
  obtain ⟨w,hrun,heval⟩ := Option.bind_eq_some_iff.mp heval
  obtain ⟨w',hrun',heq⟩ := Option.map_eq_some_iff.mp heval
  obtain ⟨htime,hclock⟩ := Prod.mk.inj heq
  exact ⟨b,w,w',hrun,hrun',htime,granted_between 1000 0 (by decide) (by decide) _ _ hrun hrun'
    (by rw [hclock]; decide)⟩

/-! ## Windows -/

def Attempt.during (lo hi : ℕ) (a : Attempt) : Bool := lo ≤ a.now && a.now ≤ hi

/-- What a grant is charged to a window. -/
def Attempt.charge (b : Bucket) (lo hi : ℕ) (a : Attempt) : ℕ :=
  if a.during lo hi then a.cost b-a.overdraft b else 0

theorem Sound.charge_le {a : Attempt} (h : Sound b clock limit a) (lo hi : ℕ) :
    max a.oldTime (lo-b.timePerBurst)+a.charge b lo hi ≤ max a.newTime (lo-b.timePerBurst) := by
  have hbase : a.oldTime ≤ a.base b := Sound.le_base
  have hnew := h.new_eq
  rw [Attempt.charge]
  by_cases hin : a.during lo hi = true
  · obtain ⟨hlo,-⟩ : lo ≤ a.now ∧ a.now ≤ hi := by simpa [Attempt.during] using hin
    rw [if_pos hin]
    rw [Attempt.base] at hnew
    rw [Attempt.overdraft]
    cases hretried : a.retried with
    | false =>
      rw [hretried] at hnew
      simp only [Bool.false_eq_true,if_false] at hnew ⊢
      omega
    | true =>
      rw [hretried] at hnew
      simp only [if_true] at hnew ⊢
      omega
  · rw [if_neg hin]
    omega

/-- The charges of a window, by induction on the grants from the last one: behind the last grant of
the window `time_` may be anywhere, at that grant it has not passed the end of the window. -/
theorem charges_le {lo hi : ℕ} (hle : lo ≤ hi) (grants : List Attempt) (e : ℕ)
    (h : Laid (fun _ a => a.newTime) (fun v a => a.oldTime = v ∧ Sound b clock limit a)
      time grants e) : lo-b.timePerBurst+(grants.map (Attempt.charge b lo hi)).sum ≤ hi := by
  induction grants using List.reverseRecOn generalizing e with
  | nil =>
    rw [List.map_nil,List.sum_nil]
    omega
  | append_singleton grants a ih =>
    obtain ⟨m,hgrants,ha⟩ := laid_append.mp h
    by_cases hin : a.during lo hi = true
    · obtain ⟨⟨-,hsound⟩,hend⟩ := laid_cons.mp ha
      cases hend
      obtain ⟨-,hhi⟩ : lo ≤ a.now ∧ a.now ≤ hi := by simpa [Attempt.during] using hin
      have hsum := h.add_sum_le (fun v => max v (lo-b.timePerBurst)) (Attempt.charge b lo hi) (by
        rintro v x - ⟨rfl,hx⟩
        exact hx.charge_le lo hi)
      have hlast := hsound.new_le
      omega
    · have hzero : a.charge b lo hi = 0 := if_neg hin
      rw [List.map_append,List.sum_append,List.map_singleton,List.sum_singleton,hzero,Nat.add_zero]
      exact ih m hgrants

theorem Attempt.overdraft_le (a : Attempt) : a.overdraft b ≤ a.cost b := by
  rw [Attempt.overdraft]
  split
  · exact min_le_left _ _
  · exact Nat.zero_le _

theorem costs_eq (lo hi : ℕ) (grants : List Attempt) :
    ((grants.filter (Attempt.during lo hi)).map (Attempt.cost b)).sum =
      (grants.map (Attempt.charge b lo hi)).sum+
        ((grants.filter (Attempt.during lo hi)).map (Attempt.overdraft b)).sum := by
  induction grants with
  | nil => rfl
  | cons a grants ih =>
    have hle := a.overdraft_le (b := b)
    rw [List.map_cons,List.sum_cons,List.filter_cons,Attempt.charge]
    by_cases hin : a.during lo hi = true
    · rw [if_pos hin,if_pos hin,List.map_cons,List.sum_cons,List.map_cons,List.sum_cons]
      omega
    · rw [if_neg hin,if_neg hin]
      omega

/-- The calls that read the clock between `lo` and `hi` are granted no more than the length of that
time and one burst, and what their retries were not charged. No grant is larger than a burst. -/
theorem window_granted_le (clock time : ℕ) (hburst : b.timePerBurst ≤ clock) (htime : time ≤ clock)
    (acts : List Act) (hrun : runs b (started clock time) acts = some w)
    (hrange : ∀ a ∈ acts, InRange b w.clock a) (lo hi : ℕ) (hle : lo ≤ hi) :
    ((w.grants.filter (Attempt.during lo hi)).map (Attempt.cost b)).sum ≤ hi-lo+b.timePerBurst+
        ((w.grants.filter (Attempt.during lo hi)).map (Attempt.overdraft b)).sum ∧
      ∀ a ∈ w.grants, a.cost b ≤ b.timePerBurst := by
  have hinv : Inv b time w.clock w := Inv.runs (fun _ => inv_started hburst htime) hrange hrun le_rfl
  constructor
  · have hcharges := charges_le hle w.grants w.time hinv.chain
    rw [costs_eq]
    omega
  · exact hinv.chain.forall_mem fun v a h => h.2.cost_le

/-- Three calls for a burst are granted in the same moment. A thread that has read the clock long
before makes two of them retry. -/
theorem window_granted_le_stale : ∃ b w, b.timePerBurst = 10 ∧
    runs b (started 1000 0) [.call 0 5,.load 0 0,.tick 1000,.call 1 10,.load 1 0,.call 2 10,.load 2 0,
      .exchange 0,.fail 1 995,.exchange 1,.fail 2 1005,.exchange 2,.call 3 10,.load 3 1015,
      .exchange 3] = some w ∧
    ((w.grants.filter (Attempt.during 2000 2000)).map (Attempt.cost b)).sum = 30 ∧
    30 ≤ 2000-2000+10+
      ((w.grants.filter (Attempt.during 2000 2000)).map (Attempt.overdraft b)).sum := by
  let b : Bucket := ⟨1,10,by decide⟩
  have heval : (runs b (started 1000 0) [.call 0 5,.load 0 0,.tick 1000,.call 1 10,.load 1 0,.call 2 10,
      .load 2 0,.exchange 0,.fail 1 995,.exchange 1,.fail 2 1005,.exchange 2,.call 3 10,.load 3 1015,
      .exchange 3]).map (fun w => (w.clock,((w.grants.filter (Attempt.during 2000 2000)).map
        (Attempt.cost b)).sum)) = some (2000,30) := by decide +kernel
  obtain ⟨w,hrun,heq⟩ := Option.map_eq_some_iff.mp heval
  obtain ⟨hclock,hcost⟩ := Prod.mk.inj heq
  refine ⟨b,w,rfl,hrun,hcost,?_⟩
  have hle := (window_granted_le 1000 0 (by decide) (by decide) _ hrun (by rw [hclock]; decide)
    2000 2000 le_rfl).1
  rwa [hcost] at hle

end FreeFlow.BucketThreads
