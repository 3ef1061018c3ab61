import FreeFlow.Runs

/-!
# Requests and replies over a stream

A client sends one request at a time and reads as many reply bytes as it
waits for, in portions of any size. The server serves one request after the
other. What it does with a request is an outcome: bytes written, or an end
of the service. Client and server block each other when the client waits for
bytes that nobody will write and the server waits for a request.

A server that runs through a list of checks before it replies fails with the
outcome of the first check that does not pass.
-/

set_option autoImplicit false

namespace RequestReply

open Runs

inductive Outcome
  | wrote (bytes : ℕ)
  | closed
  | abandoned
  | blocked
  | undefined
  deriving DecidableEq

/-- A failed check makes the server skip the reply or ends the service. -/
inductive Failure
  | skipped
  | abandoned
  | blocked
  | undefined
  deriving DecidableEq

def Failure.outcome : Failure → Outcome
  | .skipped => .wrote 0
  | .abandoned => .abandoned
  | .blocked => .blocked
  | .undefined => .undefined

structure Check where
  ok : Bool
  failure : Failure

def checked : List Check → Outcome → Outcome
  | [], o => o
  | c::cs, o => if c.ok then checked cs o else c.failure.outcome

def Passed (cs : List Check) : Prop := ∀ c ∈ cs, c.ok = true

@[simp] theorem passed_nil : Passed [] := by simp [Passed]

@[simp] theorem passed_cons (c : Check) (cs : List Check) :
    Passed (c::cs) ↔ c.ok = true ∧ Passed cs := List.forall_mem_cons

@[simp] theorem passed_append (cs ds : List Check) : Passed (cs++ds) ↔ Passed cs ∧ Passed ds :=
  List.forall_mem_append

@[simp] theorem passed_flatMap {α : Type*} (xs : List α) (f : α → List Check) :
    Passed (xs.flatMap f) ↔ ∀ x ∈ xs, Passed (f x) := by
  simp only [Passed,List.mem_flatMap]
  exact ⟨fun h x hx c hc => h c ⟨x,hx,hc⟩,fun h c ⟨x,hx,hc⟩ => h x hx c hc⟩

theorem checked_cases (cs : List Check) (o : Outcome) :
    (Passed cs ∧ checked cs o = o) ∨
      (¬Passed cs ∧ ∃ f : Failure, checked cs o = f.outcome) := by
  induction cs with
  | nil => exact .inl ⟨passed_nil,rfl⟩
  | cons c cs ih =>
    rw [checked,passed_cons]
    cases hok : c.ok with
    | false => exact .inr ⟨by simp,c.failure,if_neg (by simp)⟩
    | true => simpa using ih

/-- A positive reply is written, or the stream closed, only after every check. -/
theorem checked_answers_iff (cs : List Check) (o : Outcome) (n : ℕ) (hn : 0 < n) :
    checked cs o = .closed ∨ checked cs o = .wrote n ↔
      Passed cs ∧ (o = .closed ∨ o = .wrote n) := by
  rcases checked_cases cs o with ⟨hpassed,heq⟩ | ⟨hfailed,f,heq⟩
  · rw [heq]
    exact ⟨fun h => ⟨hpassed,h⟩,fun h => h.2⟩
  · rw [heq]
    refine ⟨fun h => ?_,fun h => absurd h.1 hfailed⟩
    cases f <;> simp [Failure.outcome] at h
    omega

inductive Server
  | listening
  | closed
  | abandoned
  | blocked
  deriving DecidableEq

/-- The client waits for `need` bytes; `pipe` bytes are written and unread. -/
structure Channel (Q : Type*) where
  server : Server
  request : Option Q
  need : ℕ
  pipe : ℕ

inductive Event (Q : Type*)
  | send (q : Q)
  | serve
  | receive (bytes : ℕ)

variable {Q : Type*} (outcome : Q → Outcome) (waits : Q → ℕ)

def opened : Channel Q := ⟨.listening,none,0,0⟩

/-- Nothing is said about a run after an undefined outcome. -/
def served (s : Channel Q) : Outcome → Option (Channel Q)
  | .wrote n => some {s with request := none,pipe := s.pipe+n}
  | .closed => some {s with request := none,server := .closed}
  | .abandoned => some {s with request := none,server := .abandoned}
  | .blocked => some {s with request := none,server := .blocked}
  | .undefined => none

def step (s : Channel Q) : Event Q → Option (Channel Q)
  | .send q =>
    if s.server = .listening ∧ s.request.isNone ∧ s.need = 0 then
      some {s with request := some q,need := waits q}
    else none
  | .serve => s.request.bind fun q => served s (outcome q)
  | .receive k =>
    if 0 < k ∧ k ≤ s.need ∧ k ≤ s.pipe then some {s with need := s.need-k,pipe := s.pipe-k}
    else none

/-- The server closes the stream or writes what the client waits for. -/
def Answers (q : Q) : Prop := outcome q = .closed ∨ outcome q = .wrote (waits q)

def Deadlocked (s : Channel Q) : Prop :=
  s.server = .listening ∧ s.request = none ∧ 0 < s.need ∧ s.pipe = 0

/-- Every request sent is answered. -/
def SendsAnswered (_ : Channel Q) : Event Q → Prop
  | .send q => Answers outcome waits q
  | _ => True

/-- As long as the server listens, the client waits for the request in
flight or for the bytes in the pipe. -/
structure Inv (s : Channel Q) : Prop where
  sent : ∀ q, s.request = some q → Answers outcome waits q ∧ s.need = waits q ∧ s.pipe = 0
  balanced : s.server = .listening → s.request = none → s.need = s.pipe

variable {outcome waits}

theorem inv_served (s t : Channel Q) (q : Q) (hI : Inv outcome waits s) (hq : s.request = some q)
    (ht : served s (outcome q) = some t) : Inv outcome waits t := by
  obtain ⟨hanswer,hneed,hpipe⟩ := hI.sent q hq
  rcases hanswer with hclosed | hwrote
  · rw [hclosed] at ht
    obtain rfl := Option.some.inj ht
    exact ⟨by simp,by simp⟩
  · rw [hwrote] at ht
    obtain rfl := Option.some.inj ht
    exact ⟨by simp,fun _ _ => by simp [hneed,hpipe]⟩

theorem inv_step (s : Channel Q) (e : Event Q) (t : Channel Q) (hI : Inv outcome waits s)
    (he : SendsAnswered outcome waits s e) (ht : step outcome waits s e = some t) :
    Inv outcome waits t := by
  cases e with
  | send q =>
    simp only [step,Option.ite_none_right_eq_some,Option.some.injEq] at ht
    obtain ⟨⟨hlisten,hnone,hidle⟩,rfl⟩ := ht
    have hpipe : s.pipe = 0 := by
      rw [← hI.balanced hlisten (Option.isNone_iff_eq_none.mp hnone),hidle]
    refine ⟨fun q' hq' => ?_,fun _ h => by simp at h⟩
    obtain rfl := Option.some.inj hq'
    exact ⟨he,rfl,hpipe⟩
  | serve =>
    obtain ⟨q,hq,hserved⟩ := Option.bind_eq_some_iff.mp ht
    exact inv_served s t q hI hq hserved
  | receive k =>
    simp only [step,Option.ite_none_right_eq_some,Option.some.injEq] at ht
    obtain ⟨⟨hk,hneed,hpipe⟩,rfl⟩ := ht
    refine ⟨fun q hq => ?_,fun hlisten hnone => ?_⟩
    · obtain ⟨-,-,hempty⟩ := hI.sent q hq
      omega
    · exact congrArg (·-k) (hI.balanced hlisten hnone)

/-- A run whose requests are all answered never blocks both sides. -/
theorem never_deadlocked (events : List (Event Q)) (s : Channel Q)
    (hanswered : ∀ q, Event.send q ∈ events → Answers outcome waits q)
    (hrun : run (step outcome waits) opened events = some s) : ¬Deadlocked s := by
  have halong : Along (step outcome waits) (SendsAnswered outcome waits) opened events := by
    apply along_of_forall
    intro e he t
    cases e with
    | send q => exact hanswered q he
    | serve => trivial
    | receive k => trivial
  have hI := run_invariant (step outcome waits) (SendsAnswered outcome waits) (Inv outcome waits)
    inv_step opened events s ⟨by simp [opened],fun _ _ => rfl⟩ halong hrun
  rintro ⟨hlisten,hnone,hneed,hpipe⟩
  have hbalanced := hI.balanced hlisten hnone
  omega

/-- A reply that is too short blocks both sides. -/
theorem short_reply_deadlocks (q : Q) (n : ℕ) (hwrote : outcome q = .wrote n)
    (hshort : n < waits q) : ∃ events s, (∀ p, Event.send p ∈ events → p = q) ∧
      run (step outcome waits) opened events = some s ∧ Deadlocked s := by
  by_cases hn : n = 0
  · refine ⟨[.send q,.serve],⟨.listening,none,waits q,0⟩,by simp,?_,
      rfl,rfl,Nat.zero_lt_of_lt hshort,rfl⟩
    simp [run,step,opened,served,hwrote,hn]
  · refine ⟨[.send q,.serve,.receive n],⟨.listening,none,waits q-n,0⟩,by simp,?_,
      rfl,rfl,Nat.sub_pos_of_lt hshort,rfl⟩
    simp [run,step,opened,served,hwrote,Nat.pos_of_ne_zero hn,Nat.le_of_lt hshort]

end RequestReply
