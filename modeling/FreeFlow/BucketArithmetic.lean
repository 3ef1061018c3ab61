import FreeFlow.TokenBucket
import FreeFlow.VirtualSchedule
import Mathlib.Algebra.Order.Group.Int

/-!
# The arithmetic of the token bucket

`consume` is the virtual schedule of one bucket, computed in 64 bits: the
subtraction of the burst, the product and the sum can each leave the range. The
schedule over the integers is what the computation stands for, and the two are
compared here call by call.

The clock is the time since boot, so a slow bucket meets clock values that lie
below its burst.
-/

set_option autoImplicit false

namespace FreeFlow.BucketArithmetic

open TokenBucket

structure Call where
  now : ℕ
  tokens : ℕ
  now_lt : now < 2^64

def timeAfter (b : Bucket) (time : ℕ) (c : Call) : ℕ := (consume b c.now time c.tokens).getD time

/-- The contents `time_` can have when the clock shows `now`: a fresh bucket
has seen calls at clock values that do not decrease. -/
def Reachable (b : Bucket) (now time : ℕ) : Prop :=
  ∃ calls : List Call, (calls.map Call.now).Pairwise (· ≤ ·) ∧ (∀ c ∈ calls, c.now ≤ now) ∧
    calls.foldl (timeAfter b) 0 = time

def timeNeeded (b : Bucket) (tokens : ℕ) : ℕ := tokens*b.timePerToken

/-- The formula of `consume` over the integers. -/
def consumeUnbounded (b : Bucket) (now time tokens : ℕ) : Option ℤ :=
  VirtualSchedule.allow (b.timePerBurst : ℤ) time ⟨now,timeNeeded b tokens⟩

def Agrees (b : Bucket) (now time tokens : ℕ) : Prop :=
  Option.map (fun t : ℕ => (t : ℤ)) (consume b now time tokens) = consumeUnbounded b now time tokens

instance (b : Bucket) (now time tokens : ℕ) : Decidable (Agrees b now time tokens) :=
  inferInstanceAs (Decidable (_ = _))

theorem consume_le (b : Bucket) (now time tokens t : ℕ)
    (h : consume b now time tokens = some t) : t ≤ now := by
  simp only [consume,Option.ite_none_left_eq_some,Option.some.injEq] at h
  omega

theorem reachable_zero (b : Bucket) (now : ℕ) : Reachable b now 0 :=
  ⟨[],List.Pairwise.nil,by simp,rfl⟩

theorem timeAfter_le (b : Bucket) (now time : ℕ) (c : Call) (hc : c.now ≤ now) (ht : time ≤ now) :
    timeAfter b time c ≤ now := by
  unfold timeAfter
  cases h : consume b c.now time c.tokens with
  | none => exact ht
  | some t => exact (consume_le b c.now time c.tokens t h).trans hc

theorem time_le_of_reachable (b : Bucket) (now time : ℕ) (h : Reachable b now time) :
    time ≤ now := by
  obtain ⟨calls,-,hnow,rfl⟩ := h
  have hfold : ∀ time, time ≤ now → calls.foldl (timeAfter b) time ≤ now := by
    induction calls with
    | nil => exact fun _ ht => ht
    | cons c calls ih =>
      intro time ht
      rw [List.forall_mem_cons] at hnow
      exact ih hnow.2 _ (timeAfter_le b now time c hnow.1 ht)
  exact hfold 0 (Nat.zero_le _)

/-- Where the clock has passed the burst, only the product and the sum can
leave the range. -/
theorem consume_of_burst_le (b : Bucket) (now time tokens : ℕ) (hnow : now < 2^64)
    (hle : b.timePerBurst ≤ now) :
    consume b now time tokens =
      if (max (now-b.timePerBurst) time+timeNeeded b tokens)%2^64 > now then none
      else some ((max (now-b.timePerBurst) time+timeNeeded b tokens)%2^64) := by
  have hmin : (now+2^64-b.timePerBurst)%2^64 = now-b.timePerBurst := by omega
  have hmax : (if now-b.timePerBurst > time then now-b.timePerBurst else time) =
      max (now-b.timePerBurst) time := by
    split <;> omega
  have hmod := Nat.add_mod_mod (max (now-b.timePerBurst) time) (timeNeeded b tokens) (2^64)
  simp only [consume,hmin,hmax,← hmod]
  rfl

/-- Before that the subtraction wraps to a time far ahead of `time_`. -/
theorem consume_of_lt_burst (b : Bucket) (now time tokens : ℕ) (hlt : now < b.timePerBurst)
    (ht : time ≤ now) :
    consume b now time tokens =
      if (now+2^64-b.timePerBurst+timeNeeded b tokens)%2^64 > now then none
      else some ((now+2^64-b.timePerBurst+timeNeeded b tokens)%2^64) := by
  have hb := b.timePerBurst_lt
  have hmin : (now+2^64-b.timePerBurst)%2^64 = now+2^64-b.timePerBurst := by omega
  have hstart : (if now+2^64-b.timePerBurst > time then now+2^64-b.timePerBurst else time) =
      now+2^64-b.timePerBurst := if_pos (by omega)
  have hmod := Nat.add_mod_mod (now+2^64-b.timePerBurst) (timeNeeded b tokens) (2^64)
  simp only [consume,hmin,hstart,← hmod]
  rfl

/-- As long as the clock has not reached the burst, every call for a whole burst
is granted, whatever has been granted before. -/
theorem consume_burst_early (b : Bucket) (now time tokens : ℕ) (hlt : now < b.timePerBurst)
    (ht : time ≤ now) (hneeded : timeNeeded b tokens = b.timePerBurst) :
    consume b now time tokens = some now := by
  have hb := b.timePerBurst_lt
  have hsum : (now+2^64-b.timePerBurst+b.timePerBurst)%2^64 = now := by omega
  rw [consume_of_lt_burst b now time tokens hlt ht,hneeded,hsum,if_neg (lt_irrefl now)]

theorem consumeUnbounded_eq (b : Bucket) (now time tokens : ℕ) :
    consumeUnbounded b now time tokens =
      if max (now-b.timePerBurst) time+timeNeeded b tokens ≤ now then
        some ((max (now-b.timePerBurst) time+timeNeeded b tokens : ℕ) : ℤ) else none := by
  have hstart : VirtualSchedule.start (b.timePerBurst : ℤ) time now =
      (max (now-b.timePerBurst) time : ℕ) := by
    simp only [VirtualSchedule.start]
    omega
  simp only [consumeUnbounded,VirtualSchedule.allow,hstart]
  norm_cast

theorem decision_eq_iff (n m now : ℕ) :
    Option.map (fun t : ℕ => (t : ℤ)) (if n > now then none else some n) =
      (if m ≤ now then some (m : ℤ) else none) ↔ (m ≤ now ∧ n = m) ∨ (now < m ∧ now < n) := by
  by_cases hn : n > now
  · by_cases hm : m ≤ now
    · simp only [if_pos hn,if_pos hm,Option.map_none,reduceCtorEq,false_iff]
      omega
    · simp only [if_pos hn,if_neg hm,Option.map_none,true_iff]
      omega
  · by_cases hm : m ≤ now
    · simp only [if_neg hn,if_pos hm,Option.map_some,Option.some.injEq]
      omega
    · simp only [if_neg hn,if_neg hm,Option.map_some,reduceCtorEq,false_iff]
      omega

/-- A computation that stays in the range is the schedule. -/
theorem consume_exact (b : Bucket) (now time tokens : ℕ) (hle : b.timePerBurst ≤ now)
    (hsum : max (now-b.timePerBurst) time+timeNeeded b tokens < 2^64) (hnow : now < 2^64) :
    Agrees b now time tokens := by
  rw [Agrees,consumeUnbounded_eq,consume_of_burst_le b now time tokens hnow hle,decision_eq_iff,
    Nat.mod_eq_of_lt hsum]
  omega

/-- Where the clock has passed the burst, the computation is right when the sum of the start and
the product modulo `2^64` stays in the range and the product did not wrap, or wrapped to a time the
clock has not reached. Before that it is right only for a call the schedule refuses, when the
product modulo `2^64` leaves the wrapped start ahead of the clock or carries the sum past it. -/
theorem agrees_iff (b : Bucket) (now time tokens : ℕ) (hnow : now < 2^64)
    (ht : Reachable b now time) :
    Agrees b now time tokens ↔
      (b.timePerBurst ≤ now ∧
        timeNeeded b tokens%2^64+max (now-b.timePerBurst) time < 2^64 ∧
        (timeNeeded b tokens < 2^64 ∨
          now < max (now-b.timePerBurst) time+timeNeeded b tokens%2^64)) ∨
      (now < b.timePerBurst ∧ now < time+timeNeeded b tokens ∧
        (timeNeeded b tokens%2^64+now < b.timePerBurst ∨
          b.timePerBurst < timeNeeded b tokens%2^64)) := by
  have hle := time_le_of_reachable b now time ht
  have hb := b.timePerBurst_lt
  have hlt : timeNeeded b tokens%2^64 < 2^64 := Nat.mod_lt _ (by decide)
  rw [Agrees,consumeUnbounded_eq]
  by_cases hburst : b.timePerBurst ≤ now
  · have hstart : max (now-b.timePerBurst) time ≤ now := by omega
    rw [consume_of_burst_le b now time tokens hnow hburst,decision_eq_iff]
    generalize max (now-b.timePerBurst) time = start at hstart ⊢
    generalize timeNeeded b tokens = needed at hlt ⊢
    omega
  · -- A grant of the schedule lies a burst above what the wrapped sum gives.
    have hmax : max (now-b.timePerBurst) time = time := by omega
    rw [consume_of_lt_burst b now time tokens (not_le.mp hburst) hle,decision_eq_iff,hmax]
    generalize timeNeeded b tokens = needed at hlt ⊢
    omega

/-- A day after boot a fresh bucket for 8 Mbit/s grants one byte, as it should. -/
theorem agrees_after_a_day :
    Reachable (create 1000000 burstPerQp) 432000000000000 0 ∧
      Agrees (create 1000000 burstPerQp) 432000000000000 0 1 :=
  ⟨reachable_zero _ _,(agrees_iff _ 432000000000000 0 1 (by decide) (reachable_zero _ _)).mpr
    (.inl (by decide))⟩

/-- The default bucket grants a whole burst in the first microsecond after boot,
where the schedule has it wait. A bucket for 8 bit/s grants a length of 3689348815
bytes at once, since the product wraps to a small number. -/
theorem wraps_grant :
    (Reachable (create maxQpRateLimit burstPerQp) 5000 0 ∧
      ¬Agrees (create maxQpRateLimit burstPerQp) 5000 0 4000000) ∧
    (Reachable (create 1 burstPerQp) 100000000000000000 0 ∧
      ¬Agrees (create 1 burstPerQp) 100000000000000000 0 3689348815) :=
  ⟨⟨reachable_zero _ _,by decide⟩,⟨reachable_zero _ _,by decide⟩⟩

/-!
## Waiting for tokens

The router asks again until `consume` grants the length of an entry. Waiting
helps up to one burst and no further, since the start of a request follows the
clock from then on.
-/

/-- The bucket of a new QP by the value of `RATE_LIMIT_<client>`; none where the
constructor divides by zero. -/
def createQp (rateLimit : Option ℕ) : Option Bucket :=
  match rateLimit with
  | none => some (create maxQpRateLimit burstPerQp)
  | some bits => if bits/8 = 0 then none else some (create (bits/8) burstPerQp)

theorem create_timePerBurst (rate : ℕ) : (create rate burstPerQp).timePerBurst =
    burstPerQp*(create rate burstPerQp).timePerToken := by
  have hdiv : 5000000000/rate ≤ 5000000000 := Nat.div_le_self _ _
  simp only [create,burstPerQp]
  omega

theorem timePerBurst_of_createQp (rateLimit : Option ℕ) (b : Bucket)
    (h : createQp rateLimit = some b) : b.timePerBurst = burstPerQp*b.timePerToken := by
  cases rateLimit with
  | none =>
    obtain rfl : create maxQpRateLimit burstPerQp = b := Option.some.inj h
    exact create_timePerBurst _
  | some bits =>
    simp only [createQp,Option.ite_none_left_eq_some,Option.some.injEq] at h
    exact h.2 ▸ create_timePerBurst _

/-- From some clock value on, of those below `limit`, the call is granted. -/
def EventuallyGranted (b : Bucket) (time length limit : ℕ) : Prop :=
  ∃ t < limit, ∀ now, t ≤ now → now < limit → (consume b now time length).isSome

/-- A burst after the last grant, the decision depends on the needed time and
the burst alone, up to the wrap of the sum. -/
theorem consume_isSome_iff (b : Bucket) (now time tokens : ℕ) (hnow : now < 2^64)
    (ht : time+b.timePerBurst ≤ now) :
    (consume b now time tokens).isSome ↔ timeNeeded b tokens%2^64 ≤ b.timePerBurst ∨
      2^64 ≤ now-b.timePerBurst+timeNeeded b tokens%2^64 := by
  have hmax : max (now-b.timePerBurst) time = now-b.timePerBurst := by omega
  rw [consume_of_burst_le b now time tokens hnow (by omega),hmax,← Nat.add_mod_mod]
  have hlt : timeNeeded b tokens%2^64 < 2^64 := Nat.mod_lt _ (by decide)
  generalize timeNeeded b tokens%2^64 = needed at hlt ⊢
  split
  · simp only [Option.isSome_none,Bool.false_eq_true,false_iff]
    omega
  · simp only [Option.isSome_some,true_iff]
    omega

/-- A length gets its tokens in time exactly when it needs no more than a
burst, or when the sum wraps at the last clock values. -/
theorem eventuallyGranted_iff (rateLimit : Option ℕ) (b : Bucket)
    (hb : createQp rateLimit = some b) (clock time length limit : ℕ) (hlimit : limit ≤ 2^64)
    (hclock : clock+b.timePerBurst < limit) (ht : Reachable b clock time) :
    EventuallyGranted b time length limit ↔
      length*b.timePerToken%2^64 ≤ burstPerQp*b.timePerToken ∨
      2^64 ≤ limit-1-burstPerQp*b.timePerToken+length*b.timePerToken%2^64 := by
  have htime := time_le_of_reachable b clock time ht
  rw [← timePerBurst_of_createQp rateLimit b hb]
  constructor
  · rintro ⟨t,hlt,hall⟩
    exact (consume_isSome_iff b (limit-1) time length (by omega) (by omega)).mp
      (hall (limit-1) (by omega) (by omega))
  · rintro (hle | hwrap)
    · refine ⟨clock+b.timePerBurst,hclock,fun now hfrom hnow => ?_⟩
      exact (consume_isSome_iff b now time length (by omega) (by omega)).mpr (.inl hle)
    · refine ⟨limit-1,by omega,fun now hfrom hnow => ?_⟩
      obtain rfl : now = limit-1 := by omega
      exact (consume_isSome_iff b (limit-1) time length (by omega) (by omega)).mpr (.inr hwrap)

/-- The default bucket grants a whole burst; 2^63 is 58 years after boot. -/
theorem eventuallyGranted_burst :
    createQp none = some (create maxQpRateLimit burstPerQp) ∧
      Reachable (create maxQpRateLimit burstPerQp) 0 0 ∧
      EventuallyGranted (create maxQpRateLimit burstPerQp) 0 4000000 (2^63) :=
  ⟨rfl,reachable_zero _ _,(eventuallyGranted_iff none _ rfl 0 0 4000000 (2^63) (by decide) (by decide)
    (reachable_zero _ _)).mpr (.inl (by decide))⟩

/-- One byte more than a burst is refused for as long as the router runs. -/
theorem not_eventuallyGranted :
    createQp none = some (create maxQpRateLimit burstPerQp) ∧
      Reachable (create maxQpRateLimit burstPerQp) 0 0 ∧
      ¬EventuallyGranted (create maxQpRateLimit burstPerQp) 0 4000001 (2^63) := by
  refine ⟨rfl,reachable_zero _ _,fun ⟨t,hlt,hall⟩ => ?_⟩
  have hgrant := hall (2^63-1) (by omega) (by decide)
  exact absurd hgrant (by decide)

end FreeFlow.BucketArithmetic
