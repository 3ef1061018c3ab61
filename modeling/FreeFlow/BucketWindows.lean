import FreeFlow.BucketArithmetic
import FreeFlow.Runs
import Mathlib.Algebra.BigOperators.Ring.List
import Mathlib.Algebra.Order.Ring.Nat
import Mathlib.Tactic.Ring

/-!
# Token bucket windows

A window is the part of a sequence of calls between two of them. As long as the
arithmetic stays in range the bucket is a virtual schedule, so a window is
granted no more than its length and one burst, whatever was granted before it.

How many bytes that is depends on the two divisions that turn a configured
rate into the time of one token.
-/

set_option autoImplicit false

namespace FreeFlow.BucketWindows

open TokenBucket BucketArithmetic

/-- The tokens each call of a sequence gets; a refused call gets none. -/
def granted (b : Bucket) : ℕ → List Call → List ℕ
  | _, [] => []
  | time, c::cs =>
    (if (consume b c.now time c.tokens).isSome then c.tokens else 0)::
      granted b (timeAfter b time c) cs

/-- The tokens granted to the calls from the `i`-th to the `j`-th. -/
def window (b : Bucket) (time : ℕ) (calls : List Call) (i j : ℕ) : List ℕ :=
  ((granted b time calls).drop i).take (j+1-i)

/-- Neither the product nor `newTime` overflows. -/
def InRange (b : Bucket) (time : ℕ) (c : Call) : Prop :=
  timeNeeded b c.tokens < 2^64 ∧
    max (c.now-b.timePerBurst) time+timeNeeded b c.tokens < 2^64

/-- Calls at clock values that do not decrease and are never below the burst,
with no overflow on the way. -/
structure Regular (b : Bucket) (time : ℕ) (calls : List Call) : Prop where
  clock : (calls.map Call.now).Pairwise (· ≤ ·)
  burst : ∀ c ∈ calls, b.timePerBurst ≤ c.now
  inRange : Runs.Along (fun t c => some (timeAfter b t c)) (InRange b) time calls

def request (b : Bucket) (c : Call) : VirtualSchedule.Request ℤ := ⟨c.now,timeNeeded b c.tokens⟩

variable {b : Bucket} {time : ℕ} {calls : List Call}

theorem agrees_of_inRange (c : Call) (hburst : b.timePerBurst ≤ c.now) (h : InRange b time c) :
    Option.map (fun t : ℕ => (t : ℤ)) (consume b c.now time c.tokens) =
      VirtualSchedule.allow (b.timePerBurst : ℤ) time (request b c) :=
  consume_exact b c.now time c.tokens hburst h.2 c.now_lt

theorem timeAfter_eq_next (c : Call) (hburst : b.timePerBurst ≤ c.now) (h : InRange b time c) :
    (timeAfter b time c : ℤ) = VirtualSchedule.next (b.timePerBurst : ℤ) time (request b c) := by
  rw [VirtualSchedule.next,← agrees_of_inRange c hburst h,timeAfter]
  cases consume b c.now time c.tokens <;> rfl

theorem charge_eq (c : Call) (hburst : b.timePerBurst ≤ c.now) (h : InRange b time c) :
    VirtualSchedule.charge (b.timePerBurst : ℤ) time (request b c) =
      (((if (consume b c.now time c.tokens).isSome then c.tokens else 0)*b.timePerToken : ℕ) : ℤ) := by
  rw [VirtualSchedule.charge,← agrees_of_inRange c hburst h,Option.isSome_map]
  split
  · rfl
  · simp

theorem regular_tail {c : Call} (h : Regular b time (c::calls)) :
    Regular b (timeAfter b time c) calls :=
  ⟨(List.pairwise_cons.mp h.clock).2,(List.forall_mem_cons.mp h.burst).2,h.inRange.2 _ rfl⟩

/-- A regular sequence is granted what the schedule grants. -/
theorem granted_eq (h : Regular b time calls) :
    VirtualSchedule.granted (b.timePerBurst : ℤ) time (calls.map (request b)) =
      (((granted b time calls).sum*b.timePerToken : ℕ) : ℤ) := by
  induction calls generalizing time with
  | nil => simp [VirtualSchedule.granted,granted]
  | cons c cs ih =>
    have hb := List.forall_mem_cons.mp h.burst
    rw [List.map_cons,VirtualSchedule.granted,← timeAfter_eq_next c hb.1 h.inRange.1,
      ih (regular_tail h),charge_eq c hb.1 h.inRange.1,granted,List.sum_cons,Nat.add_mul]
    exact (Nat.cast_add _ _).symm

theorem regular_take (h : Regular b time calls) (k : ℕ) : Regular b time (calls.take k) := by
  refine ⟨?_,fun c hc => h.burst c (List.mem_of_mem_take hc),
    Runs.along_take _ _ time calls k h.inRange⟩
  rw [List.map_take]
  exact h.clock.sublist (List.take_sublist _ _)

theorem granted_take (k : ℕ) : granted b time (calls.take k) = (granted b time calls).take k := by
  induction calls generalizing time k with
  | nil => simp [granted]
  | cons c cs ih =>
    cases k with
    | zero => rfl
    | succ k => simp only [List.take_succ_cons,granted,ih]

theorem clock_le (h : Regular b time calls) (i k : ℕ) (hik : i ≤ k) (hk : k < calls.length) :
    calls[i].now ≤ calls[k].now := by
  rcases Nat.lt_or_eq_of_le hik with hlt | rfl
  · have hpair := List.pairwise_iff_getElem.mp h.clock i k (by simpa using hlt.trans hk)
      (by simpa using hk) hlt
    simpa using hpair
  · exact le_refl _

/-- The bound for the calls up to the `j`-th. -/
theorem sum_take_le (h : Regular b time calls) (j : ℕ) (hj : j < calls.length) :
    ((granted b time calls).take (j+1)).sum*b.timePerToken ≤
      calls[j].now-calls[0].now+b.timePerBurst := by
  have hbetween : ∀ c ∈ calls.take (j+1), calls[0].now ≤ c.now ∧ c.now ≤ calls[j].now := by
    intro c hc
    obtain ⟨k,hk,rfl⟩ := List.mem_take_iff_getElem.mp hc
    exact ⟨clock_le h 0 k (Nat.zero_le _) (by omega),clock_le h k j (by omega) hj⟩
  have hle := @VirtualSchedule.granted_le ℤ _ _ b.timePerBurst time _ calls[0].now calls[j].now
    ((calls.take (j+1)).map (request b)) (by have := clock_le h 0 j (Nat.zero_le _) hj; omega)
    (List.forall_mem_map.mpr fun c hc => Int.ofNat_le.mpr (hbetween c hc).1)
    (List.forall_mem_map.mpr fun c hc => Int.ofNat_le.mpr (hbetween c hc).2)
  rw [granted_eq (regular_take h (j+1)),granted_take] at hle
  have hfirst := clock_le h 0 j (Nat.zero_le _) hj
  omega

theorem sum_window_le (h : Regular b time calls) (i j : ℕ) (hij : i ≤ j)
    (hj : j < calls.length) :
    (window b time calls i j).sum*b.timePerToken ≤
      calls[j].now-calls[i].now+b.timePerBurst := by
  induction i generalizing time calls j with
  | zero => exact sum_take_le h j hj
  | succ i ih =>
    cases calls with
    | nil => exact absurd hj (Nat.not_lt_zero j)
    | cons c cs =>
      obtain ⟨j,rfl⟩ : ∃ k, j = k+1 := ⟨j-1,by omega⟩
      have hwindow : window b time (c::cs) (i+1) (j+1) = window b (timeAfter b time c) cs i j := by
        simp only [window,granted,List.drop_succ_cons,Nat.add_sub_add_right]
      rw [hwindow]
      exact ih (regular_tail h) j (by omega) (by simpa using hj)

/-- A fresh bucket that is asked for a burst as soon as the clock allows it, and
for another one a burst later. -/
def twoBursts (b : Bucket) (h : 2*b.timePerBurst < 2^64) : List Call :=
  [⟨b.timePerBurst,burstPerQp,b.timePerBurst_lt⟩,⟨2*b.timePerBurst,burstPerQp,h⟩]

theorem consume_second_burst (h : 2*b.timePerBurst < 2^64)
    (hburst : b.timePerBurst = burstPerQp*b.timePerToken) :
    consume b (2*b.timePerBurst) b.timePerBurst burstPerQp = some (2*b.timePerBurst) := by
  have hsum : (max (2*b.timePerBurst-b.timePerBurst) b.timePerBurst+timeNeeded b burstPerQp)%2^64 =
      2*b.timePerBurst := by
    rw [timeNeeded,← hburst]
    omega
  rw [consume_of_burst_le b _ _ _ h (by omega),hsum,if_neg (lt_irrefl _)]

theorem twoBursts_granted (h : 2*b.timePerBurst < 2^64)
    (hburst : b.timePerBurst = burstPerQp*b.timePerToken) :
    granted b 0 (twoBursts b h) = [burstPerQp,burstPerQp] := by
  have hfirst := consume_burst b burstPerQp hburst.ge
  rw [← hburst] at hfirst
  simp [twoBursts,granted,timeAfter,hfirst,consume_second_burst h hburst]

/-- A call for a whole burst stays in range where its end does. -/
theorem inRange_burst (hburst : b.timePerBurst = burstPerQp*b.timePerToken) (time now : ℕ)
    (hnow : now < 2^64) (hsum : max (now-b.timePerBurst) time+b.timePerBurst < 2^64) :
    InRange b time ⟨now,burstPerQp,hnow⟩ := by
  have hneeded : timeNeeded b burstPerQp = b.timePerBurst := hburst.symm
  constructor
  · rw [hneeded]
    exact b.timePerBurst_lt
  · rw [hneeded]
    exact hsum

theorem twoBursts_regular (h : 2*b.timePerBurst < 2^64)
    (hburst : b.timePerBurst = burstPerQp*b.timePerToken) : Regular b 0 (twoBursts b h) := by
  have hfirst := consume_burst b burstPerQp hburst.ge
  rw [← hburst] at hfirst
  have hlt := b.timePerBurst_lt
  have hle : b.timePerBurst ≤ 2*b.timePerBurst := by omega
  refine ⟨List.pairwise_pair.mpr hle,?_,inRange_burst hburst _ _ _ (by omega),fun t ht => ?_⟩
  · exact List.forall_mem_cons.mpr ⟨le_refl _,List.forall_mem_singleton.mpr hle⟩
  · obtain rfl : timeAfter b 0 ⟨b.timePerBurst,burstPerQp,b.timePerBurst_lt⟩ = t := Option.some.inj ht
    simp only [timeAfter,hfirst,Option.getD_some]
    exact ⟨inRange_burst hburst _ _ _ (by omega),fun _ _ => trivial⟩

/-- In every window of a regular sequence the granted time is at most the length
of the window and one burst. -/
theorem granted_time_le (b : Bucket) (time : ℕ) (calls : List Call) (h : Regular b time calls)
    (i j : ℕ) (hij : i ≤ j) (hj : j < calls.length) :
    ((window b time calls i j).map (fun tokens => tokens*b.timePerToken)).sum ≤
      (calls[j].now-calls[i].now)+b.timePerBurst := by
  rw [List.sum_map_mul_right]
  simpa using sum_window_le h i j hij hj

/-- The default bucket reaches the bound with its second burst. -/
theorem granted_time_le_twoBursts :
    Regular (create maxQpRateLimit burstPerQp) 0
        (twoBursts (create maxQpRateLimit burstPerQp) (by decide)) ∧
      ((window (create maxQpRateLimit burstPerQp) 0
        (twoBursts (create maxQpRateLimit burstPerQp) (by decide)) 0 1).map
          (fun tokens => tokens*1)).sum ≤ (8000000-4000000)+4000000 :=
  ⟨twoBursts_regular (by decide) (by decide),granted_time_le (create maxQpRateLimit burstPerQp) 0
    (twoBursts (create maxQpRateLimit burstPerQp) (by decide))
    (twoBursts_regular (by decide) (by decide)) 0 1 (by decide) (by decide)⟩

/-!
## The configured rate
-/

/-- The bucket for a value of the variable exists, and in every window of `T`
microseconds of the sequences in `runs` it grants at most a burst and what the
rate allows, in units of 1/8000000 byte. -/
structure Enforced (runs : Bucket → List Call → Prop) (bits : ℕ) : Prop where
  created : ∃ b, createQp (some bits) = some b
  limited : ∀ b, createQp (some bits) = some b → ∀ calls, runs b calls →
    (∀ c ∈ calls, 5000 ∣ c.now) → ∀ i j T, (hij : i ≤ j) → (hj : j < calls.length) →
    calls[j].now = calls[i].now+5000*T →
    8000000*(window b 0 calls i j).sum ≤ 8000000*burstPerQp+bits*T

/-- All sequences of calls on a fresh bucket. -/
def allRuns (_ : Bucket) (calls : List Call) : Prop := (calls.map Call.now).Pairwise (· ≤ ·)

/-- Those that stay in range. -/
def regularRuns (b : Bucket) (calls : List Call) : Prop := Regular b 0 calls

theorem Enforced.regular {bits : ℕ} (h : Enforced allRuns bits) : Enforced regularRuns bits :=
  ⟨h.created,fun b hb calls hcalls => h.limited b hb calls hcalls.clock⟩

theorem createQp_bits (bits : ℕ) (b : Bucket) (h : createQp (some bits) = some b) :
    8 ≤ bits ∧ b.timePerToken = 5000000000/(bits/8) := by
  simp only [createQp,Option.ite_none_left_eq_some,Option.some.injEq] at h
  obtain ⟨hrate,rfl⟩ := h
  exact ⟨by omega,rfl⟩

theorem timePerToken_pos (bits : ℕ) (b : Bucket) (h : 40000000000 ≤ bits*b.timePerToken) :
    0 < b.timePerToken := by
  rcases Nat.eq_zero_or_pos b.timePerToken with hz | hpos
  · rw [hz] at h
    omega
  · exact hpos

/-- A bucket whose tokens are cheaper than the rate says grants too much with
its second burst. -/
theorem le_of_enforced (bits : ℕ) (b : Bucket) (hb : createQp (some bits) = some b)
    (h : Enforced regularRuns bits) : 40000000000 ≤ bits*b.timePerToken := by
  have hburst := timePerBurst_of_createQp (some bits) b hb
  have htoken : b.timePerToken ≤ 5000000000 :=
    (createQp_bits bits b hb).2 ▸ Nat.div_le_self _ _
  have hscale : b.timePerBurst = 5000*(800*b.timePerToken) := by
    rw [hburst,burstPerQp]
    omega
  have hlt : 2*b.timePerBurst < 2^64 := by omega
  have hbound := h.limited b hb (twoBursts b hlt) (twoBursts_regular hlt hburst)
    (List.forall_mem_cons.mpr ⟨⟨_,hscale⟩,List.forall_mem_singleton.mpr
      ⟨2*(800*b.timePerToken),show 2*b.timePerBurst = _ by omega⟩⟩) 0 1
    (800*b.timePerToken) (by decide) (show 1 < 2 by decide)
    (show 2*b.timePerBurst = b.timePerBurst+5000*(800*b.timePerToken) by omega)
  have hsum : (window b 0 (twoBursts b hlt) 0 1).sum = 8000000 := by
    rw [window,twoBursts_granted hlt hburst]
    rfl
  rw [hsum,burstPerQp,Nat.mul_left_comm] at hbound
  omega

/-- Only rates whose token time makes up for the division by 8 are enforced. -/
theorem enforced_iff (bits : ℕ) :
    Enforced regularRuns bits ↔ 8 ≤ bits ∧ 40000000000 ≤ bits*(5000000000/(bits/8)) := by
  constructor
  · intro h
    obtain ⟨b,hb⟩ := h.created
    obtain ⟨hbits,htoken⟩ := createQp_bits bits b hb
    exact ⟨hbits,htoken ▸ le_of_enforced bits b hb h⟩
  · rintro ⟨hbits,hrate⟩
    have hdiv : bits/8 ≠ 0 := by omega
    refine ⟨⟨_,if_neg hdiv⟩,fun b hb calls hcalls _ i j T hij hj hT => ?_⟩
    rw [← (createQp_bits bits b hb).2] at hrate
    have hwindow := sum_window_le hcalls i j hij hj
    rw [hT,Nat.add_sub_cancel_left,timePerBurst_of_createQp (some bits) b hb] at hwindow
    have hpos := timePerToken_pos bits b hrate
    -- Both sides are multiplied by the time of a token to compare them.
    refine Nat.le_of_mul_le_mul_right ?_ hpos
    calc 8000000*(window b 0 calls i j).sum*b.timePerToken
        = 8000000*((window b 0 calls i j).sum*b.timePerToken) := Nat.mul_assoc _ _ _
      _ ≤ 8000000*(5000*T+burstPerQp*b.timePerToken) := Nat.mul_le_mul_left _ hwindow
      _ = 8000000*burstPerQp*b.timePerToken+40000000000*T := by ring
      _ ≤ 8000000*burstPerQp*b.timePerToken+bits*b.timePerToken*T :=
        Nat.add_le_add_left (Nat.mul_le_mul_right T hrate) _
      _ = (8000000*burstPerQp+bits*T)*b.timePerToken := by ring

/-- Two calls in the first microsecond after boot, each for a burst. -/
def bootBursts : List Call := [⟨5000,burstPerQp,by decide⟩,⟨5000,burstPerQp,by decide⟩]

/-- Before the clock has reached the burst no rate is enforced. -/
theorem bootBursts_granted (rateLimit : Option ℕ) (b : Bucket) (hb : createQp rateLimit = some b)
    (htoken : 0 < b.timePerToken) : granted b 0 bootBursts = [burstPerQp,burstPerQp] := by
  have hburst := timePerBurst_of_createQp rateLimit b hb
  have hlt : 5000 < b.timePerBurst := by
    rw [hburst,burstPerQp]
    omega
  have hfirst := consume_burst_early b 5000 0 burstPerQp hlt (by decide) hburst.symm
  have hsecond := consume_burst_early b 5000 5000 burstPerQp hlt (le_refl _) hburst.symm
  simp [bootBursts,granted,timeAfter,hfirst,hsecond]

/-- So over all sequences of calls no rate is enforced. -/
theorem not_enforced_allRuns (bits : ℕ) : ¬Enforced allRuns bits := by
  intro h
  obtain ⟨b,hb⟩ := h.created
  have hrate := le_of_enforced bits b hb h.regular
  have htoken := timePerToken_pos bits b hrate
  have hbound := h.limited b hb bootBursts (List.pairwise_pair.mpr (le_refl 5000))
    (by decide) 0 1 0 (by decide) (by decide) rfl
  rw [window,bootBursts_granted (some bits) b hb htoken] at hbound
  simp [burstPerQp] at hbound

/-- A rate below 8 bit/s divides by zero. A rate of 24 Gbit/s is enforced as 40
Gbit/s. Above 40 Gbit/s a token costs nothing. The default rate is exceeded in the
first microsecond. -/
theorem rates_not_enforced :
    ¬Enforced regularRuns 7 ∧ ¬Enforced regularRuns 24000000000 ∧
      ¬Enforced regularRuns 40000000008 ∧ ¬Enforced allRuns 40000000000 := by
  refine ⟨fun h => ?_,fun h => ?_,fun h => ?_,not_enforced_allRuns _⟩
  · obtain ⟨b,hb⟩ := h.created
    have hnone : createQp (some 7) = none := rfl
    exact Option.some_ne_none b (hb.symm.trans hnone)
  · exact absurd (le_of_enforced 24000000000 (create 3000000000 burstPerQp) rfl h) (by decide)
  · exact absurd (le_of_enforced 40000000008 (create 5000000001 burstPerQp) rfl h) (by decide)

end FreeFlow.BucketWindows
