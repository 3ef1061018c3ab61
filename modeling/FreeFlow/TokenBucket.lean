import Mathlib.Data.Nat.Notation
import Mathlib.Algebra.Order.Group.Nat

/-!
# Token bucket

A bucket converts tokens to time in units of 1/5 nanosecond. All arithmetic
is that of `uint64_t`.
-/

set_option autoImplicit false

namespace FreeFlow.TokenBucket

/-- `BURST_PER_QP`. -/
def burstPerQp : ℕ := 4000000

/-- `MAX_QP_RATE_LIMIT`. -/
def maxQpRateLimit : ℕ := 5000000000

/-- The two constants of a bucket. -/
structure Bucket where
  timePerToken : ℕ
  timePerBurst : ℕ
  timePerBurst_lt : timePerBurst < 2^64

def create (rate burstSize : ℕ) : Bucket :=
  ⟨5000000000/rate,burstSize*(5000000000/rate)%2^64,Nat.mod_lt _ (by decide)⟩

/-- `consume` at the clock value `now`, alone on the bucket; `time` is the
content of `time_`, the result its new content. -/
def consume (b : Bucket) (now time tokens : ℕ) : Option ℕ :=
  let timeNeeded := tokens*b.timePerToken%2^64
  let minTime := (now+2^64-b.timePerBurst)%2^64
  let newTime := ((if minTime > time then minTime else time)+timeNeeded)%2^64
  if newTime > now then none else some newTime

/-- A fresh bucket grants a burst as soon as the clock shows its time. -/
theorem consume_burst (b : Bucket) (tokens : ℕ)
    (h : tokens*b.timePerToken ≤ b.timePerBurst) :
    consume b b.timePerBurst 0 tokens = some (tokens*b.timePerToken) := by
  have hlt := b.timePerBurst_lt
  have hneeded : tokens*b.timePerToken%2^64 = tokens*b.timePerToken := Nat.mod_eq_of_lt (by omega)
  have hmin : (b.timePerBurst+2^64-b.timePerBurst)%2^64 = 0 := by
    rw [Nat.add_sub_cancel_left,Nat.mod_self]
  simp only [consume,hneeded,hmin,gt_iff_lt,Nat.lt_irrefl,if_false,Nat.zero_add]
  rw [if_neg (by omega)]

end FreeFlow.TokenBucket
