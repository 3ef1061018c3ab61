import Mathlib.Algebra.Order.Group.Basic
import Mathlib.Algebra.Order.Group.MinMax

/-!
# Virtual scheduling

A rate limiter keeps one time: the moment up to which the granted requests
have been paid for. A request starts at that time, or one burst before the
clock where that is later. It is granted if its cost ends by the clock, and
the end of its cost is then the new time.

Times and costs are taken from a linearly ordered group.
-/

set_option autoImplicit false

namespace VirtualSchedule

variable {α : Type*}

/-- A request: the clock at which it is made and what it costs. -/
structure Request (α : Type*) where
  now : α
  cost : α

variable [AddCommGroup α] [LinearOrder α]

def start (burst time now : α) : α := max (now-burst) time

def allow (burst time : α) (r : Request α) : Option α :=
  if start burst time r.now+r.cost ≤ r.now then some (start burst time r.now+r.cost) else none

def next (burst time : α) (r : Request α) : α := (allow burst time r).getD time

/-- What a request adds to the granted cost. -/
def charge (burst time : α) (r : Request α) : α :=
  if (allow burst time r).isSome then r.cost else 0

def schedule (burst : α) : α → List (Request α) → α
  | time, [] => time
  | time, r::rs => schedule burst (next burst time r) rs

/-- The granted cost of the requests of a list. -/
def granted (burst : α) : α → List (Request α) → α
  | _, [] => 0
  | time, r::rs => charge burst time r+granted burst (next burst time r) rs

variable {burst time : α} {r : Request α}

theorem allow_of_le (h : start burst time r.now+r.cost ≤ r.now) :
    allow burst time r = some (start burst time r.now+r.cost) := if_pos h

theorem allow_of_lt (h : r.now < start burst time r.now+r.cost) : allow burst time r = none :=
  if_neg (not_le.mpr h)

/-- What one request does to the time and to the granted cost. -/
theorem next_cases (burst time : α) (r : Request α) :
    (charge burst time r = 0 ∧ next burst time r = time) ∨
    (charge burst time r = r.cost ∧ next burst time r = start burst time r.now+r.cost ∧
      next burst time r ≤ r.now) := by
  by_cases h : start burst time r.now+r.cost ≤ r.now
  · right
    simp [charge,next,allow_of_le h,h]
  · left
    simp [charge,next,allow_of_lt (not_le.mp h)]

/-- Once a request has been granted, the time lies behind the clock. -/
theorem schedule_le_or (upper : α) (rs : List (Request α)) (time : α)
    (h : ∀ r ∈ rs, r.now ≤ upper) :
    schedule burst time rs ≤ upper ∨ (granted burst time rs = 0 ∧ schedule burst time rs = time) := by
  induction rs generalizing time with
  | nil => exact .inr ⟨rfl,rfl⟩
  | cons r rs ih =>
    rw [List.forall_mem_cons] at h
    rw [granted,schedule]
    rcases ih (next burst time r) h.2 with hle | ⟨hz,hs⟩
    · exact .inl hle
    · rcases next_cases burst time r with ⟨hc,hn⟩ | ⟨-,-,hn⟩
      · exact .inr ⟨by rw [hc,hz,add_zero],hs.trans hn⟩
      · exact .inl (hs.trans_le (hn.trans h.1))

variable [IsOrderedAddMonoid α]

/-- A granted request moves the time by its cost at least, from any point
that lies a burst before the clock. -/
theorem charge_le_next (lower : α) (h : lower ≤ r.now-burst) :
    max time lower+charge burst time r ≤ max (next burst time r) lower := by
  rcases next_cases burst time r with ⟨hc,hn⟩ | ⟨hc,hn,-⟩
  · rw [hc,hn,add_zero]
  · rw [hc,hn]
    apply le_max_of_le_left
    apply add_le_add_left
    exact max_le (le_max_right _ _) (h.trans (le_max_left _ _))

theorem granted_le_schedule (lower : α) (rs : List (Request α)) (time : α)
    (h : ∀ r ∈ rs, lower ≤ r.now-burst) :
    max time lower+granted burst time rs ≤ max (schedule burst time rs) lower := by
  induction rs generalizing time with
  | nil => simp [granted,schedule]
  | cons r rs ih =>
    rw [List.forall_mem_cons] at h
    rw [granted,schedule,← add_assoc]
    exact (add_le_add_left (charge_le_next lower h.1) _).trans (ih (next burst time r) h.2)

/-- Whatever the time is at the start, the requests between two values of the
clock are granted no more than the time between them and one burst. -/
theorem granted_le (lower upper : α) (rs : List (Request α)) (hle : lower ≤ upper+burst)
    (hlower : ∀ r ∈ rs, lower ≤ r.now) (hupper : ∀ r ∈ rs, r.now ≤ upper) :
    granted burst time rs ≤ upper-lower+burst := by
  have hfrom := granted_le_schedule (lower-burst) rs time
    fun r hr => sub_le_sub_right (hlower r hr) burst
  rcases schedule_le_or upper rs time hupper with hs | ⟨hz,-⟩
  · have hmax : max (schedule burst time rs) (lower-burst) ≤ upper :=
      max_le hs (sub_le_iff_le_add.mpr hle)
    have hsum : lower-burst+granted burst time rs ≤ upper :=
      (add_le_add_left (le_max_right time _) _).trans (hfrom.trans hmax)
    calc granted burst time rs ≤ upper-(lower-burst) := le_sub_iff_add_le'.mpr hsum
      _ = upper-lower+burst := sub_sub_eq_add_sub upper lower burst |>.trans (add_sub_right_comm _ _ _)
  · rw [hz,← add_sub_right_comm]
    exact sub_nonneg.mpr hle

end VirtualSchedule
