import Mathlib.Algebra.GroupWithZero.Nat
import Mathlib.Data.Int.Notation

/-!
# A loop that reads until it has all bytes

The loop asks a stream for the bytes that are missing and adds what it got. A
negative result ends it. A result of 0 is the end of the stream, and every
later result is 0 as well.

The loop is run with fuel, one unit for each read. It returns when some fuel is
enough.
-/

set_option autoImplicit false

namespace ReadLoop

/-- The results of one read after the other. -/
structure Source where
  count : ℕ → ℤ
  eof : ∀ n, count n = 0 → count (n+1) = 0

/-- How a loop ends, with the number of the next read. -/
inductive Outcome
  | complete (next : ℕ)
  | failed (next : ℕ)
  deriving DecidableEq

namespace Source

variable (r : Source)

def readLoop (size : ℤ) : ℕ → ℤ → ℕ → Option Outcome
  | 0, bytes, i => if bytes < size then none else some (.complete i)
  | fuel+1, bytes, i =>
    if bytes < size then
      if r.count i < 0 then some (.failed (i+1)) else readLoop size fuel (bytes+r.count i) (i+1)
    else some (.complete i)

/-- The bytes of `n` reads from the `i`-th on. -/
def received : ℕ → ℕ → ℤ
  | _, 0 => 0
  | i, n+1 => r.count i+received (i+1) n

/-- The stream ends before the loop has its bytes. -/
def Stalls (size bytes : ℤ) (i : ℕ) : Prop :=
  ∃ n, r.count (i+n) = 0 ∧ (∀ k < n, 0 < r.count (i+k)) ∧ bytes+r.received i n < size

/-- The loop has its bytes after `n` reads. -/
def Completes (size bytes : ℤ) (i n : ℕ) : Prop :=
  size ≤ bytes+r.received i n ∧ ∀ k < n, 0 ≤ r.count (i+k) ∧ bytes+r.received i k < size

variable {r} {size : ℤ}

theorem readLoop_of_done (fuel : ℕ) (bytes : ℤ) (i : ℕ) (h : ¬bytes < size) :
    r.readLoop size fuel bytes i = some (.complete i) := by
  cases fuel <;> exact if_neg h

theorem readLoop_succ (fuel : ℕ) (bytes : ℤ) (i : ℕ) (h : bytes < size) (hcount : 0 ≤ r.count i) :
    r.readLoop size (fuel+1) bytes i = r.readLoop size fuel (bytes+r.count i) (i+1) := by
  rw [readLoop,if_pos h,if_neg (by omega)]

theorem readLoop_mono (fuel more : ℕ) (bytes : ℤ) (i : ℕ) (o : Outcome)
    (h : r.readLoop size fuel bytes i = some o) : r.readLoop size (fuel+more) bytes i = some o := by
  induction fuel generalizing bytes i with
  | zero =>
    by_cases hlt : bytes < size
    · rw [readLoop,if_pos hlt] at h
      cases h
    · rwa [readLoop_of_done _ _ _ hlt] at h ⊢
  | succ fuel ih =>
    rw [Nat.add_right_comm]
    by_cases hlt : bytes < size
    · rw [readLoop,if_pos hlt] at h ⊢
      split at h
      · rwa [if_pos ‹_›]
      · rw [if_neg ‹_›]
        exact ih _ _ h
    · rwa [readLoop_of_done _ _ _ hlt] at h ⊢

theorem readLoop_eof (fuel : ℕ) (bytes : ℤ) (i : ℕ) (h : bytes < size) (heof : r.count i = 0) :
    r.readLoop size fuel bytes i = none := by
  induction fuel generalizing i with
  | zero => exact if_pos h
  | succ fuel ih =>
    rw [readLoop_succ fuel bytes i h (Int.le_of_eq heof.symm),heof,Int.add_zero]
    exact ih (i+1) (r.eof i heof)

/-- Splitting off the first read. -/
theorem stalls_iff (bytes : ℤ) (i : ℕ) : r.Stalls size bytes i ↔
    (r.count i = 0 ∧ bytes < size) ∨
      0 < r.count i ∧ r.Stalls size (bytes+r.count i) (i+1) := by
  constructor
  · rintro ⟨n,heof,hpos,hless⟩
    cases n with
    | zero =>
      rw [received,Int.add_zero] at hless
      exact .inl ⟨heof,hless⟩
    | succ n =>
      rw [received,← Int.add_assoc] at hless
      refine .inr ⟨hpos 0 (by omega),n,?_,fun k hk => ?_,hless⟩
      · rwa [Nat.add_right_comm]
      · rw [Nat.add_right_comm]
        exact hpos (k+1) (by omega)
  · rintro (⟨heof,hless⟩ | ⟨hfirst,n,heof,hpos,hless⟩)
    · exact ⟨0,heof,nofun,by rwa [received,Int.add_zero]⟩
    · refine ⟨n+1,?_,fun k hk => ?_,?_⟩
      · rwa [Nat.add_right_comm] at heof
      · cases k with
        | zero => exact hfirst
        | succ k =>
          have hk' := hpos k (by omega)
          rwa [Nat.add_right_comm] at hk'
      · rwa [received,← Int.add_assoc]

theorem Stalls.lt {bytes : ℤ} {i : ℕ} (h : r.Stalls size bytes i) : bytes < size := by
  obtain ⟨n,heof,hpos,hless⟩ := h
  induction n generalizing bytes i with
  | zero => rwa [received,Int.add_zero] at hless
  | succ n ih =>
    have hfirst : 0 < r.count i := hpos 0 (by omega)
    have hrest : bytes+r.count i < size := by
      apply ih (i := i+1)
      · rwa [Nat.add_right_comm]
      · intro k hk
        rw [Nat.add_right_comm]
        exact hpos (k+1) (by omega)
      · rwa [received,← Int.add_assoc] at hless
    omega

theorem readLoop_stalled (fuel : ℕ) (bytes : ℤ) (i : ℕ) (h : r.Stalls size bytes i) :
    r.readLoop size fuel bytes i = none := by
  induction fuel generalizing bytes i with
  | zero => exact if_pos h.lt
  | succ fuel ih =>
    rcases (stalls_iff bytes i).mp h with ⟨heof,hless⟩ | ⟨hfirst,hrest⟩
    · exact readLoop_eof (fuel+1) bytes i hless heof
    · rw [readLoop_succ fuel bytes i h.lt (Int.le_of_lt hfirst)]
      exact ih _ _ hrest

/-- The missing bytes decrease with every read that is not the last one. -/
theorem readLoop_returns (bytes : ℤ) (i : ℕ) (h : ¬r.Stalls size bytes i) :
    ∃ fuel o, r.readLoop size fuel bytes i = some o := by
  induction hmissing : (size-bytes).toNat using Nat.strongRecOn generalizing bytes i with
  | ind missing ih =>
    by_cases hlt : bytes < size
    · rw [stalls_iff] at h
      by_cases hneg : r.count i < 0
      · exact ⟨1,.failed (i+1),by rw [readLoop,if_pos hlt,if_pos hneg]⟩
      · have hmore : r.count i ≠ 0 := fun heof => h (.inl ⟨heof,hlt⟩)
        have hfirst : 0 < r.count i := by omega
        obtain ⟨fuel,o,ho⟩ := ih _ (by omega) (bytes+r.count i) (i+1)
          (fun hrest => h (.inr ⟨hfirst,hrest⟩)) rfl
        exact ⟨fuel+1,o,by rw [readLoop_succ fuel bytes i hlt (Int.le_of_lt hfirst),ho]⟩
    · exact ⟨0,.complete i,readLoop_of_done 0 bytes i hlt⟩

theorem returns_iff (bytes : ℤ) (i : ℕ) :
    (∃ fuel o, r.readLoop size fuel bytes i = some o) ↔ ¬r.Stalls size bytes i := by
  constructor
  · rintro ⟨fuel,o,ho⟩ h
    rw [readLoop_stalled fuel bytes i h] at ho
    cases ho
  · exact readLoop_returns bytes i

theorem readLoop_complete_iff (bytes : ℤ) (i m : ℕ) :
    (∃ fuel, r.readLoop size fuel bytes i = some (.complete m)) ↔
      ∃ n, m = i+n ∧ r.Completes size bytes i n := by
  constructor
  · rintro ⟨fuel,h⟩
    induction fuel generalizing bytes i with
    | zero =>
      by_cases hlt : bytes < size
      · rw [readLoop,if_pos hlt] at h
        cases h
      · rw [readLoop_of_done _ _ _ hlt] at h
        cases h
        exact ⟨0,rfl,by rw [received]; omega,nofun⟩
    | succ fuel ih =>
      by_cases hlt : bytes < size
      · rw [readLoop,if_pos hlt] at h
        split at h
        · cases h
        · obtain ⟨n,rfl,henough,hbefore⟩ := ih _ _ h
          refine ⟨n+1,by omega,by rw [received]; omega,fun k hk => ?_⟩
          cases k with
          | zero => exact ⟨by rw [Nat.add_zero]; omega,by rwa [received,Int.add_zero]⟩
          | succ k =>
            obtain ⟨hcount,hless⟩ := hbefore k (by omega)
            rw [Nat.add_right_comm] at hcount
            exact ⟨hcount,by rw [received]; omega⟩
      · rw [readLoop_of_done _ _ _ hlt] at h
        cases h
        exact ⟨0,rfl,by rw [received]; omega,nofun⟩
  · rintro ⟨n,rfl,henough,hbefore⟩
    induction n generalizing bytes i with
    | zero =>
      rw [received,Int.add_zero] at henough
      exact ⟨0,readLoop_of_done 0 bytes i (by omega)⟩
    | succ n ih =>
      obtain ⟨hcount,hless⟩ := hbefore 0 (by omega)
      rw [received,Int.add_zero] at hless
      rw [received,← Int.add_assoc] at henough
      obtain ⟨fuel,h⟩ := ih (bytes+r.count i) (i+1) henough fun k hk => by
        have hk' := hbefore (k+1) (by omega)
        rwa [received,← Int.add_assoc,← Nat.add_assoc,Nat.add_right_comm] at hk'
      refine ⟨fuel+1,?_⟩
      rw [readLoop_succ fuel bytes i hless hcount,h,Nat.add_right_comm,Nat.add_assoc]

/-- A stream that ends after the given reads. -/
def ofCounts (counts : List ℕ) (hpos : ∀ c ∈ counts, 0 < c) : Source where
  count n := (counts[n]?.getD 0 : ℕ)
  eof n h := by
    cases hn : counts[n]? with
    | some c =>
      have hc := hpos c (List.mem_of_getElem? hn)
      simp [hn] at h
      omega
    | none =>
      have hlen := List.getElem?_eq_none_iff.mp hn
      rw [List.getElem?_eq_none (by omega)]
      rfl

theorem received_eq_sum (counts : List ℕ) (i : ℕ)
    (h : ∀ k, r.count (i+k) = (counts[k]?.getD 0 : ℕ)) :
    r.received i counts.length = counts.sum := by
  induction counts generalizing i with
  | nil => rfl
  | cons c counts ih =>
    have hfirst : r.count i = c := h 0
    have hrest := ih (i+1) fun k => by
      rw [Nat.add_right_comm]
      exact h (k+1)
    rw [List.length_cons,received,hfirst,hrest,List.sum_cons]
    rfl

theorem ofCounts_stalls (counts : List ℕ) (hpos : ∀ c ∈ counts, 0 < c)
    (hless : (counts.sum : ℤ) < size) : (ofCounts counts hpos).Stalls size 0 0 := by
  refine ⟨counts.length,?_,fun k hk => ?_,?_⟩
  · simp [ofCounts]
  · have hc := hpos counts[k] (List.getElem_mem hk)
    simpa [ofCounts,hk] using hc
  · rw [received_eq_sum counts 0 fun k => by rw [Nat.zero_add]; rfl,Int.zero_add]
    exact hless

end Source

end ReadLoop
