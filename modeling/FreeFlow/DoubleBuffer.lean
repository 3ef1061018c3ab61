import Mathlib.Algebra.Order.Group.Nat
import Mathlib.Tactic.Ring

/-!
# A buffer granted in halves

A receiver grants its buffer to a sender one half after the other, first and
second half in turn, and grants a half again only when all that it held has
been read. The sender has two slots for grants, which it fills and spends in
turn too. Positions count bytes from the start of the stream, grants count
halves.
-/

set_option autoImplicit false

namespace DoubleBuffer

/-- `written` and `read` are positions of the stream; `grants` halves were
granted, `arrived` of them are in the slots of the sender or were, and `spent`
of them are full. -/
structure State where
  grants : ℕ
  arrived : ℕ
  spent : ℕ
  written : ℕ
  read : ℕ

structure Inv (h : ℕ) (s : State) : Prop where
  read_le : s.read ≤ s.written
  spent_le : s.spent*h ≤ s.written
  lt_next : s.written < (s.spent+1)*h
  within : s.written ≤ s.arrived*h
  arrived_le : s.arrived ≤ s.grants
  room : s.grants*h ≤ s.read+2*h

variable {h : ℕ} {s : State}

theorem inv_started (hpos : 0 < h) : Inv h ⟨1,1,0,0,0⟩ :=
  ⟨le_rfl,by simp,by simpa using hpos,by simp,le_rfl,by simp only [one_mul]; omega⟩

theorem Inv.pos (i : Inv h s) : 0 < h := by
  by_contra hzero
  obtain rfl : h = 0 := by omega
  have := i.lt_next
  omega

theorem Inv.spent_le_arrived (i : Inv h s) : s.spent ≤ s.arrived := by
  have := i.pos
  have := i.spent_le
  have := i.within
  exact Nat.le_of_mul_le_mul_right (by omega) i.pos

/-- At most two grants are unspent, so that no slot holds more than one. -/
theorem Inv.grants_le (i : Inv h s) : s.grants ≤ s.spent+2 := by
  have hroom := i.room
  have hread := i.read_le
  have hnext := i.lt_next
  have hlt : s.grants*h < (s.spent+3)*h := by
    have : (s.spent+3)*h = (s.spent+1)*h+2*h := by ring
    omega
  have := Nat.lt_of_mul_lt_mul_right hlt
  omega

/-- Nothing unread is further behind than the buffer is long. -/
theorem Inv.written_le (i : Inv h s) : s.written ≤ s.read+2*h := by
  have hwithin := i.within
  have harrived := Nat.mul_le_mul_right h i.arrived_le
  have := i.room
  omega

/-- A half is granted when as much as a half is free. -/
theorem Inv.grant (i : Inv h s) (hfree : s.grants*h+h ≤ s.read+2*h) :
    Inv h {s with grants := s.grants+1} :=
  ⟨i.read_le,i.spent_le,i.lt_next,i.within,Nat.le_succ_of_le i.arrived_le,by
    rw [Nat.add_mul,one_mul]
    exact hfree⟩

theorem Inv.arrive (i : Inv h s) (hlt : s.arrived < s.grants) :
    Inv h {s with arrived := s.arrived+1} :=
  ⟨i.read_le,i.spent_le,i.lt_next,by rw [Nat.add_mul]; have := i.within; show s.written ≤ _; omega,
    hlt,i.room⟩

theorem Inv.read (i : Inv h s) {k : ℕ} (hk : s.read+k ≤ s.written) :
    Inv h {s with read := s.read+k} :=
  ⟨hk,i.spent_le,i.lt_next,i.within,i.arrived_le,by have := i.room; show s.grants*h ≤ s.read+k+2*h; omega⟩

/-- The bytes that fit in the half that is being filled. -/
def left (h : ℕ) (s : State) : ℕ := if s.spent < s.arrived then (s.spent+1)*h-s.written else 0

theorem Inv.lt_arrived (hpos : 0 < left h s) : s.spent < s.arrived := by
  by_contra hge
  rw [left,if_neg hge] at hpos
  omega

/-- Writing `k` bytes; a half that is full is spent. -/
def write (h k : ℕ) (s : State) : State :=
  {s with written := s.written+k,spent := if left h s-k = 0 then s.spent+1 else s.spent}

theorem Inv.write (i : Inv h s) {k : ℕ} (hpos : 0 < left h s) (hk : k ≤ left h s) :
    Inv h (write h k s) := by
  have hlt : s.spent < s.arrived := Inv.lt_arrived hpos
  have hleft : left h s = (s.spent+1)*h-s.written := if_pos hlt
  have hnext := i.lt_next
  have hspent := i.spent_le
  have hwithin : (s.spent+1)*h ≤ s.arrived*h := Nat.mul_le_mul_right h hlt
  have hsucc : (s.spent+1+1)*h = (s.spent+1)*h+h := by ring
  have hread := i.read_le
  have := i.pos
  refine ⟨?_,?_,?_,?_,i.arrived_le,i.room⟩
  · show s.read ≤ s.written+k
    omega
  · show (if left h s-k = 0 then s.spent+1 else s.spent)*h ≤ s.written+k
    by_cases hfull : left h s-k = 0
    · rw [if_pos hfull]
      omega
    · rw [if_neg hfull]
      omega
  · show s.written+k < ((if left h s-k = 0 then s.spent+1 else s.spent)+1)*h
    by_cases hfull : left h s-k = 0
    · rw [if_pos hfull]
      omega
    · rw [if_neg hfull]
      omega
  · show s.written+k ≤ s.arrived*h
    omega

/-- Where the next byte goes: behind what is in the half that is being filled. -/
theorem Inv.offset_eq (i : Inv h s) :
    s.written%(2*h) = s.spent%2*h+(s.written-s.spent*h) := by
  have hle := i.spent_le
  have hlt := i.lt_next
  have hsucc : (s.spent+1)*h = s.spent*h+h := by ring
  have hpos := i.pos
  obtain ⟨r,hr⟩ := Nat.exists_eq_add_of_le hle
  have hdiv : s.spent = 2*(s.spent/2)+s.spent%2 := by omega
  have hsplit : s.written = 2*h*(s.spent/2)+(s.spent%2*h+r) := by
    rw [hr]
    calc s.spent*h+r = (2*(s.spent/2)+s.spent%2)*h+r := by rw [← hdiv]
      _ = 2*h*(s.spent/2)+(s.spent%2*h+r) := by ring
  have hsmall : s.spent%2*h+r < 2*h := by
    have hparity : s.spent%2 = 0 ∨ s.spent%2 = 1 := by omega
    rcases hparity with h0 | h1
    · rw [h0]
      omega
    · rw [h1]
      omega
  rw [show s.written-s.spent*h = r by omega,hsplit,Nat.mul_add_mod,Nat.mod_eq_of_lt hsmall]

/-- What is left of a half goes up to its end. -/
theorem Inv.mod_add_left (i : Inv h s) (hpos : 0 < left h s) : s.written%h+left h s = h := by
  have hle := i.spent_le
  have hlt := i.lt_next
  have hsucc : (s.spent+1)*h = s.spent*h+h := by ring
  obtain ⟨r,hr⟩ := Nat.exists_eq_add_of_le hle
  have hmod : s.written%h = r := by
    rw [hr,Nat.add_comm,Nat.add_mul_mod_self_right,Nat.mod_eq_of_lt (by omega)]
  rw [hmod,left,if_pos (Inv.lt_arrived hpos)]
  omega

/-- Writing less than what is left stays in the half. -/
theorem Inv.offset_add (i : Inv h s) {k : ℕ} (hk : k < left h s) :
    (s.written+k)%(2*h) = s.written%(2*h)+k := by
  have hle := i.spent_le
  have hsucc : (s.spent+1)*h = s.spent*h+h := by ring
  have hparity : s.spent%2*h ≤ h := by
    rcases Nat.mod_two_eq_zero_or_one s.spent with h0 | h1
    · rw [h0]
      omega
    · rw [h1]
      omega
  have hoff := i.offset_eq
  have harrived : s.spent < s.arrived := Inv.lt_arrived (Nat.zero_lt_of_lt hk)
  rw [left,if_pos harrived] at hk
  rw [← Nat.mod_add_mod,Nat.mod_eq_of_lt]
  omega

/-- The offset at which a half starts. -/
theorem half_offset (h g : ℕ) : g*h%(2*h) = g%2*h := Nat.mul_mod_mul_right h g 2

end DoubleBuffer
