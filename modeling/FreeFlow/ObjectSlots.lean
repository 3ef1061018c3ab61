import Mathlib.Logic.Function.Basic
import Mathlib.Data.List.Basic

/-!
# Slots for objects that are made and destroyed

An object is a number that is given once. A slot holds one object or none, no object
is in two slots, and the objects that were destroyed are remembered. A slot is
live when the object in it, if any, has not been destroyed.
-/

set_option autoImplicit false

namespace ObjectSlots

variable {X : Type*}

structure Slots (X : Type*) where
  slot : X → Option ℕ
  destroyed : List ℕ
  next : ℕ
  unique : ∀ x y o, slot x = some o → slot y = some o → x = y
  slot_lt : ∀ x o, slot x = some o → o < next
  destroyed_lt : ∀ o ∈ destroyed, o < next

theorem empty_unique (x y : X) (o : ℕ) (h : none = some o) (_ : none = some o) : x = y := nomatch h

theorem empty_slot_lt (_ : X) (o : ℕ) (h : none = some o) : o < 0 := nomatch h

theorem empty_destroyed_lt (o : ℕ) (h : o ∈ []) : o < 0 := nomatch h

def empty : Slots X where
  slot _ := none
  destroyed := []
  next := 0
  unique := empty_unique
  slot_lt := empty_slot_lt
  destroyed_lt := empty_destroyed_lt

def Slots.Live (s : Slots X) (x : X) : Prop := ∀ o, s.slot x = some o → o ∉ s.destroyed

/-- The object in a slot is destroyed; the slot keeps it. -/
def Slots.expire (s : Slots X) (x : X) : Slots X where
  slot := s.slot
  destroyed := (s.slot x).toList++s.destroyed
  next := s.next
  unique := s.unique
  slot_lt := s.slot_lt
  destroyed_lt := by
    intro o ho
    rcases List.mem_append.mp ho with ho | ho
    · exact s.slot_lt x o (Option.mem_toList.mp ho)
    · exact s.destroyed_lt o ho

variable [DecidableEq X]

/-- A new object is made and put into a slot. -/
def Slots.create (s : Slots X) (x : X) : Slots X where
  slot := Function.update s.slot x (some s.next)
  destroyed := s.destroyed
  next := s.next+1
  unique := by
    have hnew : ∀ y, s.slot y ≠ some s.next := fun y hy => Nat.lt_irrefl _ (s.slot_lt y _ hy)
    intro y z o hy hz
    by_cases hyx : y = x <;> by_cases hzx : z = x
    · rw [hyx,hzx]
    · rw [hyx,Function.update_self] at hy
      rw [Function.update_of_ne hzx,← hy] at hz
      exact absurd hz (hnew z)
    · rw [hzx,Function.update_self] at hz
      rw [Function.update_of_ne hyx,← hz] at hy
      exact absurd hy (hnew y)
    · rw [Function.update_of_ne hyx] at hy
      rw [Function.update_of_ne hzx] at hz
      exact s.unique y z o hy hz
  slot_lt := by
    intro y o hy
    by_cases hyx : y = x
    · rw [hyx,Function.update_self,Option.some.injEq] at hy
      omega
    · rw [Function.update_of_ne hyx] at hy
      exact Nat.lt_succ_of_lt (s.slot_lt y o hy)
  destroyed_lt := fun o ho => Nat.lt_succ_of_lt (s.destroyed_lt o ho)

/-- The object in a slot is taken out and destroyed. -/
def Slots.take (s : Slots X) (x : X) : Slots X where
  slot := Function.update s.slot x none
  destroyed := (s.slot x).toList++s.destroyed
  next := s.next
  unique := by
    intro y z o hy hz
    have hyx : y ≠ x := by
      rintro rfl
      simp at hy
    have hzx : z ≠ x := by
      rintro rfl
      simp at hz
    rw [Function.update_of_ne hyx] at hy
    rw [Function.update_of_ne hzx] at hz
    exact s.unique y z o hy hz
  slot_lt := by
    intro y o hy
    have hyx : y ≠ x := by
      rintro rfl
      simp at hy
    rw [Function.update_of_ne hyx] at hy
    exact s.slot_lt y o hy
  destroyed_lt := (s.expire x).destroyed_lt

variable {s : Slots X} {y : X}

omit [DecidableEq X] in
theorem live_expire (hy : s.Live y) (x : X) (hne : y ≠ x) : (s.expire x).Live y := by
  intro o ho hmem
  rcases List.mem_append.mp hmem with hx | hd
  · exact hne (s.unique y x o ho (Option.mem_toList.mp hx))
  · exact hy o ho hd

theorem live_create (hy : s.Live y) (x : X) : (s.create x).Live y := by
  intro o ho
  by_cases hyx : y = x
  · have hself : (s.create x).slot x = some s.next := Function.update_self _ _ _
    rw [hyx,hself,Option.some.injEq] at ho
    rw [← ho]
    exact fun hmem => Nat.lt_irrefl _ (s.destroyed_lt _ hmem)
  · have hother : (s.create x).slot y = s.slot y := Function.update_of_ne hyx _ _
    exact hy o (hother.symm.trans ho)

theorem live_take (hy : s.Live y) (x : X) : (s.take x).Live y := by
  intro o ho
  by_cases hyx : y = x
  · have hself : (s.take x).slot x = none := Function.update_self _ _ _
    rw [hyx,hself] at ho
    cases ho
  · have hother : (s.take x).slot y = s.slot y := Function.update_of_ne hyx _ _
    exact live_expire hy x hyx o (hother.symm.trans ho)

end ObjectSlots
