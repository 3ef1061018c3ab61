import Mathlib.Logic.Function.Basic
import Mathlib.Data.List.Basic

/-!
# A pool of cells under keys

A pool hands out cells under keys and takes them back. A returned cell goes to
the front of a free list and is the first to be handed out again; a cell never
used before is taken only when the list is empty. Inserting under a key that has
a cell leaves the old cell behind. No two keys share a cell, and no key has a
cell of the free list.
-/

set_option autoImplicit false

namespace KeyedPool

variable {K V : Type*}

structure Pool (K V : Type*) where
  map : K → Option ℕ
  cell : ℕ → V
  free : List ℕ
  used : ℕ
  map_lt : ∀ k i, map k = some i → i < used
  map_inj : ∀ k k' i, map k = some i → map k' = some i → k = k'
  free_lt : ∀ i ∈ free, i < used
  free_nodup : free.Nodup
  free_unmapped : ∀ k i, map k = some i → i ∉ free

def empty (v : V) : Pool K V :=
  ⟨fun _ => none,fun _ => v,[],0,fun _ _ h => by simp at h,fun _ _ _ h => by simp at h,
    fun _ h => by simp at h,List.nodup_nil,fun _ _ h => by simp at h⟩

/-- The content of the cell under a key. -/
def Pool.get (p : Pool K V) (k : K) : Option V := (p.map k).map p.cell

/-- A store through the pointer that `insert` returned. -/
def Pool.write (p : Pool K V) (i : ℕ) (v : V) : Pool K V :=
  {p with cell := Function.update p.cell i v}

theorem map_write (p : Pool K V) (i : ℕ) (v : V) (k : K) : (p.write i v).map k = p.map k := rfl

theorem get_write_self (p : Pool K V) (i : ℕ) (v : V) (k : K) (h : p.map k = some i) :
    (p.write i v).get k = some v := by
  rw [Pool.get,map_write,h]
  exact congrArg some (Function.update_self _ _ _)

/-- A store into the cell of one key is not seen under another. -/
theorem get_write_other (p : Pool K V) (i : ℕ) (v : V) (k k' : K) (hk : p.map k = some i) (h : k' ≠ k) :
    (p.write i v).get k' = p.get k' := by
  rw [Pool.get,Pool.get,map_write]
  cases hj : p.map k' with
  | none => rfl
  | some j =>
    have hne : j ≠ i := by
      rintro rfl
      exact h (p.map_inj k' k j hj hk)
    exact congrArg some (Function.update_of_ne hne _ _)

/-- The cell that the next `insert` hands out. -/
def Pool.fresh (p : Pool K V) : ℕ := p.free.headD p.used

theorem Pool.fresh_unmapped (p : Pool K V) (k : K) : p.map k ≠ some p.fresh := by
  intro h
  cases hfree : p.free with
  | nil =>
    rw [Pool.fresh,hfree] at h
    exact absurd (p.map_lt k _ h) (Nat.lt_irrefl _)
  | cons i free =>
    rw [Pool.fresh,hfree] at h
    exact p.free_unmapped k i h (by rw [hfree]; exact List.mem_cons_self)

variable [DecidableEq K]

/-- Putting a cell that is neither free nor under another key under `k`. -/
def Pool.bind (p : Pool K V) (k : K) (i : ℕ) (free : List ℕ) (used : ℕ) (hused : p.used ≤ used)
    (hi : i < used) (hsub : ∀ j ∈ free, j ∈ p.free) (hnodup : free.Nodup) (hfree : i ∉ free)
    (hmap : ∀ k', p.map k' ≠ some i) : Pool K V where
  map := Function.update p.map k (some i)
  cell := p.cell
  free := free
  used := used
  map_lt := by
    intro k' j hj
    by_cases hk : k' = k
    · rw [hk,Function.update_self] at hj
      exact Option.some.inj hj ▸ hi
    · rw [Function.update_of_ne hk] at hj
      exact Nat.lt_of_lt_of_le (p.map_lt k' j hj) hused
  map_inj := by
    intro k₁ k₂ j h₁ h₂
    by_cases hk₁ : k₁ = k <;> by_cases hk₂ : k₂ = k
    · rw [hk₁,hk₂]
    · rw [hk₁,Function.update_self] at h₁
      rw [Function.update_of_ne hk₂,← Option.some.inj h₁] at h₂
      exact absurd h₂ (hmap k₂)
    · rw [hk₂,Function.update_self] at h₂
      rw [Function.update_of_ne hk₁,← Option.some.inj h₂] at h₁
      exact absurd h₁ (hmap k₁)
    · rw [Function.update_of_ne hk₁] at h₁
      rw [Function.update_of_ne hk₂] at h₂
      exact p.map_inj k₁ k₂ j h₁ h₂
  free_lt := fun j hj => Nat.lt_of_lt_of_le (p.free_lt j (hsub j hj)) hused
  free_nodup := hnodup
  free_unmapped := by
    intro k' j hj
    by_cases hk : k' = k
    · rw [hk,Function.update_self] at hj
      exact Option.some.inj hj ▸ hfree
    · rw [Function.update_of_ne hk] at hj
      exact fun hmem => p.free_unmapped k' j hj (hsub j hmem)

def Pool.insert (p : Pool K V) (k : K) : Pool K V :=
  p.bind k p.fresh p.free.tail (max p.used (p.fresh+1)) (Nat.le_max_left _ _)
    (Nat.lt_of_lt_of_le (Nat.lt_succ_self _) (Nat.le_max_right _ _)) (fun _ hj => List.mem_of_mem_tail hj)
    p.free_nodup.tail
    (by
      intro hmem
      have hnodup := p.free_nodup
      cases hfree : p.free with
      | nil =>
        rw [hfree] at hmem
        cases hmem
      | cons i free =>
        rw [hfree] at hnodup
        rw [Pool.fresh,hfree] at hmem
        exact (List.nodup_cons.mp hnodup).1 hmem)
    p.fresh_unmapped

/-- Taking the cell of a key back; the link of the free list overwrites it
with `v`. -/
def Pool.del (p : Pool K V) (k : K) (v : V) : Pool K V :=
  match h : p.map k with
  | none => p
  | some i =>
    { map := Function.update p.map k none
      cell := Function.update p.cell i v
      free := i::p.free
      used := p.used
      map_lt := by
        intro k' j hj
        by_cases hk : k' = k
        · rw [hk,Function.update_self] at hj
          cases hj
        · rw [Function.update_of_ne hk] at hj
          exact p.map_lt k' j hj
      map_inj := by
        intro k₁ k₂ j h₁ h₂
        have hk₁ : k₁ ≠ k := by
          rintro rfl
          simp at h₁
        have hk₂ : k₂ ≠ k := by
          rintro rfl
          simp at h₂
        rw [Function.update_of_ne hk₁] at h₁
        rw [Function.update_of_ne hk₂] at h₂
        exact p.map_inj k₁ k₂ j h₁ h₂
      free_lt := by
        intro j hj
        rcases List.mem_cons.mp hj with rfl | hj
        · exact p.map_lt k j h
        · exact p.free_lt j hj
      free_nodup := List.nodup_cons.mpr ⟨p.free_unmapped k i h,p.free_nodup⟩
      free_unmapped := by
        intro k' j hj hmem
        have hk : k' ≠ k := by
          rintro rfl
          simp at hj
        rw [Function.update_of_ne hk] at hj
        rcases List.mem_cons.mp hmem with rfl | hmem
        · exact hk (p.map_inj k' k j hj h)
        · exact p.free_unmapped k' j hj hmem }

section Frames

variable (p : Pool K V)

theorem map_insert_self (k : K) : (p.insert k).map k = some p.fresh := Function.update_self _ _ _

theorem map_insert_other (k k' : K) (h : k' ≠ k) : (p.insert k).map k' = p.map k' :=
  Function.update_of_ne h _ _

theorem get_insert_other (k k' : K) (h : k' ≠ k) : (p.insert k).get k' = p.get k' := by
  rw [Pool.get,Pool.get,map_insert_other p k k' h]
  rfl

theorem map_del_other (k k' : K) (v : V) (h : k' ≠ k) : (p.del k v).map k' = p.map k' := by
  unfold Pool.del
  split
  · rfl
  · exact Function.update_of_ne h _ _

theorem get_del_other (k k' : K) (v : V) (h : k' ≠ k) : (p.del k v).get k' = p.get k' := by
  unfold Pool.del
  split
  · rfl
  · next i hi =>
    have hmap : Function.update p.map k none k' = p.map k' := Function.update_of_ne h _ _
    rw [Pool.get,Pool.get]
    dsimp only
    rw [hmap]
    cases hj : p.map k' with
    | none => rfl
    | some j =>
      have hne : j ≠ i := by
        rintro rfl
        exact h (p.map_inj k' k j hj hi)
      exact congrArg some (Function.update_of_ne hne _ _)

theorem del_of_none (k : K) (v : V) (h : p.map k = none) : p.del k v = p := by
  unfold Pool.del
  split
  · rfl
  · next i hi => exact absurd (h.symm.trans hi) (by simp)

theorem del_of_some (k : K) (v : V) (i : ℕ) (h : p.map k = some i) :
    (p.del k v).map = Function.update p.map k none ∧
      (p.del k v).cell = Function.update p.cell i v ∧ (p.del k v).free = i::p.free ∧
      (p.del k v).used = p.used := by
  unfold Pool.del
  split
  · next hnone => exact absurd (h.symm.trans hnone) (by simp)
  · next j hj =>
    obtain rfl : i = j := Option.some.inj (h.symm.trans hj)
    exact ⟨rfl,rfl,rfl,rfl⟩

end Frames

end KeyedPool
