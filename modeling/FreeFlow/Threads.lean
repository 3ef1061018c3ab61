import Mathlib.Algebra.BigOperators.Group.Finset.Basic
import Mathlib.Data.Fintype.Basic
import Mathlib.Logic.Function.Basic

/-!
# Threads that work on targets

Every thread stands somewhere in its program, and its place tells which target it
works on, if any. Threads are apart when no two of them work on one target. A
step moves one thread; what it has to respect is that no other thread works
on the target it moves to.
-/

set_option autoImplicit false

namespace Threads

variable {ι P X : Type*} {target : P → Option X} {pcs : ι → P}

def Apart (target : P → Option X) (pcs : ι → P) : Prop :=
  ∀ t t' x, target (pcs t) = some x → target (pcs t') = some x → t = t'

theorem Apart.other (h : Apart target pcs) {t : ι} {x : X} (ht : target (pcs t) = some x) (t' : ι)
    (hne : t' ≠ t) : target (pcs t') ≠ some x := fun h' => hne (h t' t x h' ht)

variable [DecidableEq ι]

theorem Apart.update (h : Apart target pcs) {t : ι} {pc : P}
    (hpc : ∀ x, target pc = some x → ∀ t', t' ≠ t → target (pcs t') ≠ some x) :
    Apart target (Function.update pcs t pc) := by
  intro t₁ t₂ x h₁ h₂
  by_cases ht₁ : t₁ = t <;> by_cases ht₂ : t₂ = t
  · rw [ht₁,ht₂]
  · rw [ht₁,Function.update_self] at h₁
    rw [Function.update_of_ne ht₂] at h₂
    exact absurd h₂ (hpc x h₁ t₂ ht₂)
  · rw [Function.update_of_ne ht₁] at h₁
    rw [ht₂,Function.update_self] at h₂
    exact absurd h₁ (hpc x h₂ t₁ ht₁)
  · rw [Function.update_of_ne ht₁] at h₁
    rw [Function.update_of_ne ht₂] at h₂
    exact h t₁ t₂ x h₁ h₂

/-- A thread that keeps its target, or lets it go. -/
theorem Apart.move (h : Apart target pcs) {t : ι} {pc : P}
    (hpc : ∀ x, target pc = some x → target (pcs t) = some x) :
    Apart target (Function.update pcs t pc) :=
  h.update fun _ hx => h.other (hpc _ hx)

/-- A total over all threads when one of them moves. -/
theorem sum_update {M : Type*} [AddCommMonoid M] [Fintype ι] (load : P → M) (pcs : ι → P) (t : ι)
    (pc : P) :
    ∑ t', load (Function.update pcs t pc t')+load (pcs t) = ∑ t', load (pcs t')+load pc := by
  have hmem : t ∈ Finset.univ := Finset.mem_univ t
  rw [← Finset.add_sum_erase _ _ hmem,← Finset.add_sum_erase _ (fun t' => load (pcs t')) hmem,
    Function.update_self]
  have hrest : ∑ t' ∈ Finset.univ.erase t, load (Function.update pcs t pc t') =
      ∑ t' ∈ Finset.univ.erase t, load (pcs t') := by
    apply Finset.sum_congr rfl
    intro t' ht'
    rw [Function.update_of_ne (Finset.ne_of_mem_erase ht')]
  rw [hrest,add_right_comm,add_comm (load pc),add_right_comm]

end Threads
