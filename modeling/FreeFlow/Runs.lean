import Mathlib.Logic.Function.Basic
import Mathlib.Data.List.Basic

/-!
# Runs of partial step functions

A system is a state type, a type of labels and a partial step. A run is a
finite word of labels, read from the left. An invariant needs to survive
only those steps that meet a side condition, and the side condition is
asked of the steps of the run itself, in the states the run passes through.
-/

set_option autoImplicit false

namespace Runs

variable {σ α : Type*}

def run (step : σ → α → Option σ) : σ → List α → Option σ
  | s, [] => some s
  | s, a::as => (step s a).bind (fun t => run step t as)

def Along (step : σ → α → Option σ) (P : σ → α → Prop) : σ → List α → Prop
  | _, [] => True
  | s, a::as => P s a ∧ ∀ t, step s a = some t → Along step P t as

theorem run_cons (step : σ → α → Option σ) (s : σ) (a : α) (as : List α) (u : σ) :
    run step s (a::as) = some u ↔ ∃ t, step s a = some t ∧ run step t as = some u := by
  simp only [run, Option.bind_eq_some_iff]

/-- The invariant rule: what every admissible step keeps, every run whose
steps are admissible keeps. -/
theorem run_invariant (step : σ → α → Option σ) (P : σ → α → Prop) (I : σ → Prop)
    (hstep : ∀ s a t, I s → P s a → step s a = some t → I t)
    (s : σ) (as : List α) (u : σ) (hI : I s) (hP : Along step P s as)
    (hrun : run step s as = some u) : I u := by
  induction as generalizing s with
  | nil =>
    obtain rfl : s = u := by simpa [run] using hrun
    exact hI
  | cons a as ih =>
    obtain ⟨t, ht, hu⟩ := (run_cons step s a as u).mp hrun
    exact ih t (hstep s a t hI hP.1 ht) (hP.2 t ht) hu

/-- Two conditions on steps that agree as long as the first has kept the
invariant ask the same of a whole run. -/
theorem along_congr (step : σ → α → Option σ) (V P Q : σ → α → Prop) (I : σ → Prop)
    (hiff : ∀ s a, I s → V s a → (P s a ↔ Q s a))
    (hstep : ∀ s a t, I s → V s a → P s a → step s a = some t → I t)
    (s : σ) (as : List α) (hI : I s) (hV : Along step V s as) :
    Along step P s as ↔ Along step Q s as := by
  induction as generalizing s with
  | nil => exact Iff.rfl
  | cons a as ih =>
    have hhead := hiff s a hI hV.1
    constructor
    · rintro ⟨hp,hrest⟩
      exact ⟨hhead.mp hp,fun t ht =>
        (ih t (hstep s a t hI hV.1 hp ht) (hV.2 t ht)).mp (hrest t ht)⟩
    · rintro ⟨hq,hrest⟩
      have hp := hhead.mpr hq
      exact ⟨hp,fun t ht => (ih t (hstep s a t hI hV.1 hp ht) (hV.2 t ht)).mpr (hrest t ht)⟩

theorem along_cons (step : σ → α → Option σ) (P : σ → α → Prop) (s : σ) (a : α) (as : List α)
    (t : σ) (ht : step s a = some t) (hP : P s a) (hrest : Along step P t as) :
    Along step P s (a::as) := by
  refine ⟨hP,fun u hu => ?_⟩
  obtain rfl : t = u := Option.some.inj (ht.symm.trans hu)
  exact hrest

/-- A decidable condition on steps is decidable along a run. -/
instance decidableAlong (step : σ → α → Option σ) (P : σ → α → Prop) [∀ s a, Decidable (P s a)] :
    ∀ s as, Decidable (Along step P s as)
  | _, [] => isTrue trivial
  | s, a::as =>
    match h : step s a with
    | none => decidable_of_iff (P s a)
        ⟨fun hP => ⟨hP,fun _ ht => absurd (h.symm.trans ht) (by simp)⟩,And.left⟩
    | some t =>
      have := decidableAlong step P t as
      decidable_of_iff (P s a ∧ Along step P t as)
        ⟨fun hP => along_cons step P s a as t h hP.1 hP.2,fun hP => ⟨hP.1,hP.2 t h⟩⟩

theorem along_and (step : σ → α → Option σ) (P Q : σ → α → Prop) (s : σ) (as : List α)
    (hP : Along step P s as) (hQ : Along step Q s as) :
    Along step (fun s a => P s a ∧ Q s a) s as := by
  induction as generalizing s with
  | nil => trivial
  | cons a as ih => exact ⟨⟨hP.1,hQ.1⟩,fun t ht => ih t (hP.2 t ht) (hQ.2 t ht)⟩

theorem along_of_forall (step : σ → α → Option σ) (P : σ → α → Prop) (s : σ) (as : List α)
    (h : ∀ a ∈ as, ∀ t, P t a) : Along step P s as := by
  induction as generalizing s with
  | nil => trivial
  | cons a as ih =>
    exact ⟨h a List.mem_cons_self s,fun t _ => ih t fun b hb => h b (List.mem_cons_of_mem _ hb)⟩

theorem along_trivial (step : σ → α → Option σ) (s : σ) (as : List α) :
    Along step (fun _ _ => True) s as :=
  along_of_forall step _ s as fun _ _ _ => trivial

theorem along_take (step : σ → α → Option σ) (P : σ → α → Prop) (s : σ) (as : List α) (k : ℕ)
    (h : Along step P s as) : Along step P s (as.take k) := by
  induction as generalizing s k with
  | nil => simpa using h
  | cons a as ih =>
    cases k with
    | zero => trivial
    | succ k => exact ⟨h.1,fun t ht => ih t k (h.2 t ht)⟩

/-- Two conditions that agree as long as the first has kept the invariant. -/
theorem along_iff (step : σ → α → Option σ) (P Q : σ → α → Prop) (I : σ → Prop)
    (hiff : ∀ s a, I s → (P s a ↔ Q s a))
    (hstep : ∀ s a t, I s → P s a → step s a = some t → I t)
    (s : σ) (as : List α) (hI : I s) : Along step P s as ↔ Along step Q s as :=
  along_congr step (fun _ _ => True) P Q I (fun s a hs _ => hiff s a hs)
    (fun s a t hs _ => hstep s a t hs) s as hI (along_trivial step s as)

/-- What follows from the invariant for a step holds for every step of an
admissible run. -/
theorem along_of_invariant (step : σ → α → Option σ) (P Q : σ → α → Prop) (I : σ → Prop)
    (hstep : ∀ s a t, I s → P s a → step s a = some t → I t) (hQ : ∀ s a, I s → Q s a)
    (s : σ) (as : List α) (hI : I s) (hP : Along step P s as) : Along step Q s as := by
  refine (along_congr step P (fun _ _ => True) Q I ?_ ?_ s as hI hP).mp (along_trivial step s as)
  · exact fun s a hs _ => ⟨fun _ => hQ s a hs,fun _ => trivial⟩
  · exact fun s a t hs hPs _ => hstep s a t hs hPs

/-- The invariant rule without a side condition. -/
theorem run_preserves (step : σ → α → Option σ) (I : σ → Prop)
    (hstep : ∀ s a t, I s → step s a = some t → I t)
    (s : σ) (as : List α) (u : σ) (hI : I s) (hrun : run step s as = some u) : I u :=
  run_invariant step (fun _ _ => True) I (fun s a t hs _ => hstep s a t hs)
    s as u hI (along_trivial step s as) hrun

/-- Where a fact survives exactly the good steps, it holds at the end of a
run exactly when it held at the start and every step was good. -/
theorem run_iff_forall (step : σ → α → Option σ) (I G : σ → Prop) (Q : α → Prop)
    (hstep : ∀ s a t, I s → step s a = some t → I t ∧ (G t ↔ G s ∧ Q a))
    (s : σ) (as : List α) (u : σ) (hI : I s) (hrun : run step s as = some u) :
    G u ↔ G s ∧ ∀ a ∈ as, Q a := by
  induction as generalizing s with
  | nil =>
    obtain rfl : s = u := by simpa [run] using hrun
    simp
  | cons a as ih =>
    obtain ⟨t,ht,hu⟩ := (run_cons step s a as u).mp hrun
    obtain ⟨hIt,hG⟩ := hstep s a t hI ht
    rw [ih t hIt hu,hG,List.forall_mem_cons,and_assoc]

/-- The same where a step is good or not in the state it is taken in. -/
theorem run_iff_along (step : σ → α → Option σ) (G : σ → Prop) (P : σ → α → Prop)
    (hstep : ∀ s a t, step s a = some t → (G t ↔ G s ∧ P s a))
    (s : σ) (as : List α) (u : σ) (hrun : run step s as = some u) :
    G u ↔ G s ∧ Along step P s as := by
  induction as generalizing s with
  | nil =>
    obtain rfl : s = u := by simpa [run] using hrun
    simp [Along]
  | cons a as ih =>
    obtain ⟨t,ht,hu⟩ := (run_cons step s a as u).mp hrun
    have hrest : (∀ t', step s a = some t' → Along step P t' as) ↔ Along step P t as := by
      simp [ht]
    rw [ih t hu,hstep s a t ht,Along,hrest,and_assoc]

/-- Where a fact holds as long as all steps were good, fails after the first
step that was not and cannot be restored, it holds at the end of a run exactly
when every step was good. -/
theorem run_iff_along_of_inv (step : σ → α → Option σ) (V P : σ → α → Prop) (I G : σ → Prop)
    (hgood : ∀ s a t, I s → V s a → P s a → step s a = some t → I t)
    (hbad : ∀ s a t, I s → V s a → ¬P s a → step s a = some t → ¬G t)
    (hlost : ∀ s a t, step s a = some t → G t → G s) (hI : ∀ s, I s → G s)
    (s : σ) (as : List α) (u : σ) (hs : I s) (hV : Along step V s as)
    (hrun : run step s as = some u) : G u ↔ Along step P s as := by
  have hback : ∀ (s : σ) (as : List α), run step s as = some u → G u → G s := by
    intro s as
    induction as generalizing s with
    | nil =>
      intro hrun hG
      obtain rfl : s = u := by simpa [run] using hrun
      exact hG
    | cons a as ih =>
      intro hrun hG
      obtain ⟨t,ht,hu⟩ := (run_cons step s a as u).mp hrun
      exact hlost s a t ht (ih t hu hG)
  induction as generalizing s with
  | nil =>
    obtain rfl : s = u := by simpa [run] using hrun
    exact iff_of_true (hI s hs) trivial
  | cons a as ih =>
    obtain ⟨t,ht,hu⟩ := (run_cons step s a as u).mp hrun
    by_cases hP : P s a
    · refine (ih t (hgood s a t hs hV.1 hP ht) (hV.2 t ht) hu).trans ⟨?_,?_⟩
      · exact along_cons step P s a as t ht hP
      · exact fun h => h.2 t ht
    · exact iff_of_false (fun hG => hbad s a t hs hV.1 hP ht (hback t as hu hG)) fun h => hP h.1

end Runs
