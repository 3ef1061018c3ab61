import Mathlib.Logic.Function.Basic
import Mathlib.Data.Nat.Notation

/-!
# Names of shared objects

A name is bound to at most one object and an object to at most one name.
Opening a name yields the object it is bound to, or binds a new one;
unlinking frees the name and leaves the object alone. The epoch of a name
counts its unlinks. A handle remembers the object, the name and the epoch of
its opening, and opening the name again yields the same object exactly in
the same epoch.
-/

set_option autoImplicit false

namespace ObjectNames

variable {N : Type*}

structure Names (N : Type*) where
  binding : N → Option ℕ
  fresh : ℕ
  epoch : N → ℕ
  bound : ∀ n o, binding n = some o → o < fresh
  unique : ∀ n m o, binding n = some o → binding m = some o → n = m

theorem unbound_lt (_ : N) (o : ℕ) (h : none = some o) : o < 0 := nomatch h

theorem unbound_unique (n m : N) (o : ℕ) (h : none = some o) (_ : none = some o) : n = m := nomatch h

/-- No name is bound. -/
def Names.unbound : Names N := ⟨fun _ => none,0,fun _ => 0,unbound_lt,unbound_unique⟩

structure Handle (N : Type*) where
  name : N
  obj : ℕ
  epoch : ℕ
  deriving DecidableEq

/-- The object a name yields when it is opened: the one it is bound to, or a
new one. -/
def Names.target (s : Names N) (n : N) : ℕ := (s.binding n).getD s.fresh

theorem target_of_bound (s : Names N) (n : N) (o : ℕ) (h : s.binding n = some o) :
    s.target n = o := by simp [Names.target,h]

/-- No other name is bound to the target. -/
theorem target_unique (s : Names N) (n m : N) (h : s.binding m = some (s.target n)) : m = n := by
  cases hn : s.binding n with
  | some o => exact s.unique m n o (target_of_bound s n o hn ▸ h) hn
  | none =>
    have hlt := s.bound m _ h
    simp [Names.target,hn] at hlt

/-- The handle of an opening in a state of the names. -/
def Names.handle (s : Names N) (n : N) : Handle N := ⟨n,s.target n,s.epoch n⟩

variable [DecidableEq N]

/-- Open with creation. -/
def Names.shmOpen (s : Names N) (n : N) : Names N where
  binding := Function.update s.binding n (some (s.target n))
  fresh := max s.fresh (s.target n+1)
  epoch := s.epoch
  bound := by
    intro m o hm
    by_cases hmn : m = n
    · have ho : s.target n = o := by simpa [hmn] using hm
      omega
    · have hlt := s.bound m o (by simpa [hmn] using hm)
      omega
  unique := by
    intro m k o hm hk
    by_cases hmn : m = n
    · have ho : s.target n = o := by simpa [hmn] using hm
      by_cases hkn : k = n
      · rw [hmn,hkn]
      · exact hmn.trans (target_unique s n k (by simpa [hkn,ho] using hk)).symm
    · by_cases hkn : k = n
      · have ho : s.target n = o := by simpa [hkn] using hk
        exact (target_unique s n m (by simpa [hmn,ho] using hm)).trans hkn.symm
      · exact s.unique m k o (by simpa [hmn] using hm) (by simpa [hkn] using hk)

def Names.shmUnlink (s : Names N) (n : N) : Names N where
  binding := Function.update s.binding n none
  fresh := s.fresh
  epoch := Function.update s.epoch n (s.epoch n+1)
  bound := by
    intro m o hm
    by_cases hmn : m = n
    · simp [hmn] at hm
    · exact s.bound m o (by simpa [hmn] using hm)
  unique := by
    intro m k o hm hk
    by_cases hmn : m = n
    · simp [hmn] at hm
    · by_cases hkn : k = n
      · simp [hkn] at hk
      · exact s.unique m k o (by simpa [hmn] using hm) (by simpa [hkn] using hk)

/-- What the names keep about a handle. -/
structure Handle.Kept (x : Handle N) (s : Names N) : Prop where
  lt_fresh : x.obj < s.fresh
  epoch_le : x.epoch ≤ s.epoch x.name
  current : x.epoch = s.epoch x.name → s.binding x.name = some x.obj
  origin : ∀ n, s.binding n = some x.obj → n = x.name ∧ s.epoch n = x.epoch

theorem Handle.Kept.shmOpen {x : Handle N} {s : Names N} (h : x.Kept s) (n : N) :
    x.Kept (s.shmOpen n) where
  lt_fresh := Nat.lt_of_lt_of_le h.lt_fresh (Nat.le_max_left _ _)
  epoch_le := h.epoch_le
  current := by
    intro he
    have hb := h.current he
    by_cases hn : x.name = n
    · subst hn
      simp [Names.shmOpen,target_of_bound s _ _ hb]
    · simpa [Names.shmOpen,hn] using hb
  origin := by
    intro m hm
    by_cases hmn : m = n
    · subst hmn
      have ho : s.target m = x.obj := by simpa [Names.shmOpen] using hm
      cases hb : s.binding m with
      | some o => exact h.origin m (by rw [hb,← ho,target_of_bound s m o hb])
      | none =>
        have hlt := h.lt_fresh
        simp [← ho,Names.target,hb] at hlt
    · exact h.origin m (by simpa [Names.shmOpen,hmn] using hm)

theorem Handle.Kept.shmUnlink {x : Handle N} {s : Names N} (h : x.Kept s) (n : N) :
    x.Kept (s.shmUnlink n) where
  lt_fresh := h.lt_fresh
  epoch_le := by
    have hle := h.epoch_le
    by_cases hn : x.name = n
    · subst hn
      simp only [Names.shmUnlink,Function.update_self]
      omega
    · simpa [Names.shmUnlink,hn] using hle
  current := by
    intro he
    by_cases hn : x.name = n
    · subst hn
      have hle := h.epoch_le
      simp only [Names.shmUnlink,Function.update_self] at he
      omega
    · simpa [Names.shmUnlink,hn] using h.current (by simpa [Names.shmUnlink,hn] using he)
  origin := by
    intro m hm
    by_cases hmn : m = n
    · simp [Names.shmUnlink,hmn] at hm
    · simpa [Names.shmUnlink,hmn] using h.origin m (by simpa [Names.shmUnlink,hmn] using hm)

/-- A handle is kept from its opening on. -/
theorem kept_handle (s : Names N) (n : N) : (s.handle n).Kept (s.shmOpen n) where
  lt_fresh := Nat.lt_of_lt_of_le (Nat.lt_succ_self _) (Nat.le_max_right _ _)
  epoch_le := Nat.le_refl _
  current := fun _ => by simp [Names.handle,Names.shmOpen]
  origin := by
    intro m hm
    have hn : (s.shmOpen n).binding n = some (s.handle n).obj := by
      simp [Names.handle,Names.shmOpen]
    obtain rfl := (s.shmOpen n).unique m n _ hm hn
    exact ⟨rfl,rfl⟩

omit [DecidableEq N] in
/-- Opening the name again yields the handle's object exactly in the epoch
of the handle. -/
theorem target_eq_iff (s : Names N) (x : Handle N) (h : x.Kept s) :
    s.target x.name = x.obj ↔ s.epoch x.name = x.epoch := by
  constructor
  · intro ht
    cases hb : s.binding x.name with
    | some o => exact (h.origin x.name (by rw [hb,← ht,target_of_bound s _ o hb])).2
    | none =>
      have hlt := h.lt_fresh
      simp [← ht,Names.target,hb] at hlt
  · intro he
    exact target_of_bound s _ _ (h.current he.symm)

end ObjectNames
