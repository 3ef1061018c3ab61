import Mathlib.Logic.Function.Basic
import Mathlib.Data.List.Basic
import Mathlib.Data.List.Lex
import Mathlib.Data.List.Nodup
import Mathlib.Order.Cover

/-!
# Key-value stores and loops over maps

A map is a partial function. A loop over a map visits its keys once each, in
an order nobody chose; such an order is a list that enumerates the domain.
A store takes puts and deletes one after the other. When a loop publishes a
map under an injective key function, what the store holds afterwards does
not depend on the order. Two lists of operations do the same to every store
when they agree in the last operation on every key; where one list is what some
entries stand for and the other what they do, that is a condition on the last
entry of each key.

Where keys are strings over an ordered alphabet, the keys with a given prefix
form an interval.
-/

set_option autoImplicit false

namespace KeyValue

variable {K L V : Type*}

/-- The list names every key of the map once. -/
structure Enumerates (order : List K) (m : K → Option V) : Prop where
  nodup : order.Nodup
  mem_iff : ∀ k, k ∈ order ↔ (m k).isSome

inductive Op (L V : Type*)
  | put (key : L) (val : V)
  | delete (key : L)
  deriving DecidableEq

def Op.key : Op L V → L
  | .put k _ => k
  | .delete k => k

/-- The value an operation leaves at its key. -/
def Op.result : Op L V → Option V
  | .put _ v => some v
  | .delete _ => none

theorem Op.ext_of {a b : Op L V} (hkey : a.key = b.key) (hresult : a.result = b.result) : a = b := by
  cases a <;> cases b <;> simp_all [Op.key,Op.result]

variable [DecidableEq L]

def apply (s : L → Option V) (op : Op L V) : L → Option V :=
  Function.update s op.key op.result

def applyAll (s : L → Option V) (ops : List (Op L V)) : L → Option V :=
  ops.foldl apply s

@[simp] theorem applyAll_nil (s : L → Option V) : applyAll s [] = s := rfl

@[simp] theorem applyAll_cons (s : L → Option V) (op : Op L V) (ops : List (Op L V)) :
    applyAll s (op::ops) = applyAll (apply s op) ops := rfl

theorem applyAll_append (s : L → Option V) (xs ys : List (Op L V)) :
    applyAll s (xs++ys) = applyAll (applyAll s xs) ys := List.foldl_append

theorem applyAll_of_ne (s : L → Option V) (ops : List (Op L V)) (k : L)
    (h : ∀ op ∈ ops, op.key ≠ k) : applyAll s ops k = s k := by
  induction ops generalizing s with
  | nil => rfl
  | cons op ops ih =>
    rw [applyAll_cons,ih _ fun o ho => h o (List.mem_cons_of_mem _ ho),apply,
      Function.update_of_ne (h op List.mem_cons_self).symm]

/-- The changes a store reports: a delete of an absent key changes nothing. -/
def changes (s : L → Option V) : List (Op L V) → List (Op L V)
  | [] => []
  | op::ops =>
    if s op.key = none ∧ op.result = none then changes (apply s op) ops
    else op::changes (apply s op) ops

theorem changes_sub (s : L → Option V) (ops : List (Op L V)) :
    ∀ op ∈ changes s ops, op ∈ ops := by
  induction ops generalizing s with
  | nil => exact fun op h => h
  | cons o ops ih =>
    intro op h
    rw [changes] at h
    split at h
    · exact List.mem_cons_of_mem _ (ih _ op h)
    · rcases List.mem_cons.mp h with rfl | h
      · exact List.mem_cons_self
      · exact List.mem_cons_of_mem _ (ih _ op h)

/-- If all operations on a key leave the same value, the store holds it. -/
theorem applyAll_of_unanimous (s : L → Option V) (ops : List (Op L V)) (k : L) (r : Option V)
    (hmem : ∃ op ∈ ops, op.key = k) (hres : ∀ op ∈ ops, op.key = k → op.result = r) :
    applyAll s ops k = r := by
  induction ops generalizing s with
  | nil => simp at hmem
  | cons op ops ih =>
    by_cases hlater : ∃ o ∈ ops, o.key = k
    · exact ih _ hlater fun o ho => hres o (List.mem_cons_of_mem _ ho)
    · have hkey : op.key = k := by
        obtain ⟨o,ho,hk⟩ := hmem
        rcases List.mem_cons.mp ho with rfl | ho
        · exact hk
        · exact absurd ⟨o,ho,hk⟩ hlater
      have hfree : ∀ o ∈ ops, o.key ≠ k := fun o ho hk => hlater ⟨o,ho,hk⟩
      rw [applyAll_cons,applyAll_of_ne _ _ _ hfree,apply,hkey,Function.update_self]
      exact hres op List.mem_cons_self hkey

/-- What the last operation on a key leaves there, if there is one. -/
def lastResult : List (Op L V) → L → Option (Option V)
  | [], _ => none
  | op::ops, k => (lastResult ops k).or (if op.key = k then some op.result else none)

theorem applyAll_eq_lastResult (s : L → Option V) (ops : List (Op L V)) (k : L) :
    applyAll s ops k = (lastResult ops k).getD (s k) := by
  induction ops generalizing s with
  | nil => rfl
  | cons op ops ih =>
    rw [applyAll_cons,ih,lastResult]
    cases lastResult ops k with
    | some r => rfl
    | none =>
      by_cases hk : op.key = k
      · rw [if_pos hk,apply,hk,Function.update_self]
        rfl
      · rw [if_neg hk,apply,Function.update_of_ne (Ne.symm hk)]
        rfl

/-- No store tells two lists of operations apart exactly when they agree in the
last operation on every key. -/
theorem applyAll_eq_iff [Nonempty V] (xs ys : List (Op L V)) :
    (∀ s, applyAll s xs = applyAll s ys) ↔ ∀ k, lastResult xs k = lastResult ys k := by
  constructor
  · intro h k
    obtain ⟨v⟩ := ‹Nonempty V›
    have hnone := congrFun (h fun _ => none) k
    have hsome := congrFun (h fun _ => some v) k
    simp only [applyAll_eq_lastResult] at hnone hsome
    -- An operation on one side only shows on the empty store or on a full one.
    cases hx : lastResult xs k with
    | none =>
      cases hy : lastResult ys k with
      | none => rfl
      | some r =>
        simp only [hx,hy,Option.getD_none,Option.getD_some] at hnone hsome
        exact absurd (hsome.trans hnone.symm) (by simp)
    | some r =>
      cases hy : lastResult ys k with
      | none =>
        simp only [hx,hy,Option.getD_none,Option.getD_some] at hnone hsome
        exact absurd (hsome.symm.trans hnone) (by simp)
      | some r' =>
        simp only [hx,hy,Option.getD_some] at hnone
        rw [hnone]
  · intro h s
    funext k
    rw [applyAll_eq_lastResult,applyAll_eq_lastResult,h k]

theorem lastResult_append (xs ys : List (Op L V)) (k : L) :
    lastResult (xs++ys) k = (lastResult ys k).or (lastResult xs k) := by
  induction xs with
  | nil => simp [lastResult]
  | cons op xs ih => rw [List.cons_append,lastResult,ih,lastResult,Option.or_assoc]

theorem lastResult_eq_none (ops : List (Op L V)) (k : L) :
    lastResult ops k = none ↔ ∀ op ∈ ops, op.key ≠ k := by
  induction ops with
  | nil => simp [lastResult]
  | cons op ops ih => simp [lastResult,Option.or_eq_none_iff,ih,and_comm]

omit [DecidableEq L] in
theorem exists_last {α : Type*} (p : α → Prop) (xs : List α) (h : ∃ x ∈ xs, p x) :
    ∃ before z after, xs = before++z::after ∧ p z ∧ ∀ y ∈ after, ¬p y := by
  induction xs with
  | nil => simp at h
  | cons x xs ih =>
    by_cases hlater : ∃ y ∈ xs, p y
    · obtain ⟨before,z,after,rfl,hz⟩ := ih hlater
      exact ⟨x::before,z,after,rfl,hz⟩
    · obtain ⟨y,hy,hpy⟩ := h
      have hnone : ∀ y ∈ xs, ¬p y := fun y hy hpy => hlater ⟨y,hy,hpy⟩
      rcases List.mem_cons.mp hy with rfl | hy
      · exact ⟨[],y,xs,rfl,hpy,hnone⟩
      · exact absurd hpy (hnone y hy)

section

variable {α : Type*} (act : α → Option (Op L V))

/-- Entries that act on other keys do not count. -/
theorem lastResult_filterMap_append (before after : List α) (k : L)
    (hafter : ∀ y ∈ after, ∀ o, act y = some o → o.key ≠ k) :
    lastResult ((before++after).filterMap act) k = lastResult (before.filterMap act) k := by
  have hnone : lastResult (after.filterMap act) k = none := by
    refine (lastResult_eq_none _ _).mpr fun o ho => ?_
    obtain ⟨y,hy,hact⟩ := List.mem_filterMap.mp ho
    exact hafter y hy o hact
  rw [List.filterMap_append,lastResult_append,hnone,Option.none_or]

theorem lastResult_filterMap_concat (before : List α) (z : α) (k : L) :
    lastResult ((before++[z]).filterMap act) k =
      ((act z).bind fun op => if op.key = k then some op.result else none).or
        (lastResult (before.filterMap act) k) := by
  rw [List.filterMap_append,lastResult_append]
  cases hz : act z with
  | none => simp [hz,lastResult]
  | some op => simp [hz,lastResult]

/-- What is left on a key is the result of the last entry that acts on it. -/
theorem lastResult_filterMap_eq_some (xs : List α) (k : L) (r : Option V) :
    lastResult (xs.filterMap act) k = some r ↔
      ∃ before z after op, xs = before++z::after ∧ act z = some op ∧ op.key = k ∧ op.result = r ∧
        ∀ y ∈ after, ∀ o, act y = some o → o.key ≠ k := by
  have hlast : ∀ before z after op, act z = some op → op.key = k →
      (∀ y ∈ after, ∀ o, act y = some o → o.key ≠ k) →
      lastResult ((before++z::after).filterMap act) k = some op.result := by
    intro before z after op hz hop hafter
    rw [List.append_cons,lastResult_filterMap_append act _ after k hafter,
      lastResult_filterMap_concat,hz,Option.bind_some,if_pos hop,Option.some_or]
  constructor
  · intro h
    by_cases hmem : ∃ x ∈ xs, ∃ op, act x = some op ∧ op.key = k
    · obtain ⟨before,z,after,rfl,⟨op,hz,hop⟩,hafter⟩ := exists_last _ xs hmem
      have hafter' : ∀ y ∈ after, ∀ o, act y = some o → o.key ≠ k :=
        fun y hy o ho hk => hafter y hy ⟨o,ho,hk⟩
      rw [hlast before z after op hz hop hafter'] at h
      exact ⟨before,z,after,op,rfl,hz,hop,Option.some.inj h,hafter'⟩
    · have hnone := lastResult_filterMap_append act [] xs k
        fun y hy o ho hk => hmem ⟨y,hy,o,ho,hk⟩
      rw [List.nil_append,h] at hnone
      cases hnone
  · rintro ⟨before,z,after,op,rfl,hz,hop,rfl,hafter⟩
    exact hlast before z after op hz hop hafter

/-- Entries that each stand for an operation and act, if at all, on its key leave what they stand for
exactly when those before and with the last entry of each key do. -/
theorem lastResult_filterMap_iff (mean : α → Op L V) (xs : List α)
    (hkey : ∀ x ∈ xs, ∀ op, act x = some op → op.key = (mean x).key) :
    (∀ k, lastResult (xs.filterMap act) k = lastResult (xs.map mean) k) ↔
      ∀ before x after, xs = before++x::after → (∀ y ∈ after, (mean y).key ≠ (mean x).key) →
        lastResult ((before++[x]).filterMap act) (mean x).key = some (mean x).result := by
  have hsplit : ∀ before x after, xs = before++x::after →
      (∀ y ∈ after, (mean y).key ≠ (mean x).key) →
      lastResult (xs.map mean) (mean x).key = some (mean x).result ∧
        lastResult (xs.filterMap act) (mean x).key =
          lastResult ((before++[x]).filterMap act) (mean x).key := by
    intro before x after hxs hafter
    constructor
    · rw [← List.filterMap_eq_map,lastResult_filterMap_eq_some]
      exact ⟨before,x,after,_,hxs,rfl,rfl,rfl,fun y hy o ho => Option.some.inj ho ▸ hafter y hy⟩
    · rw [hxs,List.append_cons]
      refine lastResult_filterMap_append act _ after _ fun y hy o ho => ?_
      rw [hkey y (hxs ▸ List.mem_append_right _ (List.mem_cons_of_mem _ hy)) o ho]
      exact hafter y hy
  constructor
  · intro h before x after hxs hafter
    obtain ⟨hmean,hact⟩ := hsplit before x after hxs hafter
    rw [← hact,h,hmean]
  · intro h k
    by_cases hmem : ∃ x ∈ xs, (mean x).key = k
    · obtain ⟨before,x,after,hxs,rfl,hafter⟩ := exists_last _ xs hmem
      obtain ⟨hmean,hact⟩ := hsplit before x after hxs hafter
      rw [hact,hmean,h before x after hxs hafter]
    · have hne : ∀ x ∈ xs, (mean x).key ≠ k := fun x hx hk => hmem ⟨x,hx,hk⟩
      have hnone := lastResult_filterMap_append act [] xs k
        fun y hy o ho => (hkey y hy o ho).symm ▸ hne y hy
      rw [List.nil_append] at hnone
      rw [hnone,(lastResult_eq_none (xs.map mean) k).mpr (by simpa using hne)]
      rfl

end

/-- The puts of a loop over a map, in the order of the loop. -/
def putOps (e : K → L) (m : K → Option V) (order : List K) : List (Op L V) :=
  order.filterMap fun k => (m k).map (.put (e k))

/-- The deletes of a loop over the keys that pass a test. -/
def deleteOps (e : K → L) (test : K → Bool) (order : List K) : List (Op L V) :=
  (order.filter test).map fun k => .delete (e k)

omit [DecidableEq L] in
theorem mem_putOps (e : K → L) (m : K → Option V) (order : List K) (op : Op L V) :
    op ∈ putOps e m order ↔ ∃ k ∈ order, ∃ v, m k = some v ∧ op = .put (e k) v := by
  simp only [putOps,List.mem_filterMap,Option.map_eq_some_iff]
  constructor
  · rintro ⟨k,hk,v,hv,rfl⟩
    exact ⟨k,hk,v,hv,rfl⟩
  · rintro ⟨k,hk,v,hv,rfl⟩
    exact ⟨k,hk,v,hv,rfl⟩

omit [DecidableEq L] in
theorem mem_deleteOps (e : K → L) (test : K → Bool) (order : List K) (op : Op L V) :
    op ∈ deleteOps e test order ↔ ∃ k ∈ order, test k = true ∧ op = .delete (e k) := by
  simp only [deleteOps,List.mem_map,List.mem_filter]
  constructor
  · rintro ⟨k,⟨hk,ht⟩,rfl⟩
    exact ⟨k,hk,ht,rfl⟩
  · rintro ⟨k,hk,ht,rfl⟩
    exact ⟨k,⟨hk,ht⟩,rfl⟩

/-- A loop of puts overwrites the store with the map, whatever its order. -/
theorem applyAll_putOps (e : K → L) (he : Function.Injective e) (m : K → Option V)
    (s : L → Option V) (order : List K) (h : Enumerates order m) (k : K) :
    applyAll s (putOps e m order) (e k) = (m k).or (s (e k)) := by
  cases hm : m k with
  | none =>
    refine applyAll_of_ne s _ _ fun op hop hkey => ?_
    obtain ⟨j,-,v,hv,rfl⟩ := (mem_putOps e m order op).mp hop
    obtain rfl : j = k := he hkey
    simp [hm] at hv
  | some v =>
    refine applyAll_of_unanimous s _ _ (some v) ?_ fun op hop hkey => ?_
    · have hk : k ∈ order := (h.mem_iff k).mpr (by simp [hm])
      exact ⟨.put (e k) v,(mem_putOps e m order _).mpr ⟨k,hk,v,hm,rfl⟩,rfl⟩
    · obtain ⟨j,-,w,hw,rfl⟩ := (mem_putOps e m order op).mp hop
      obtain rfl : j = k := he hkey
      exact hw.symm.trans hm

theorem applyAll_deleteOps [DecidableEq K] (e : K → L) (he : Function.Injective e) (test : K → Bool)
    (s : L → Option V) (order : List K) (k : K) :
    applyAll s (deleteOps e test order) (e k) =
      if k ∈ order ∧ test k = true then none else s (e k) := by
  by_cases hk : k ∈ order ∧ test k = true
  · rw [if_pos hk]
    refine applyAll_of_unanimous s _ _ none ?_ fun op hop _ => ?_
    · exact ⟨.delete (e k),(mem_deleteOps e test order _).mpr ⟨k,hk.1,hk.2,rfl⟩,rfl⟩
    · obtain ⟨j,-,-,rfl⟩ := (mem_deleteOps e test order op).mp hop
      rfl
  · rw [if_neg hk]
    refine applyAll_of_ne s _ _ fun op hop hkey => ?_
    obtain ⟨j,hj,ht,rfl⟩ := (mem_deleteOps e test order op).mp hop
    obtain rfl : j = k := he hkey
    exact hk ⟨hj,ht⟩

/-- The strings between a key and the key with its last letter one further are
those that begin with the key. -/
theorem mem_range_iff_prefix {α : Type*} [LinearOrder α] (p : List α) (a b : α) (hab : a ⋖ b)
    (x : List α) : (p++[a] ≤ x ∧ x < p++[b]) ↔ p++[a] <+: x := by
  simp only [← not_lt]
  induction p generalizing x with
  | nil =>
    cases x with
    | nil => simp
    | cons c cs =>
      have hone : ¬c < a ∧ c < b ↔ a = c := by
        constructor
        · rintro ⟨ha,hb⟩
          exact (not_lt.mp ha).eq_of_not_lt fun h => hab.2 h hb
        · rintro rfl
          exact ⟨lt_irrefl a,hab.1⟩
      simp only [List.nil_append,List.cons_lt_cons_iff,List.not_lt_nil,and_false,or_false,
        List.cons_prefix_cons,List.nil_prefix,and_true,hone]
  | cons q p ih =>
    cases x with
    | nil => simp
    | cons c cs =>
      simp only [List.cons_append,List.cons_lt_cons_iff,List.cons_prefix_cons,← ih]
      rcases lt_trichotomy q c with h | rfl | h
      · simp [h.ne',h.ne,h.not_gt]
      · simp
      · simp [h.ne',h]

end KeyValue
