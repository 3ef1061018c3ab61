import Mathlib.Logic.Function.Basic
import Mathlib.Algebra.Order.Group.Nat

/-!
# Records in a flat memory

A memory sends offsets to values; a value stands at the offset of the field
that holds it. A record is a block of `size` offsets. Arrays of records lie
one after the other. A list of records is walked from pointer to pointer up to
the null pointer.
-/

set_option autoImplicit false

namespace CellRecords

variable {W : Type*} {size : ℕ} {m m' : ℕ → W}

/-- A copy of `n` offsets to `dst`. -/
def blit (m : ℕ → W) (dst n : ℕ) (f : ℕ → W) : ℕ → W :=
  fun a => if dst ≤ a ∧ a < dst+n then f (a-dst) else m a

def Record (size : ℕ) (m : ℕ → W) (p : ℕ) (f : ℕ → W) : Prop := ∀ k < size, m (p+k) = f k

def Records (size : ℕ) (m : ℕ → W) : ℕ → List (ℕ → W) → Prop
  | _, [] => True
  | p, f::fs => Record size m p f ∧ Records size m (p+size) fs

theorem blit_of_not (dst n : ℕ) (f : ℕ → W) (a : ℕ) (ha : a < dst ∨ dst+n ≤ a) :
    blit m dst n f a = m a := if_neg (by omega)

theorem blit_record (m : ℕ → W) (dst n : ℕ) (f : ℕ → W) : Record n (blit m dst n f) dst f := by
  intro k hk
  rw [blit,if_pos ⟨Nat.le_add_right _ _,by omega⟩,Nat.add_sub_cancel_left]

theorem Record.congr {p : ℕ} {f : ℕ → W} (h : Record size m p f)
    (heq : ∀ a, p ≤ a → a < p+size → m' a = m a) : Record size m' p f := by
  intro k hk
  rw [heq _ (Nat.le_add_right _ _) (by omega)]
  exact h k hk

theorem Record.update {p : ℕ} {f : ℕ → W} (h : Record size m p f) (k : ℕ) (v : W) :
    Record size (Function.update m (p+k) v) p (Function.update f k v) := by
  intro j hj
  by_cases hjk : j = k
  · rw [hjk,Function.update_self,Function.update_self]
  · rw [Function.update_of_ne hjk,Function.update_of_ne (by omega)]
    exact h j hj

theorem Records.congr {p : ℕ} {fs : List (ℕ → W)} (h : Records size m p fs)
    (heq : ∀ a, p ≤ a → a < p+size*fs.length → m' a = m a) : Records size m' p fs := by
  induction fs generalizing p with
  | nil => trivial
  | cons f fs ih =>
    rw [List.length_cons,Nat.mul_succ] at heq
    constructor
    · exact h.1.congr fun a hlo hhi => heq a hlo (by omega)
    · exact ih h.2 fun a hlo hhi => heq a (by omega) (by omega)

theorem records_append (p : ℕ) (fs gs : List (ℕ → W)) :
    Records size m p (fs++gs) ↔ Records size m p fs ∧ Records size m (p+size*fs.length) gs := by
  induction fs generalizing p with
  | nil => simp [Records]
  | cons f fs ih =>
    have hend : p+size+size*fs.length = p+size*(f::fs).length := by
      rw [List.length_cons,Nat.mul_succ]
      omega
    rw [List.cons_append,Records,Records,ih,hend,and_assoc]

/-- Records copied one after the other. -/
def blitAll (size : ℕ) (m : ℕ → W) : ℕ → List (ℕ → W) → ℕ → W
  | _, [] => m
  | p, f::fs => blitAll size (blit m p size f) (p+size) fs

theorem blitAll_of_not (p : ℕ) (fs : List (ℕ → W)) (a : ℕ)
    (ha : a < p ∨ p+size*fs.length ≤ a) : blitAll size m p fs a = m a := by
  induction fs generalizing p m with
  | nil => rfl
  | cons f fs ih =>
    rw [List.length_cons,Nat.mul_succ] at ha
    rw [blitAll,ih (p+size) (by omega),blit_of_not p size f a (by omega)]

theorem blitAll_records (m : ℕ → W) (p : ℕ) (fs : List (ℕ → W)) :
    Records size (blitAll size m p fs) p fs := by
  induction fs generalizing p m with
  | nil => trivial
  | cons f fs ih =>
    constructor
    · exact (blit_record m p size f).congr fun a _ hhi => blitAll_of_not (p+size) fs a (Or.inl hhi)
    · exact ih _ _

/-- The pointers visited from `p` on, in at most `fuel` steps. -/
def walk (next : ℕ → ℕ) : ℕ → ℕ → Option (List ℕ)
  | 0, _ => none
  | fuel+1, p => if p = 0 then some [] else (walk next fuel (next p)).map (p::·)

theorem walk_null (next : ℕ → ℕ) (fuel : ℕ) : walk next (fuel+1) 0 = some [] := rfl

theorem walk_succ (next : ℕ → ℕ) (fuel p : ℕ) (hp : p ≠ 0) :
    walk next (fuel+1) p = (walk next fuel (next p)).map (p::·) := if_neg hp

theorem walk_unique (next : ℕ → ℕ) (fuel fuel' p : ℕ) (ps ps' : List ℕ)
    (h : walk next fuel p = some ps) (h' : walk next fuel' p = some ps') : ps = ps' := by
  induction fuel generalizing fuel' p ps ps' with
  | zero => simp [walk] at h
  | succ fuel ih =>
    cases fuel' with
    | zero => simp [walk] at h'
    | succ fuel' =>
      by_cases hp : p = 0
      · rw [hp,walk_null,Option.some.injEq] at h h'
        rw [← h,← h']
      · rw [walk_succ _ _ _ hp,Option.map_eq_some_iff] at h h'
        obtain ⟨rest,hrest,rfl⟩ := h
        obtain ⟨rest',hrest',rfl⟩ := h'
        rw [ih fuel' _ rest rest' hrest hrest']

/-- From the `i`-th record on, the walk visits what is left. -/
theorem walk_iterate (next : ℕ → ℕ) (fuel p : ℕ) (ps : List ℕ) (i : ℕ) (hi : i ≤ ps.length)
    (h : walk next fuel p = some ps) : ∃ fuel', walk next fuel' (next^[i] p) = some (ps.drop i) := by
  induction i generalizing fuel p ps with
  | zero => exact ⟨fuel,h⟩
  | succ i ih =>
    cases fuel with
    | zero => simp [walk] at h
    | succ fuel =>
      by_cases hp : p = 0
      · rw [hp,walk_null,Option.some.injEq] at h
        rw [← h] at hi
        exact absurd hi (Nat.not_succ_le_zero i)
      · rw [walk_succ _ _ _ hp,Option.map_eq_some_iff] at h
        obtain ⟨rest,hrest,rfl⟩ := h
        exact ih fuel (next p) rest (Nat.le_of_succ_le_succ hi) hrest

theorem walk_head (next : ℕ → ℕ) (fuel p q : ℕ) (qs : List ℕ)
    (h : walk next fuel p = some (q::qs)) : q = p := by
  cases fuel with
  | zero => simp [walk] at h
  | succ fuel =>
    by_cases hp : p = 0
    · rw [hp,walk_null] at h
      simp at h
    · rw [walk_succ _ _ _ hp,Option.map_eq_some_iff] at h
      obtain ⟨rest,-,heq⟩ := h
      exact (List.cons.inj heq).1.symm

theorem walk_get (next : ℕ → ℕ) (fuel p : ℕ) (ps : List ℕ) (i q : ℕ)
    (h : walk next fuel p = some ps) (hq : ps[i]? = some q) : next^[i] p = q := by
  obtain ⟨hi,hget⟩ := List.getElem?_eq_some_iff.mp hq
  obtain ⟨fuel',hwalk⟩ := walk_iterate next fuel p ps i hi.le h
  rw [List.drop_eq_getElem_cons hi,hget] at hwalk
  exact (walk_head next fuel' _ q _ hwalk).symm

/-- A list that ends has no record twice. -/
theorem walk_iterate_ne (next : ℕ → ℕ) (fuel p : ℕ) (ps : List ℕ) (i j : ℕ)
    (h : walk next fuel p = some ps) (hj : j ≤ ps.length) (hij : i < j) :
    next^[i] p ≠ next^[j] p := by
  intro heq
  obtain ⟨fuel₁,h₁⟩ := walk_iterate next fuel p ps i (hij.le.trans hj) h
  obtain ⟨fuel₂,h₂⟩ := walk_iterate next fuel p ps j hj h
  rw [heq] at h₁
  have hlength := congrArg List.length (walk_unique next fuel₁ fuel₂ _ _ _ h₁ h₂)
  rw [List.length_drop,List.length_drop] at hlength
  omega

end CellRecords
