import Mathlib.Logic.Function.Basic
import Mathlib.Algebra.Order.Group.Nat

/-!
# Paged address spaces over shared objects

A page table sends page numbers to pages of objects; the bytes belong to the
objects. Two pages of an address space may show the same page of an object,
and an object may be shown nowhere. `mapFixed` replaces pages of the table
and touches no byte, stores touch bytes and leave the table alone.
-/

set_option autoImplicit false

namespace PagedMemory

variable {O B : Type*}

structure Frame (O : Type*) where
  obj : O
  page : ℕ
  deriving DecidableEq

structure Space (O B : Type*) where
  table : ℕ → Frame O
  data : O → ℕ → B

/-- The object and the offset an address shows. -/
def Space.loc (P : ℕ) (s : Space O B) (a : ℕ) : O × ℕ :=
  ((s.table (a/P)).obj,(s.table (a/P)).page*P+a%P)

def Space.read (P : ℕ) (s : Space O B) (a : ℕ) : B := s.data (s.loc P a).1 (s.loc P a).2

/-- The first `n` bytes of an object are shown from a page on. -/
def Space.Shows (P : ℕ) (s : Space O B) (page n : ℕ) (o : O) : Prop :=
  ∀ x < n, s.table (page+x/P) = ⟨o,x/P⟩

theorem loc_of_table (P : ℕ) (hP : 0 < P) (s : Space O B) (page x : ℕ) (o : O)
    (h : s.table (page+x/P) = ⟨o,x/P⟩) : s.loc P (page*P+x) = (o,x) := by
  have hdiv : (page*P+x)/P = page+x/P := by
    rw [Nat.mul_comm,Nat.mul_add_div hP]
  have hmod : (page*P+x)%P = x%P := by
    rw [Nat.mul_comm,Nat.mul_add_mod]
  rw [Space.loc,hdiv,hmod,h]
  exact Prod.ext rfl (Nat.div_add_mod' x P)

theorem Space.Shows.loc {P : ℕ} (hP : 0 < P) {s : Space O B} {page n : ℕ} {o : O}
    (h : s.Shows P page n o) (x : ℕ) (hx : x < n) : s.loc P (page*P+x) = (o,x) :=
  loc_of_table P hP s page x o (h x hx)

/-- The number of pages that `n` bytes take. -/
def pages (P n : ℕ) : ℕ := (n+P-1)/P

theorem div_lt_pages (P : ℕ) (hP : 0 < P) (n x : ℕ) (hx : x < n) : x/P < pages P n := by
  rw [pages,Nat.div_lt_iff_lt_mul hP]
  have hle : n ≤ (n+P-1)/P*P := by
    have hdiv := Nat.div_add_mod (n+P-1) P
    have hmod := Nat.mod_lt (n+P-1) hP
    rw [Nat.mul_comm] at hdiv
    omega
  omega

theorem mul_lt_of_lt_pages (P : ℕ) (n i : ℕ) (hi : i < pages P n) : i*P < n := by
  have hle : (i+1)*P ≤ n+P-1 := by
    calc (i+1)*P ≤ (n+P-1)/P*P := Nat.mul_le_mul_right P hi
      _ ≤ n+P-1 := Nat.div_mul_le_self _ _
  rw [Nat.add_mul,Nat.one_mul] at hle
  by_cases hP : P = 0
  · simp [hP,pages] at hi
  · omega

def Space.mapFixed (s : Space O B) (page n : ℕ) (o : O) : Space O B :=
  {s with table := fun p => if page ≤ p ∧ p < page+n then ⟨o,p-page⟩ else s.table p}

theorem mapFixed_shows (P : ℕ) (hP : 0 < P) (s : Space O B) (page n : ℕ) (o : O) :
    (s.mapFixed page (pages P n) o).Shows P page n o := by
  intro x hx
  have hlt := div_lt_pages P hP n x hx
  simp only [Space.mapFixed]
  rw [if_pos ⟨Nat.le_add_right _ _,by omega⟩,Nat.add_sub_cancel_left]

theorem mapFixed_table_of_not (s : Space O B) (page n : ℕ) (o : O) (p : ℕ)
    (h : ¬(page ≤ p ∧ p < page+n)) : (s.mapFixed page n o).table p = s.table p := if_neg h

variable [DecidableEq O]

def Space.write (P : ℕ) (s : Space O B) (a : ℕ) (b : B) : Space O B :=
  let o := (s.loc P a).1
  {s with data := Function.update s.data o (Function.update (s.data o) (s.loc P a).2 b)}

/-- Stores of `f 0`, …, `f (n-1)` at consecutive addresses. -/
def Space.store (P : ℕ) (s : Space O B) (a : ℕ) : ℕ → (ℕ → B) → Space O B
  | 0, _ => s
  | n+1, f => (s.store P a n f).write P (a+n) (f n)

def Space.memcpy (P : ℕ) (s : Space O B) (dst src n : ℕ) : Space O B :=
  s.store P dst n fun i => s.read P (src+i)

@[simp] theorem write_table (P : ℕ) (s : Space O B) (a : ℕ) (b : B) :
    (s.write P a b).table = s.table := rfl

theorem write_data (P : ℕ) (s : Space O B) (a : ℕ) (b : B) (o : O) (x : ℕ) :
    (s.write P a b).data o x = if (o,x) = s.loc P a then b else s.data o x := by
  simp only [Space.write]
  by_cases ho : o = (s.loc P a).1
  · subst ho
    by_cases hx : x = (s.loc P a).2
    · simp [hx]
    · simp [hx,Prod.ext_iff]
  · simp [ho,Prod.ext_iff]

@[simp] theorem store_table (P : ℕ) (s : Space O B) (a n : ℕ) (f : ℕ → B) :
    (s.store P a n f).table = s.table := by
  induction n with
  | zero => rfl
  | succ n ih => exact ih

omit [DecidableEq O] in
theorem loc_congr (P : ℕ) (s t : Space O B) (h : t.table = s.table) (a : ℕ) :
    t.loc P a = s.loc P a := by simp only [Space.loc,h]

theorem write_read (P : ℕ) (s : Space O B) (a : ℕ) (b : B) : (s.write P a b).read P a = b := by
  rw [Space.read,loc_congr P s _ (write_table P s a b),write_data,if_pos rfl]

/-- Stores change no byte that none of their addresses shows. -/
theorem store_data_of_not (P : ℕ) (s : Space O B) (a n : ℕ) (f : ℕ → B) (o : O) (x : ℕ)
    (h : ∀ i < n, s.loc P (a+i) ≠ (o,x)) : (s.store P a n f).data o x = s.data o x := by
  induction n with
  | zero => rfl
  | succ n ih =>
    rw [Space.store,write_data,loc_congr P s _ (store_table P s a n f),
      if_neg (h n (Nat.lt_succ_self n)).symm]
    exact ih fun i hi => h i (Nat.lt_succ_of_lt hi)

/-- Stores through addresses that show different bytes, read back. -/
theorem store_read (P : ℕ) (s : Space O B) (a n : ℕ) (f : ℕ → B)
    (h : ∀ i < n, ∀ j < n, s.loc P (a+i) = s.loc P (a+j) → i = j) (i : ℕ) (hi : i < n) :
    (s.store P a n f).read P (a+i) = f i := by
  induction n with
  | zero => exact absurd hi (Nat.not_lt_zero i)
  | succ n ih =>
    have hloc := loc_congr P s _ (store_table P s a n f)
    by_cases hlast : i = n
    · rw [hlast,Space.store,write_read]
    · have hlt : i < n := by omega
      have hne : s.loc P (a+i) ≠ s.loc P (a+n) := fun heq => hlast (h i hi n (Nat.lt_succ_self n) heq)
      rw [Space.store,Space.read,loc_congr P _ _ (write_table P _ _ _),write_data,hloc,hloc,
        if_neg hne,← hloc]
      exact ih (fun i hi j hj => h i (Nat.lt_succ_of_lt hi) j (Nat.lt_succ_of_lt hj)) hlt

/-- Stores into shown bytes of an object, read in the object. -/
theorem store_data (P : ℕ) (s : Space O B) (a n : ℕ) (f : ℕ → B) (o : O) (off : ℕ)
    (h : ∀ i < n, s.loc P (a+i) = (o,off+i)) (o' : O) (x : ℕ) :
    (s.store P a n f).data o' x =
      if o' = o ∧ off ≤ x ∧ x < off+n then f (x-off) else s.data o' x := by
  induction n with
  | zero =>
    rw [if_neg (by omega)]
    rfl
  | succ n ih =>
    rw [Space.store,write_data,loc_congr P s _ (store_table P s a n f),
      h n (Nat.lt_succ_self n),ih fun i hi => h i (Nat.lt_succ_of_lt hi)]
    by_cases hlast : (o',x) = (o,off+n)
    · obtain ⟨rfl,rfl⟩ : o' = o ∧ x = off+n := by simpa using hlast
      rw [if_pos rfl,if_pos ⟨rfl,Nat.le_add_right _ _,by omega⟩,Nat.add_sub_cancel_left]
    · rw [if_neg hlast]
      have hiff : (o' = o ∧ off ≤ x ∧ x < off+n) ↔ (o' = o ∧ off ≤ x ∧ x < off+(n+1)) := by
        constructor
        · rintro ⟨ho,hlo,hhi⟩
          exact ⟨ho,hlo,by omega⟩
        · rintro ⟨ho,hlo,hhi⟩
          refine ⟨ho,hlo,?_⟩
          have hne : x ≠ off+n := fun hx => hlast (Prod.ext ho hx)
          omega
      simp only [hiff]

end PagedMemory
