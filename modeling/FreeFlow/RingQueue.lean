import Mathlib.Data.Nat.ModEq
import Mathlib.Logic.Function.Basic

/-!
# Queues in a ring of slots

A producer index and a consumer index run round an array of slots. Each
index is a counter of `w` bits that is reset when it reaches `size`, so it
runs through the smaller of the two ranges. Slots are overwritten in place
and a slot keeps its old content until then.
-/

set_option autoImplicit false

namespace RingQueue

variable {α β : Type*}

structure Queue (α : Type*) where
  slot : ℕ → α
  head : ℕ
  tail : ℕ

def bump (w size i : ℕ) : ℕ := if size ≤ (i+1)%2^w then 0 else (i+1)%2^w

/-- The number of slots the indices run through. -/
def period (w size : ℕ) : ℕ := min (2^w) size

theorem bump_eq (w size i : ℕ) (hi : i < period w size) :
    bump w size i = (i+1)%period w size := by
  have hpow : i < 2^w := lt_of_lt_of_le hi (min_le_left _ _)
  have hsize : i < size := lt_of_lt_of_le hi (min_le_right _ _)
  have hmin : period w size ≤ 2^w ∧ period w size ≤ size := ⟨min_le_left _ _,min_le_right _ _⟩
  rw [bump]
  by_cases hlast : i+1 = period w size
  · rw [hlast,Nat.mod_self]
    by_cases hle : size ≤ 2^w
    · have hper : period w size = size := min_eq_right hle
      rw [hper]
      by_cases heq : size = 2^w
      · simp [heq]
      · rw [if_pos (by rw [Nat.mod_eq_of_lt (by omega)])]
    · have hper : period w size = 2^w := min_eq_left (by omega)
      simp [hper]
  · have hlt : i+1 < period w size := by omega
    rw [Nat.mod_eq_of_lt hlt,Nat.mod_eq_of_lt (by omega),if_neg (by omega)]

def push (w size : ℕ) (r : Queue α) (f : α → α) : Queue α :=
  {r with slot := Function.update r.slot r.head (f (r.slot r.head)),head := bump w size r.head}

theorem push_slot (w size : ℕ) (r : Queue α) (f : α → α) (q : ℕ) :
    (push w size r f).slot q = if q = r.head then f (r.slot r.head) else r.slot q :=
  Function.update_apply _ _ _ _

def front (r : Queue α) : α := r.slot r.tail

def pop (w size : ℕ) (r : Queue α) : Queue α := {r with tail := bump w size r.tail}

/-- From the tail on, the slots stand in the relation `R` to the items of a
list. -/
structure Holds (R : α → β → Prop) (n : ℕ) (r : Queue α) (xs : List β) : Prop where
  tail_lt : r.tail < n
  length_le : xs.length ≤ n
  head_eq : r.head = (r.tail+xs.length)%n
  slots : ∀ (i : ℕ) (x : β), xs[i]? = some x → R (r.slot ((r.tail+i)%n)) x

variable {R : α → β → Prop} {w size : ℕ} {r : Queue α}

theorem holds_empty (R : α → β → Prop) (n : ℕ) (hn : 0 < n) (slot : ℕ → α) :
    Holds R n ⟨slot,0,0⟩ [] :=
  ⟨hn,Nat.zero_le n,(Nat.mod_eq_of_lt hn).symm,by simp⟩

theorem Holds.front {xs : List β} {x : β} {n : ℕ} (h : Holds R n r (x::xs)) : R (front r) x := by
  have hslot := h.slots 0 x rfl
  rwa [Nat.add_zero,Nat.mod_eq_of_lt h.tail_lt] at hslot

theorem Holds.pop {xs : List β} {x : β} (h : Holds R (period w size) r (x::xs)) :
    Holds R (period w size) (pop w size r) xs := by
  have htail : (RingQueue.pop w size r).tail = (r.tail+1)%period w size :=
    bump_eq w size r.tail h.tail_lt
  have hpos : 0 < period w size := Nat.zero_lt_of_lt h.tail_lt
  have hlen : xs.length+1 ≤ period w size := h.length_le
  constructor
  · rw [htail]
    exact Nat.mod_lt _ hpos
  · omega
  · rw [htail,Nat.mod_add_mod,Nat.add_assoc,Nat.add_comm 1]
    exact h.head_eq
  · intro i y hy
    rw [htail,Nat.mod_add_mod,Nat.add_assoc,Nat.add_comm 1]
    exact h.slots (i+1) y hy

/-- The item in front is replaced where it lies. -/
theorem Holds.replace {xs : List β} {x y : β} {n : ℕ} {a : α} (h : Holds R n r (x::xs)) (ha : R a y) :
    Holds R n {r with slot := Function.update r.slot r.tail a} (y::xs) := by
  refine ⟨h.tail_lt,h.length_le,h.head_eq,fun i z hz => ?_⟩
  have hlen : xs.length+1 ≤ n := h.length_le
  cases i with
  | zero =>
    obtain rfl : y = z := by simpa using hz
    show R (Function.update r.slot r.tail a ((r.tail+0)%n)) y
    rw [Nat.add_zero,Nat.mod_eq_of_lt h.tail_lt,Function.update_self]
    exact ha
  | succ i =>
    have hi : i < xs.length := Nat.lt_of_succ_lt_succ (List.getElem?_eq_some_iff.mp hz).1
    have hne : (r.tail+(i+1))%n ≠ r.tail := by
      intro heq
      have hmod : r.tail+(i+1) ≡ r.tail+0 [MOD n] := heq.trans (Nat.mod_eq_of_lt h.tail_lt).symm
      exact absurd ((Nat.ModEq.add_left_cancel' r.tail hmod).eq_of_lt_of_lt (by omega) (by omega))
        (by omega)
    show R (Function.update r.slot r.tail a ((r.tail+(i+1))%n)) z
    rw [Function.update_of_ne hne]
    exact h.slots (i+1) z hz

/-- A push into a ring that is not full keeps the queued items. -/
theorem Holds.push {xs : List β} (h : Holds R (period w size) r xs)
    (hlen : xs.length < period w size) (f : α → α) (x : β) (hx : ∀ a, R (f a) x) :
    Holds R (period w size) (push w size r f) (xs++[x]) := by
  have hpos : 0 < period w size := Nat.zero_lt_of_lt h.tail_lt
  constructor
  · exact h.tail_lt
  · rw [List.length_append]
    exact hlen
  · rw [List.length_append,List.length_singleton,← Nat.add_assoc]
    show bump w size r.head = _
    rw [bump_eq w size r.head (by rw [h.head_eq]; exact Nat.mod_lt _ hpos),h.head_eq,
      Nat.mod_add_mod]
    rfl
  · intro i y hy
    show R (Function.update r.slot r.head (f (r.slot r.head)) ((r.tail+i)%period w size)) y
    by_cases hi : i < xs.length
    · rw [List.getElem?_append_left hi] at hy
      -- fewer items than slots: the slot of a queued item is not the one at the head
      have hne : (r.tail+i)%period w size ≠ r.head := by
        rw [h.head_eq]
        intro heq
        have hmod : i ≡ xs.length [MOD period w size] := Nat.ModEq.add_left_cancel' r.tail heq
        exact absurd (hmod.eq_of_lt_of_lt (by omega) hlen) (by omega)
      rw [Function.update_of_ne hne]
      exact h.slots i y hy
    · have hlast : i = xs.length := by
        have hbound := (List.getElem?_eq_some_iff.mp hy).1
        rw [List.length_append,List.length_singleton] at hbound
        omega
      subst hlast
      rw [← h.head_eq,Function.update_self]
      obtain rfl : x = y := by simpa using hy
      exact hx _

/-- Counters fewer than a period apart stand at different slots. -/
theorem slot_ne {n a b : ℕ} (hlt : a < b) (hn : b < a+n) : a%n ≠ b%n := by
  intro heq
  have hzero := Nat.sub_mod_eq_zero_of_mod_eq heq.symm
  rw [Nat.mod_eq_of_lt (by omega)] at hzero
  omega

section Batches

variable {γ : Type*}

/-- The items pushed one after the other. -/
def pushAll (w size : ℕ) (fill : β → α → α) (r : Queue α) (xs : List β) : Queue α :=
  xs.foldl (fun r x => push w size r (fill x)) r

variable (fill : β → α → α)

theorem pushAll_tail (r : Queue α) (xs : List β) : (pushAll w size fill r xs).tail = r.tail := by
  induction xs generalizing r with
  | nil => rfl
  | cons x xs ih => exact ih _

theorem push_head (f : α → α) (hhead : r.head < period w size) :
    (push w size r f).head = (r.head+1)%period w size := bump_eq w size r.head hhead

theorem pushAll_head (r : Queue α) (xs : List β) (hhead : r.head < period w size) :
    (pushAll w size fill r xs).head = (r.head+xs.length)%period w size := by
  induction xs generalizing r with
  | nil => exact (Nat.mod_eq_of_lt hhead).symm
  | cons x xs ih =>
    have hnext := push_head (fill x) hhead
    have hlt : (push w size r (fill x)).head < period w size := by
      rw [hnext]
      exact Nat.mod_lt _ (Nat.zero_lt_of_lt hhead)
    show (pushAll w size fill (push w size r (fill x)) xs).head = _
    rw [ih _ hlt,hnext,Nat.mod_add_mod,List.length_cons,Nat.add_assoc,Nat.add_comm 1]

theorem pushAll_slot_of_not (r : Queue α) (xs : List β) (q : ℕ) (hhead : r.head < period w size)
    (hq : ∀ i < xs.length, (r.head+i)%period w size ≠ q) :
    (pushAll w size fill r xs).slot q = r.slot q := by
  induction xs generalizing r with
  | nil => rfl
  | cons x xs ih =>
    have hnext := push_head (fill x) hhead
    have hfirst : q ≠ r.head := by
      have := hq 0 (Nat.succ_pos _)
      rw [Nat.add_zero,Nat.mod_eq_of_lt hhead] at this
      exact this.symm
    refine (ih (push w size r (fill x)) ?_ ?_).trans (Function.update_of_ne hfirst _ _)
    · rw [hnext]
      exact Nat.mod_lt _ (Nat.zero_lt_of_lt hhead)
    · intro i hi
      rw [hnext,Nat.mod_add_mod,Nat.add_assoc,Nat.add_comm 1]
      exact hq (i+1) (Nat.succ_lt_succ hi)

/-- The last push that reaches a slot is the one found there. -/
theorem pushAll_slot (r : Queue α) (xs : List β) (i : ℕ) (x : β) (hhead : r.head < period w size)
    (hx : xs[i]? = some x) (hlast : xs.length ≤ i+period w size) :
    ∃ a, (pushAll w size fill r xs).slot ((r.head+i)%period w size) = fill x a := by
  induction xs generalizing r i with
  | nil => simp at hx
  | cons y xs ih =>
    have hnext := push_head (fill y) hhead
    have hlt : (push w size r (fill y)).head < period w size := by
      rw [hnext]
      exact Nat.mod_lt _ (Nat.zero_lt_of_lt hhead)
    rw [List.length_cons] at hlast
    cases i with
    | zero =>
      obtain rfl : y = x := by simpa using hx
      rw [Nat.add_zero,Nat.mod_eq_of_lt hhead]
      refine ⟨r.slot r.head,?_⟩
      refine (pushAll_slot_of_not fill (push w size r (fill y)) xs r.head hlt ?_).trans
        (Function.update_self _ _ _)
      intro j hj heq
      rw [hnext,Nat.mod_add_mod] at heq
      exact slot_ne (by omega) (by omega) ((Nat.mod_eq_of_lt hhead).trans heq.symm)
    | succ i =>
      have hrest := ih (push w size r (fill y)) i hlt (by simpa using hx) (by omega)
      rw [hnext,Nat.mod_add_mod,Nat.add_assoc,Nat.add_comm 1] at hrest
      exact hrest

/-- A batch that fits keeps the queued items. -/
theorem Holds.pushAll {ys : List γ} {R : α → γ → Prop} (h : Holds R (period w size) r ys)
    (xs : List β) (hlen : ys.length+xs.length ≤ period w size) (item : β → γ)
    (hitem : ∀ x a, R (fill x a) (item x)) :
    Holds R (period w size) (pushAll w size fill r xs) (ys++xs.map item) := by
  induction xs generalizing r ys with
  | nil => simpa [RingQueue.pushAll] using h
  | cons x xs ih =>
    rw [List.length_cons] at hlen
    have hone := h.push (by omega) (fill x) (item x) (hitem x)
    have hrest := ih hone (by rw [List.length_append,List.length_singleton]; omega)
    rw [List.append_assoc] at hrest
    exact hrest

/-- The slots from the tail to the head. -/
def contents (n : ℕ) (r : Queue α) : List α :=
  (List.range ((r.head+n-r.tail)%n)).map fun i => r.slot ((r.tail+i)%n)

theorem contents_length (n : ℕ) (r : Queue α) :
    (contents n r).length = (r.head+n-r.tail)%n := by
  rw [contents,List.length_map,List.length_range]

theorem contents_get (n : ℕ) (r : Queue α) (i : ℕ) (hi : i < (r.head+n-r.tail)%n) :
    (contents n r)[i]? = some (r.slot ((r.tail+i)%n)) := by
  rw [contents,List.getElem?_map,List.getElem?_range hi]
  rfl

theorem head_of_contents {n : ℕ} (hhead : r.head < n) (htail : r.tail < n) :
    r.head = (r.tail+(contents n r).length)%n := by
  have hsum : r.tail+(r.head+n-r.tail) = r.head+n := by omega
  rw [contents_length,Nat.add_mod_mod,hsum,Nat.add_mod_right,Nat.mod_eq_of_lt hhead]

variable (view : α → γ)

theorem holds_contents {n : ℕ} (hhead : r.head < n) (htail : r.tail < n) :
    Holds (fun a c => view a = c) n r ((contents n r).map view) := by
  have hlen := contents_length n r
  have hlt : (contents n r).length < n := by
    rw [hlen]
    exact Nat.mod_lt _ (Nat.zero_lt_of_lt hhead)
  refine ⟨htail,by rw [List.length_map]; omega,?_,?_⟩
  · rw [List.length_map]
    exact head_of_contents hhead htail
  · intro i c hc
    rw [List.getElem?_map,Option.map_eq_some_iff] at hc
    obtain ⟨a,ha,hac⟩ := hc
    have hi := (List.getElem?_eq_some_iff.mp ha).1
    rw [contents_get n r i (hlen ▸ hi)] at ha
    rw [Option.some.inj ha]
    exact hac

theorem Holds.contents {n : ℕ} {cs : List γ} (h : Holds (fun a c => view a = c) n r cs)
    (hlen : cs.length < n) : (contents n r).map view = cs := by
  have htail := h.tail_lt
  have hcount : (r.head+n-r.tail)%n = cs.length := by
    rw [h.head_eq]
    by_cases hwrap : r.tail+cs.length < n
    · rw [Nat.mod_eq_of_lt hwrap,show r.tail+cs.length+n-r.tail = cs.length+n by omega,
        Nat.add_mod_right,Nat.mod_eq_of_lt hlen]
    · have hmod : (r.tail+cs.length)%n = r.tail+cs.length-n := by
        rw [Nat.mod_eq_sub_mod (by omega),Nat.mod_eq_of_lt (by omega)]
      rw [hmod,show r.tail+cs.length-n+n-r.tail = cs.length by omega,Nat.mod_eq_of_lt hlen]
  apply List.ext_getElem?
  intro i
  by_cases hi : i < cs.length
  · rw [List.getElem?_map,contents_get n r i (hcount ▸ hi),List.getElem?_eq_getElem hi,
      Option.map_some,h.slots i _ (List.getElem?_eq_getElem hi)]
  · rw [List.getElem?_eq_none (by rw [List.length_map,contents_length,hcount]; omega),
      List.getElem?_eq_none (by omega)]

end Batches

end RingQueue
