import Mathlib.Data.Nat.ModEq
import Mathlib.Data.List.GetD
import Mathlib.Logic.Function.Basic

/-!
# A stream in a circular buffer

Byte `j` of a stream lies at offset `j` modulo the size of the buffer. A
buffer holds a window of the stream that is no longer than the buffer, so
writing behind the window changes nothing inside it.
-/

set_option autoImplicit false

namespace CircularStream

variable {α : Type*}

/-- The bytes from `lo` up to `hi` of the stream are in the buffer. -/
def Holds (n base : ℕ) (mem : ℕ → α) (xs : List α) (lo hi : ℕ) : Prop :=
  ∀ j, lo ≤ j → j < hi → xs[j]? = some (mem (base+j%n))

variable {n base lo hi : ℕ} {mem mem' : ℕ → α} {xs : List α}

theorem Holds.mono (h : Holds n base mem xs lo hi) {lo' hi' : ℕ} (hlo : lo ≤ lo') (hhi : hi' ≤ hi) :
    Holds n base mem xs lo' hi' :=
  fun j hj hj' => h j (by omega) (by omega)

theorem holds_empty (h : hi ≤ lo) : Holds n base mem xs lo hi := fun j hj hj' => absurd hj' (by omega)

/-- The stream grows behind the window. -/
theorem Holds.append (h : Holds n base mem xs lo hi) (ys : List α) (hhi : hi ≤ xs.length) :
    Holds n base mem (xs++ys) lo hi := by
  intro j hj hj'
  rw [List.getElem?_append_left (by omega)]
  exact h j hj hj'

/-- Positions of one window are at different offsets. -/
theorem offset_ne {j k : ℕ} (hlt : j < k) (hwin : k < j+n) : base+j%n ≠ base+k%n := by
  intro heq
  have hmod : j%n = k%n := by omega
  have hzero := Nat.sub_mod_eq_zero_of_mod_eq hmod.symm
  rw [Nat.mod_eq_of_lt (by omega)] at hzero
  omega

/-- The byte behind the window is written. -/
theorem Holds.write (h : Holds n base mem xs lo hi) (b : α) (hb : xs[hi]? = some b)
    (hroom : hi < lo+n) : Holds n base (Function.update mem (base+hi%n) b) xs lo (hi+1) := by
  intro j hj hj'
  by_cases hlast : j = hi
  · rw [hlast,Function.update_self]
    exact hb
  · rw [Function.update_of_ne (offset_ne (by omega) (by omega))]
    exact h j hj (by omega)

/-- What lies outside the offsets of the window may change. -/
theorem Holds.congr (h : Holds n base mem xs lo hi)
    (heq : ∀ j, lo ≤ j → j < hi → mem' (base+j%n) = mem (base+j%n)) :
    Holds n base mem' xs lo hi := by
  intro j hj hj'
  rw [heq j hj hj']
  exact h j hj hj'

/-- Going on by at most one round. -/
theorem add_mod_of_le {q i : ℕ} (hn : 0 < n) (hi : i ≤ n) :
    (q+i)%n = if q%n+i < n then q%n+i else q%n+i-n := by
  have hlt : q%n < n := Nat.mod_lt _ hn
  rw [← Nat.mod_add_mod]
  by_cases h : q%n+i < n
  · rw [if_pos h,Nat.mod_eq_of_lt h]
  · rw [if_neg h,Nat.mod_eq_sub_mod (by omega),Nat.mod_eq_of_lt (by omega)]

/-- A block is written behind the window. -/
theorem Holds.extend (h : Holds n base mem xs lo xs.length) (ys : List α)
    (hroom : xs.length+ys.length ≤ lo+n)
    (hnew : ∀ i b, ys[i]? = some b → mem' (base+(xs.length+i)%n) = b)
    (hold : ∀ a, (∀ i < ys.length, a ≠ base+(xs.length+i)%n) → mem' a = mem a) :
    Holds n base mem' (xs++ys) lo (xs.length+ys.length) := by
  intro j hj hj'
  by_cases hjx : j < xs.length
  · rw [List.getElem?_append_left hjx,h j hj hjx,hold]
    exact fun i hi => offset_ne (by omega) (by omega)
  · obtain ⟨i,rfl⟩ := Nat.exists_eq_add_of_le (Nat.not_lt.mp hjx)
    have hi : i < ys.length := by omega
    rw [List.getElem?_append_right (Nat.le_add_right _ _),Nat.add_sub_cancel_left,
      hnew i ys[i] (List.getElem?_eq_getElem hi)]
    exact List.getElem?_eq_getElem hi

/-- The pieces of the buffer that positions `q` up to `q+k` take: one, or two
when they run over its end. -/
def pieces (n base q k : ℕ) : List (ℕ × ℕ) :=
  if k ≤ n-q%n then [(base+q%n,k)] else [(base+q%n,n-q%n),(base,k-(n-q%n))]

/-- The address of byte `i` of some pieces. -/
def address : List (ℕ × ℕ) → ℕ → ℕ
  | [], _ => 0
  | (a,k)::rest, i => if i < k then a+i else address rest (i-k)

theorem address_pieces (q k i : ℕ) (hi : i < k) (hk : k ≤ n) :
    address (pieces n base q k) i = base+(q+i)%n := by
  have hlt : q%n < n := Nat.mod_lt _ (by omega)
  rw [add_mod_of_le (by omega) (by omega),pieces]
  by_cases hone : k ≤ n-q%n
  · rw [if_pos hone,address,if_pos hi,if_pos (by omega)]
    omega
  · rw [if_neg hone,address]
    by_cases hfirst : i < n-q%n
    · rw [if_pos hfirst,if_pos (by omega)]
      omega
    · rw [if_neg hfirst,if_neg (by omega),address,if_pos (by omega)]
      omega

/-- `k` bytes are read from offset `off`, going on at the start when the end
of the buffer is met. -/
def readFrom (n base : ℕ) (mem : ℕ → α) (off k : ℕ) : List α :=
  if n-off < k then (List.range (n-off)).map (fun i => mem (base+off+i))++
    (List.range (k-(n-off))).map (fun i => mem (base+i))
  else (List.range k).map fun i => mem (base+off+i)

/-- The offset behind a read. -/
def offsetAfter (n off k : ℕ) : ℕ := if n-off < k then k-(n-off) else off+k

theorem readFrom_length (mem : ℕ → α) (off k : ℕ) : (readFrom n base mem off k).length = k := by
  rw [readFrom]
  split
  · rw [List.length_append,List.length_map,List.length_map,List.length_range,List.length_range]
    omega
  · rw [List.length_map,List.length_range]

theorem readFrom_getElem? (mem : ℕ → α) (off k i : ℕ) (hoff : off ≤ n) (hk : k ≤ n) (hi : i < k) :
    (readFrom n base mem off k)[i]? = some (mem (base+(off+i)%n)) := by
  have hpos : 0 < n := by omega
  have hmod : (off+i)%n = if off+i < n then off+i else off+i-n := by
    by_cases h : off+i < n
    · rw [if_pos h,Nat.mod_eq_of_lt h]
    · rw [if_neg h,Nat.mod_eq_sub_mod (by omega)]
      by_cases h2 : off+i-n < n
      · exact Nat.mod_eq_of_lt h2
      · omega
  rw [hmod,readFrom]
  by_cases hwrap : n-off < k
  · rw [if_pos hwrap]
    by_cases hfirst : i < n-off
    · rw [List.getElem?_append_left (by simpa using hfirst),if_pos (by omega)]
      simp [hfirst,Nat.add_assoc]
    · rw [List.getElem?_append_right (by simpa using Nat.not_lt.mp hfirst),if_neg (by omega)]
      have hlt : i-(n-off) < k-(n-off) := by omega
      have hsub : i-(n-off) = off+i-n := by omega
      simp only [List.length_map,List.length_range,List.getElem?_map]
      rw [List.getElem?_range hlt,hsub]
      rfl
  · rw [if_neg hwrap,if_pos (by omega)]
    simp [hi,Nat.add_assoc]

/-- A read at the start of the window gives the bytes of the stream. -/
theorem Holds.readFrom (h : Holds n base mem xs lo hi) {off k : ℕ} (hoff : off ≤ n)
    (hmod : off%n = lo%n) (hk : k ≤ n) (hhi : lo+k ≤ hi) :
    readFrom n base mem off k = (xs.drop lo).take k := by
  apply List.ext_getElem?
  intro i
  by_cases hi : i < k
  · rw [readFrom_getElem? mem off k i hoff hk hi,List.getElem?_take_of_lt hi,List.getElem?_drop,
      h (lo+i) (by omega) (by omega),Nat.add_mod off,hmod,← Nat.add_mod]
  · rw [List.getElem?_eq_none (by rw [readFrom_length]; omega),
      List.getElem?_eq_none (by rw [List.length_take]; omega)]

theorem offsetAfter_le (off k : ℕ) (hk : k ≤ n) : offsetAfter n off k ≤ n ∨ n < off := by
  rw [offsetAfter]
  split <;> omega

theorem offsetAfter_mod (off k : ℕ) (hoff : off ≤ n) : offsetAfter n off k%n = (off+k)%n := by
  rw [offsetAfter]
  by_cases h : n-off < k
  · rw [if_pos h]
    have hsub : off+k = k-(n-off)+n := by omega
    rw [hsub,Nat.add_mod_right]
  · rw [if_neg h]

end CircularStream
