import Mathlib.Algebra.GroupWithZero.Nat
import Mathlib.Data.List.GetD

/-!
# A memory of bytes

A memory sends offsets to bytes. Words of four and eight bytes are read in little
endian order. What a write leaves alone is stated for a whole region.
-/

set_option autoImplicit false

namespace ByteMemory

abbrev Memory := ℕ → BitVec 8

def word (m : Memory) (p : ℕ) : BitVec 32 := m (p+3)++m (p+2)++m (p+1)++m p

def dword (m : Memory) (p : ℕ) : BitVec 64 := word m (p+4)++word m p

def putDword (m : Memory) (p : ℕ) (v : BitVec 64) : Memory :=
  fun a => if p ≤ a ∧ a < p+8 then v.extractLsb' (8*(a-p)) 8 else m a

/-- The bytes are copied to the start. -/
def fill (m : Memory) (bytes : List (BitVec 8)) : Memory := fun a => bytes.getD a (m a)

/-- The memories agree in a region. -/
def Agree (region : ℕ → Prop) (m m' : Memory) : Prop := ∀ a, region a → m' a = m a

variable {region : ℕ → Prop} {m m' m'' : Memory}

theorem Agree.refl (m : Memory) : Agree region m m := fun _ _ => rfl

theorem Agree.trans (h : Agree region m m') (h' : Agree region m' m'') : Agree region m m'' :=
  fun a ha => (h' a ha).trans (h a ha)

theorem agree_putDword (m : Memory) (p : ℕ) (v : BitVec 64)
    (hp : ∀ a, region a → a < p ∨ p+8 ≤ a) : Agree region m (putDword m p v) := by
  intro a ha
  have := hp a ha
  exact if_neg (by omega)

theorem Agree.word (h : Agree region m m') (p : ℕ) (hp : ∀ a, p ≤ a → a < p+4 → region a) :
    word m' p = word m p := by
  rw [ByteMemory.word,ByteMemory.word,h p (hp p (by omega) (by omega)),
    h (p+1) (hp _ (by omega) (by omega)),h (p+2) (hp _ (by omega) (by omega)),
    h (p+3) (hp _ (by omega) (by omega))]

theorem Agree.dword (h : Agree region m m') (p : ℕ) (hp : ∀ a, p ≤ a → a < p+8 → region a) :
    dword m' p = dword m p := by
  rw [ByteMemory.dword,ByteMemory.dword,h.word p fun a ha ha' => hp a ha (by omega),
    h.word (p+4) fun a ha ha' => hp a (by omega) (by omega)]

theorem putDword_apply (m : Memory) (p : ℕ) (v : BitVec 64) (i : ℕ) (hi : i < 8) :
    putDword m p v (p+i) = v.extractLsb' (8*i) 8 := by
  rw [putDword,if_pos (by omega),Nat.add_sub_cancel_left]

theorem extract_bytes (v : BitVec 64) (i : ℕ) :
    v.extractLsb' (i+24) 8++v.extractLsb' (i+16) 8++v.extractLsb' (i+8) 8++v.extractLsb' i 8 =
      v.extractLsb' i 32 := by
  apply BitVec.eq_of_getLsbD_eq
  intro j hj
  simp only [BitVec.getLsbD_append,BitVec.getLsbD_extractLsb']
  grind

theorem dword_putDword (m : Memory) (p : ℕ) (v : BitVec 64) : dword (putDword m p v) p = v := by
  have hbyte : ∀ a i, a = p+i → i < 8 → putDword m p v a = v.extractLsb' (8*i) 8 := by
    rintro a i rfl hi
    exact putDword_apply m p v i hi
  have hlow : word (putDword m p v) p = v.extractLsb' 0 32 := by
    rw [word,hbyte p 0 rfl (by decide),hbyte (p+1) 1 rfl (by decide),hbyte (p+2) 2 rfl (by decide),
      hbyte (p+3) 3 rfl (by decide)]
    exact extract_bytes v 0
  have hhigh : word (putDword m p v) (p+4) = v.extractLsb' 32 32 := by
    rw [word,hbyte (p+4) 4 rfl (by decide),hbyte (p+4+1) 5 rfl (by decide),
      hbyte (p+4+2) 6 rfl (by decide),hbyte (p+4+3) 7 rfl (by decide)]
    exact extract_bytes v 32
  rw [dword,hlow,hhigh]
  apply BitVec.eq_of_getLsbD_eq
  intro j hj
  simp only [BitVec.getLsbD_append,BitVec.getLsbD_extractLsb']
  grind

/-- The bytes are copied to `p`. -/
def put (m : Memory) (p : ℕ) (bytes : List (BitVec 8)) : Memory :=
  fun a => if p ≤ a then bytes.getD (a-p) (m a) else m a

def slice (m : Memory) (p n : ℕ) : List (BitVec 8) := (List.range n).map fun i => m (p+i)

theorem slice_congr (m m' : Memory) (p q n : ℕ) (h : ∀ j < n, m (p+j) = m' (q+j)) :
    slice m p n = slice m' q n :=
  List.map_congr_left fun j hj => h j (List.mem_range.mp hj)

theorem slice_put (m : Memory) (p : ℕ) (bytes : List (BitVec 8)) :
    slice (put m p bytes) p bytes.length = bytes := by
  apply List.ext_getElem
  · rw [slice,List.length_map,List.length_range]
  · intro i hi hi'
    simp [slice,put,hi']

theorem put_append (m : Memory) (p : ℕ) (xs ys : List (BitVec 8)) :
    put (put m p xs) (p+xs.length) ys = put m p (xs++ys) := by
  funext a
  simp only [put]
  by_cases hp : p ≤ a
  · by_cases hlen : p+xs.length ≤ a
    · have hsub : a-p-xs.length = a-(p+xs.length) := by omega
      rw [if_pos hlen,if_pos hp,if_pos hp,List.getD_append_right _ _ _ _ (by omega),hsub,
        List.getD_eq_default xs _ (by omega)]
    · rw [if_neg hlen,if_pos hp,if_pos hp,List.getD_append _ _ _ _ (by omega)]
  · rw [if_neg (by omega),if_neg hp,if_neg hp]

theorem slice_append (m : Memory) (p n k : ℕ) :
    slice m p (n+k) = slice m p n++slice m (p+n) k := by
  simp only [slice,List.range_add,List.map_append,List.map_map,Function.comp_def,Nat.add_assoc]

theorem put_slice (m m' : Memory) (n a : ℕ) :
    put m 0 (slice m' 0 n) a = if a < n then m' a else m a := by
  rw [put,if_pos (Nat.zero_le a),Nat.sub_zero]
  by_cases ha : a < n
  · rw [if_pos ha,List.getD_eq_getElem _ _ (by simpa [slice] using ha)]
    simp [slice]
  · rw [if_neg ha,List.getD_eq_default _ _ (by simpa [slice] using ha)]

/-- Where bytes were copied to, it does not matter what was there. -/
theorem agree_put_put (m m' : Memory) (p : ℕ) (bytes : List (BitVec 8)) :
    Agree (fun a => p ≤ a ∧ a < p+bytes.length) (put m p bytes) (put m' p bytes) := by
  intro a ha
  have hlt : a-p < bytes.length := by omega
  simp only [put,if_pos ha.1,List.getD_eq_getElem _ _ hlt]

theorem agree_put (m : Memory) (p : ℕ) (bytes : List (BitVec 8))
    (hp : ∀ a, region a → a < p ∨ p+bytes.length ≤ a) : Agree region m (put m p bytes) := by
  intro a ha
  rcases hp a ha with hlt | hle
  · exact if_neg (by omega)
  · rw [put,if_pos (by omega),List.getD_eq_default _ _ (by omega)]

/-- A loop of reads that stores one portion after the other. -/
def receive (m : Memory) (p : ℕ) : List (BitVec 8) → List ℕ → Memory
  | _, [] => m
  | bytes, n::ns => receive (put m p (bytes.take n)) (p+n) (bytes.drop n) ns

/-- The sizes of the portions do not matter. -/
theorem receive_eq (m : Memory) (p : ℕ) (bytes : List (BitVec 8)) (ns : List ℕ)
    (hsum : ns.sum = bytes.length) : receive m p bytes ns = put m p bytes := by
  induction ns generalizing m p bytes with
  | nil =>
    obtain rfl := List.eq_nil_of_length_eq_zero hsum.symm
    funext a
    simp [receive,put]
  | cons n ns ih =>
    rw [List.sum_cons] at hsum
    have hn : (bytes.take n).length = n := by
      rw [List.length_take]
      omega
    have hput := put_append m p (bytes.take n) (bytes.drop n)
    rw [hn,List.take_append_drop] at hput
    rw [receive,ih _ _ _ (by rw [List.length_drop]; omega),hput]

end ByteMemory
