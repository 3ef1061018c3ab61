import Mathlib.Algebra.Order.Group.Nat
import Mathlib.Data.List.Basic
import Mathlib.Tactic.Ring

/-!
# Byte orders

A word of `k` bytes lies in memory with its lowest byte first or with its
highest byte first, as the host has it. What one host stores another loads.
-/

set_option autoImplicit false

namespace ByteOrder

/-- The bytes of a word, the lowest first. -/
def toBytes : ℕ → ℕ → List ℕ
  | 0, _ => []
  | k+1, x => x%256::toBytes k (x/256)

def ofBytes : List ℕ → ℕ
  | [] => 0
  | b::bs => b+256*ofBytes bs

theorem toBytes_length (k x : ℕ) : (toBytes k x).length = k := by
  induction k generalizing x with
  | zero => rfl
  | succ k ih => rw [toBytes,List.length_cons,ih]

theorem toBytes_lt (k x : ℕ) : ∀ b ∈ toBytes k x, b < 256 := by
  induction k generalizing x with
  | zero => simp [toBytes]
  | succ k ih => exact List.forall_mem_cons.mpr ⟨Nat.mod_lt _ (by decide),ih _⟩

theorem ofBytes_toBytes (k x : ℕ) (hx : x < 256^k) : ofBytes (toBytes k x) = x := by
  induction k generalizing x with
  | zero =>
    have hzero : x = 0 := by simpa using hx
    rw [hzero,toBytes,ofBytes]
  | succ k ih =>
    have hdiv : x/256 < 256^k := Nat.div_lt_of_lt_mul (by rwa [pow_succ'] at hx)
    rw [toBytes,ofBytes,ih _ hdiv,Nat.mod_add_div]

theorem toBytes_ofBytes (bs : List ℕ) (hbs : ∀ b ∈ bs, b < 256) :
    toBytes bs.length (ofBytes bs) = bs := by
  induction bs with
  | nil => rfl
  | cons b bs ih =>
    obtain ⟨hb,hrest⟩ := List.forall_mem_cons.mp hbs
    have hmod : (b+256*ofBytes bs)%256 = b := by omega
    have hdiv : (b+256*ofBytes bs)/256 = ofBytes bs := by omega
    rw [List.length_cons,ofBytes,toBytes,hmod,hdiv,ih hrest]

/-- The word with its bytes in the other order. -/
def bswap (k x : ℕ) : ℕ := ofBytes (toBytes k x).reverse

/-- What a host stores; `high` says that it puts the highest byte first. -/
def store (high : Bool) (k x : ℕ) : List ℕ :=
  if high then (toBytes k x).reverse else toBytes k x

def load (high : Bool) (bs : List ℕ) : ℕ := ofBytes (if high then bs.reverse else bs)

theorem toBytes_bswap (k x : ℕ) : toBytes k (bswap k x) = (toBytes k x).reverse := by
  have h := toBytes_ofBytes (toBytes k x).reverse fun b hb =>
    toBytes_lt k x b (List.mem_reverse.mp hb)
  rwa [List.length_reverse,toBytes_length] at h

theorem load_store (high : Bool) (k x : ℕ) (hx : x < 256^k) : load high (store high k x) = x := by
  cases high
  · exact ofBytes_toBytes k x hx
  · simp only [load,store,if_true,List.reverse_reverse,ofBytes_toBytes k x hx]

/-- A host of the other order loads the swapped word. -/
theorem load_store_not (high : Bool) (k x : ℕ) : load (!high) (store high k x) = bswap k x := by
  cases high <;> rfl

theorem bswap_bswap (k x : ℕ) (hx : x < 256^k) : bswap k (bswap k x) = x := by
  rw [bswap,toBytes_bswap,List.reverse_reverse,ofBytes_toBytes k x hx]

/-- `htons`, `htonl` and `htonll`, which are also their own inverses. -/
def hton (high : Bool) (k x : ℕ) : ℕ := if high then x else bswap k x

/-- What a host stores of a converted word is the same on every host. -/
theorem store_hton (high : Bool) (k x : ℕ) : store high k (hton high k x) = (toBytes k x).reverse := by
  cases high
  · exact toBytes_bswap k x
  · rfl

theorem hton_load (high : Bool) (k x : ℕ) (hx : x < 256^k) :
    hton high k (load high (toBytes k x).reverse) = x := by
  cases high
  · exact bswap_bswap k x hx
  · simp only [hton,load,if_true,List.reverse_reverse,ofBytes_toBytes k x hx]

/-- A word swapped for a reader of the other order arrives as it was. -/
theorem load_store_swapped (writer reader : Bool) (k x : ℕ) (hx : x < 256^k) :
    load reader (store writer k (if writer = reader then x else bswap k x)) = x := by
  by_cases h : writer = reader
  · rw [if_pos h,h,load_store reader k x hx]
  · obtain rfl : reader = !writer := by cases writer <;> cases reader <;> simp_all
    rw [if_neg h,load_store_not,bswap_bswap k x hx]

end ByteOrder
