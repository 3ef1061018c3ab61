import Mathlib.Data.Int.Notation
import Mathlib.Data.List.Basic
import Mathlib.Data.String.Basic

/-!
# Numbers in texts

Numbers in decimal with separators between them. A separator is no digit, so a text
that begins with a number and a separator tells the number and the rest. A text of
digits and signs takes one byte for each character.
-/

set_option autoImplicit false

namespace DecimalText

section Separators

variable {α : Type*}

/-- Where one kind of elements stops is the same in both decompositions. -/
theorem append_inj_of_stop (p : α → Bool) {a b xs ys : List α} {s t : α} (ha : ∀ c ∈ a, p c)
    (hb : ∀ c ∈ b, p c) (hs : p s = false) (ht : p t = false) (h : a++s::xs = b++t::ys) :
    a = b ∧ s::xs = t::ys := by
  have htake := congrArg (List.takeWhile p) h
  rw [List.takeWhile_append_of_pos ha,List.takeWhile_append_of_pos hb,
    List.takeWhile_cons_of_neg (by simp [hs]),List.takeWhile_cons_of_neg (by simp [ht]),
    List.append_nil,List.append_nil] at htake
  subst htake
  exact ⟨rfl,List.append_cancel_left h⟩

end Separators

def natText (n : ℕ) : List Char := Nat.toDigits 10 n

def intText (z : ℤ) : List Char := if z < 0 then '-'::natText z.natAbs else natText z.natAbs

theorem toList_toString_nat (n : ℕ) : (toString n).toList = natText n := by
  rw [Nat.toString_eq_ofList_toDigits,String.toList_ofList,natText]

theorem toList_toString_int (z : ℤ) : (toString z).toList = intText z := by
  rw [Int.toString_eq_repr]
  cases z with
  | ofNat n => simp [Int.repr,intText,natText,Nat.repr_eq_ofList_toDigits]
  | negSucc n =>
    have hneg : Int.negSucc n < 0 := Int.negSucc_lt_zero n
    simp [Int.repr,intText,natText,hneg,Nat.repr_eq_ofList_toDigits]

theorem isDigit_of_mem_natText (n : ℕ) (c : Char) (h : c ∈ natText n) : c.isDigit :=
  Nat.isDigit_of_mem_toDigits (by decide) (by decide) h

theorem natText_injective (m n : ℕ) (h : natText m = natText n) : m = n := by
  have hparsed := congrArg (fun digits => Nat.ofDigitChars 10 digits 0) h
  simpa [natText] using hparsed

theorem natText_ne_nil (n : ℕ) : natText n ≠ [] := Nat.toDigits_ne_nil

theorem length_natText_le (n k : ℕ) (hk : 0 < k) (hn : n < 10^k) : (natText n).length ≤ k :=
  (Nat.length_toDigits_le_iff (by decide) hk).mpr hn

/-- A number and the separator behind it can be told from the rest. -/
theorem natText_sep (m n : ℕ) (s t : Char) (xs ys : List Char) (hs : s.isDigit = false)
    (ht : t.isDigit = false) (h : natText m++s::xs = natText n++t::ys) : m = n ∧ s::xs = t::ys := by
  obtain ⟨htext,hrest⟩ := append_inj_of_stop Char.isDigit (isDigit_of_mem_natText m)
    (isDigit_of_mem_natText n) hs ht h
  exact ⟨natText_injective m n htext,hrest⟩

/-- A text that begins with a digit does not begin with a sign. -/
theorem natText_ne_sign (n : ℕ) (xs ys : List Char) : natText n++xs ≠ '-'::ys := by
  intro h
  cases htext : natText n with
  | nil => exact natText_ne_nil n htext
  | cons c cs =>
    have hdigit := isDigit_of_mem_natText n c (by rw [htext]; exact List.mem_cons_self)
    rw [htext,List.cons_append] at h
    rw [(List.cons.inj h).1] at hdigit
    exact absurd hdigit (by decide)

theorem intText_sep (z w : ℤ) (s t : Char) (xs ys : List Char) (hs : s.isDigit = false)
    (ht : t.isDigit = false) (h : intText z++s::xs = intText w++t::ys) : z = w ∧ s::xs = t::ys := by
  unfold intText at h
  by_cases hz : z < 0 <;> by_cases hw : w < 0
  · rw [if_pos hz,if_pos hw,List.cons_append,List.cons_append] at h
    obtain ⟨habs,hrest⟩ := natText_sep _ _ s t xs ys hs ht (List.cons.inj h).2
    exact ⟨by omega,hrest⟩
  · rw [if_pos hz,if_neg hw,List.cons_append] at h
    exact absurd h.symm (natText_ne_sign _ _ _)
  · rw [if_neg hz,if_pos hw,List.cons_append] at h
    exact absurd h (natText_ne_sign _ _ _)
  · rw [if_neg hz,if_neg hw] at h
    obtain ⟨habs,hrest⟩ := natText_sep _ _ s t xs ys hs ht h
    exact ⟨by omega,hrest⟩

section Bytes

theorem utf8Size_of_isDigit (c : Char) (h : c.isDigit) : c.utf8Size = 1 := by
  simp only [Char.isDigit,Bool.and_eq_true,decide_eq_true_eq] at h
  exact if_pos (UInt32.le_trans h.2 (by decide))

theorem utf8Len_eq_length (cs : List Char) (h : ∀ c ∈ cs, c.utf8Size = 1) :
    String.utf8Len cs = cs.length := by
  induction cs with
  | nil => rfl
  | cons c cs ih =>
    rw [String.utf8Len_cons,ih fun d hd => h d (List.mem_cons_of_mem _ hd),
      h c List.mem_cons_self,List.length_cons]

theorem utf8ByteSize_eq (s : String) (cs : List Char) (hs : s.toList = cs)
    (h : ∀ c ∈ cs, c.utf8Size = 1) : s.utf8ByteSize = cs.length := by
  rw [← String.ofList_toList (s := s),hs,String.utf8ByteSize_ofList,utf8Len_eq_length cs h]

theorem utf8ByteSize_nat_le (n k : ℕ) (hk : 0 < k) (hn : n < 10^k) : (toString n).utf8ByteSize ≤ k := by
  rw [utf8ByteSize_eq _ _ (toList_toString_nat n)
    fun c hc => utf8Size_of_isDigit c (isDigit_of_mem_natText n c hc)]
  exact length_natText_le n k hk hn

theorem utf8ByteSize_int_le (z : ℤ) (k : ℕ) (hk : 0 < k) (hz : z.natAbs < 10^k) :
    (toString z).utf8ByteSize ≤ k+1 := by
  have hlen := length_natText_le z.natAbs k hk hz
  have hbyte : ∀ c ∈ intText z, c.utf8Size = 1 := by
    intro c hc
    unfold intText at hc
    split at hc
    · rcases List.mem_cons.mp hc with rfl | hc
      · decide
      · exact utf8Size_of_isDigit c (isDigit_of_mem_natText _ c hc)
    · exact utf8Size_of_isDigit c (isDigit_of_mem_natText _ c hc)
  rw [utf8ByteSize_eq _ _ (toList_toString_int z) hbyte,intText]
  split
  · rw [List.length_cons]
    omega
  · omega

end Bytes

end DecimalText
