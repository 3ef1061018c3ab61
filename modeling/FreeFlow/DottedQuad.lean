import Mathlib.Data.List.Basic
import Mathlib.Data.Fin.Basic
import Mathlib.Tactic.IntervalCases

/-!
# IPv4 addresses in text

`ntop` writes the four octets in decimal, `pton` is the scanner of the C
library: it takes one character at a time, refuses leading zeros, octets
above 255 and anything but four of them. Reading back what was written
gives the address again, so texts of different addresses differ.
-/

set_option autoImplicit false

namespace DottedQuad

structure Addr where
  a : Fin 256
  b : Fin 256
  c : Fin 256
  d : Fin 256
  deriving DecidableEq

def digit (k : ℕ) : Char := Char.ofNat (48+k)

def octet (n : ℕ) : List Char :=
  if n < 10 then [digit n]
  else if n < 100 then [digit (n/10),digit (n%10)]
  else [digit (n/100),digit (n/10%10),digit (n%10)]

def text (x : Addr) : List Char :=
  octet x.a ++ '.'::(octet x.b ++ '.'::(octet x.c ++ '.'::octet x.d))

def ntop (x : Addr) : String := String.ofList (text x)

/-- The octets finished, the current octet, whether it has a digit and the
number of octets begun. -/
structure Scan where
  done : List ℕ
  cur : ℕ
  saw : Bool
  octets : ℕ

def ptonStep (s : Scan) (ch : Char) : Option Scan :=
  if '0' ≤ ch ∧ ch ≤ '9' then
    if s.saw ∧ s.cur = 0 then none
    else if s.cur*10+(ch.toNat-48) > 255 then none
    else if s.saw then some {s with cur := s.cur*10+(ch.toNat-48)}
    else if s.octets+1 > 4 then none
    else some ⟨s.done,s.cur*10+(ch.toNat-48),true,s.octets+1⟩
  else if ch = '.' ∧ s.saw then
    if s.octets = 4 then none else some ⟨s.done++[s.cur],0,false,s.octets⟩
  else none

def ptonEnd (s : Scan) : Option Addr :=
  if s.octets < 4 then none
  else match s.done++[s.cur] with
    | [a,b,c,d] => some ⟨Fin.ofNat 256 a,Fin.ofNat 256 b,Fin.ofNat 256 c,Fin.ofNat 256 d⟩
    | _ => none

def pton (src : String) : Option Addr :=
  (src.toList.foldlM ptonStep ⟨[],0,false,0⟩).bind ptonEnd

theorem digit_range (k : ℕ) (hk : k < 10) :
    '0' ≤ digit k ∧ digit k ≤ '9' ∧ (digit k).toNat-48 = k := by
  interval_cases k <;> decide

theorem step_digit (s : Scan) (k : ℕ) (hk : k < 10) (hsaw : s.saw = true) (hcur : s.cur ≠ 0)
    (hfit : s.cur*10+k ≤ 255) : ptonStep s (digit k) = some {s with cur := s.cur*10+k} := by
  obtain ⟨hlo,hhi,hval⟩ := digit_range k hk
  rw [ptonStep,if_pos ⟨hlo,hhi⟩,hval,if_neg fun h => hcur h.2,if_neg (by omega),if_pos hsaw]

theorem step_first (done : List ℕ) (n k : ℕ) (hk : k < 10) (hn : n < 4) :
    ptonStep ⟨done,0,false,n⟩ (digit k) = some ⟨done,k,true,n+1⟩ := by
  obtain ⟨hlo,hhi,hval⟩ := digit_range k hk
  rw [ptonStep,if_pos ⟨hlo,hhi⟩,hval]
  simp [show ¬4 < n+1 by omega,show ¬255 < k by omega]

theorem step_dot (done : List ℕ) (cur n : ℕ) (hn : n ≠ 4) :
    ptonStep ⟨done,cur,true,n⟩ '.' = some ⟨done++[cur],0,false,n⟩ := by
  simp [ptonStep,hn]

theorem scan_octet (done : List ℕ) (m n : ℕ) (hm : m < 256) (hn : n < 4) :
    (octet m).foldlM ptonStep ⟨done,0,false,n⟩ = some ⟨done,m,true,n+1⟩ := by
  unfold octet
  split_ifs with h1 h2
  · simp [step_first done n m h1 hn]
  · have ht := step_digit ⟨done,m/10,true,n+1⟩ (m%10) (by omega) rfl (by dsimp only; omega)
      (by dsimp only; omega)
    have hm : m/10*10+m%10 = m := by omega
    simp [step_first done n (m/10) (by omega) hn,ht,hm]
  · have ht := step_digit ⟨done,m/100,true,n+1⟩ (m/10%10) (by omega) rfl
      (by dsimp only; omega) (by dsimp only; omega)
    have hu := step_digit ⟨done,m/100*10+m/10%10,true,n+1⟩ (m%10) (by omega) rfl
      (by dsimp only; omega) (by dsimp only; omega)
    have hm : (m/100*10+m/10%10)*10+m%10 = m := by omega
    simp [step_first done n (m/100) (by omega) hn,ht,hu,hm]

theorem pton_ntop (x : Addr) : pton (ntop x) = some x := by
  obtain ⟨a,b,c,d⟩ := x
  simp only [pton,ntop,text,String.toList_ofList,List.foldlM_append,List.foldlM_cons]
  rw [scan_octet [] a 0 a.isLt (by omega)]
  simp only [Option.bind_eq_bind,Option.bind_some,step_dot [] a 1 (by omega)]
  rw [scan_octet _ b 1 b.isLt (by omega)]
  simp only [Option.bind_some,step_dot _ b 2 (by omega)]
  rw [scan_octet _ c 2 c.isLt (by omega)]
  simp only [Option.bind_some,step_dot _ c 3 (by omega)]
  rw [scan_octet _ d 3 d.isLt (by omega)]
  simp [ptonEnd]

theorem octet_cons (m : ℕ) (hm : m < 256) : ∃ k cs, k < 10 ∧ octet m = digit k::cs := by
  unfold octet
  split_ifs with h1 h2
  · exact ⟨m,[],h1,rfl⟩
  · exact ⟨m/10,_,by omega,rfl⟩
  · exact ⟨m/100,_,by omega,rfl⟩

/-- A text of an address begins with a digit. -/
theorem ntop_head (x : Addr) : ∃ k, k < 10 ∧ (ntop x).toList.head? = some (digit k) := by
  obtain ⟨k,cs,hk,hoctet⟩ := octet_cons x.a x.a.isLt
  exact ⟨k,hk,by simp [ntop,text,hoctet]⟩

end DottedQuad
