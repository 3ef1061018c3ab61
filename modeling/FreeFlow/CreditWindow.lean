import Mathlib.Algebra.Order.Group.Nat
import Mathlib.Data.List.Basic

/-!
# Flow control by announced credits

A receiver with room for `n` messages announces, every now and then, up to
which number messages may be sent: `n` more than it has read. Announcements
travel in order and the sender keeps the last one it got. All four counters
run without bound here; the two ends of a connection keep them modulo a power
of two, and compare them.
-/

set_option autoImplicit false

namespace CreditWindow

structure State where
  sent : ℕ
  credit : ℕ
  flight : List ℕ
  read : ℕ
  granted : ℕ

structure Inv (n : ℕ) (s : State) : Prop where
  sent_le : s.sent ≤ s.credit
  sorted : List.Pairwise (· ≤ ·) (s.credit::s.flight)
  last : s.flight.getLastD s.credit = s.granted
  granted_le : s.granted ≤ s.read+n
  le_granted : n ≤ s.granted
  read_le : s.read ≤ s.sent

def started (n : ℕ) : State := ⟨0,n,[],0,n⟩

theorem inv_started (n : ℕ) : Inv n (started n) :=
  ⟨Nat.zero_le n,List.pairwise_singleton _ _,rfl,by simp [started],le_rfl,le_rfl⟩

def send (s : State) : State := {s with sent := s.sent+1}

def announce (n : ℕ) (s : State) : State :=
  {s with flight := s.flight++[s.read+n],granted := s.read+n}

def arrive (c : ℕ) (cs : List ℕ) (s : State) : State := {s with credit := c,flight := cs}

def consume (s : State) : State := {s with read := s.read+1}

variable {n : ℕ} {s : State}

theorem Inv.send (h : Inv n s) (hcan : s.sent < s.credit) : Inv n (send s) :=
  ⟨hcan,h.sorted,h.last,h.granted_le,h.le_granted,Nat.le_succ_of_le h.read_le⟩

theorem Inv.credit_le (h : Inv n s) : ∀ c ∈ s.credit::s.flight, c ≤ s.granted := by
  have haux : ∀ (l : List ℕ) (a : ℕ), List.Pairwise (· ≤ ·) (a::l) → ∀ c ∈ a::l, c ≤ l.getLastD a := by
    intro l
    induction l with
    | nil => simp
    | cons b l ih =>
      intro a hp c hc
      obtain ⟨ha,hl⟩ := List.pairwise_cons.mp hp
      have hb := ih b hl
      rw [List.getLastD_cons]
      rcases List.mem_cons.mp hc with rfl | hc
      · exact le_trans (ha b List.mem_cons_self) (hb b List.mem_cons_self)
      · exact hb c hc
  intro c hc
  rw [← h.last]
  exact haux s.flight s.credit h.sorted c hc

theorem Inv.announce (h : Inv n s) : Inv n (announce n s) := by
  have hbound : ∀ c ∈ s.credit::s.flight, c ≤ s.read+n := fun c hc =>
    le_trans (h.credit_le c hc) h.granted_le
  refine ⟨h.sent_le,?_,?_,le_rfl,Nat.le_add_left n s.read,h.read_le⟩
  · show List.Pairwise (· ≤ ·) ((s.credit::s.flight)++[s.read+n])
    exact List.pairwise_append.mpr ⟨h.sorted,List.pairwise_singleton _ _,fun c hc d hd => by
      rw [List.mem_singleton.mp hd]
      exact hbound c hc⟩
  · exact List.getLastD_concat ..

theorem Inv.arrive {c : ℕ} {cs : List ℕ} (h : Inv n s) (hflight : s.flight = c::cs) :
    Inv n (arrive c cs s) := by
  have hsorted := h.sorted
  have hlast := h.last
  rw [hflight] at hsorted hlast
  obtain ⟨hle,hrest⟩ := List.pairwise_cons.mp hsorted
  refine ⟨le_trans h.sent_le (hle c List.mem_cons_self),hrest,?_,h.granted_le,h.le_granted,h.read_le⟩
  rwa [List.getLastD_cons] at hlast

theorem Inv.consume (h : Inv n s) (hcan : s.read < s.sent) : Inv n (consume s) :=
  ⟨h.sent_le,h.sorted,h.last,by have := h.granted_le; show s.granted ≤ s.read+1+n; omega,
    h.le_granted,hcan⟩

/-- The receiver has room for everything that is not read. -/
theorem Inv.sent_le_read (h : Inv n s) : s.sent ≤ s.read+n :=
  le_trans h.sent_le (le_trans (h.credit_le s.credit List.mem_cons_self) h.granted_le)

theorem Inv.credit_le_sent (h : Inv n s) : s.credit ≤ s.sent+n :=
  le_trans (le_trans (h.credit_le s.credit List.mem_cons_self) h.granted_le)
    (Nat.add_le_add_right h.read_le n)

/-- Modulo anything larger than the window, the numbers are equal only when
no credit is left. -/
theorem Inv.mod_eq_iff (h : Inv n s) {m : ℕ} (hm : n < m) :
    s.sent%m = s.credit%m ↔ s.sent = s.credit := by
  refine ⟨fun heq => ?_,fun heq => by rw [heq]⟩
  have hle := h.sent_le
  have hroom := h.credit_le_sent
  have hzero := Nat.sub_mod_eq_zero_of_mod_eq heq.symm
  rw [Nat.mod_eq_of_lt (by omega)] at hzero
  omega

end CreditWindow
