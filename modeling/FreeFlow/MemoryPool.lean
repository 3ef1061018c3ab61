import FreeFlow.ByteMemory
import Mathlib.Algebra.Order.Group.Nat
import Mathlib.Data.List.Pairwise

/-!
# A pool of slots in blocks

The template `MemoryPool`. Slots are cut one after the other from the last block that
`operator new` returned; the first word of a block links to the block before it. A slot that
is given back becomes the head of a list that is threaded through the slots themselves, in
their first word, and is the first to be given out again. The end of the block is compared
with a pointer that is one byte past the last place where a slot fits, and need not be the
place of any slot.

The slots that were ever cut and those in the list are kept beside the pool.
-/

set_option autoImplicit false

namespace FreeFlow.MemoryPool

open ByteMemory

/-- The sizes of a block and of a slot. A slot can hold a link, and a block can hold its link
and a slot at any alignment. -/
structure Layout where
  blockSize : ℕ
  slotSize : ℕ
  align : ℕ
  align_pos : 0 < align
  link_fits : 8 ≤ slotSize
  slot_fits : 8+(align-1)+slotSize ≤ blockSize

structure Pool where
  mem : Memory
  currentBlock : ℕ
  currentSlot : ℕ
  lastSlot : ℕ
  freeSlots : ℕ
  /-- What `operator new` has returned, the last block first. -/
  blocks : List ℕ

def Pool.new (mem : Memory) : Pool := ⟨mem,0,0,0,0,[]⟩

/-- The difference is taken in `size_t`. -/
def padPointer (p align : ℕ) : ℕ := (align+2^64-p%2^64)%2^64%align

def Apart (size p q : ℕ) : Prop := p+size ≤ q ∨ q+size ≤ p

instance (size : ℕ) : Std.Symm (Apart size) := ⟨fun _ _ => Or.symm⟩

instance (size p q : ℕ) : Decidable (Apart size p q) := inferInstanceAs (Decidable (_ ∨ _))

section Template

variable (L : Layout)

def allocateBlock (s : Pool) (newBlock : ℕ) : Pool :=
  let body := newBlock+8
  {s with
    mem := putDword s.mem newBlock (BitVec.ofNat 64 s.currentBlock)
    currentBlock := newBlock
    currentSlot := body+padPointer body L.align
    lastSlot := newBlock+L.blockSize-L.slotSize+1
    blocks := newBlock::s.blocks}

/-- `newBlock` is what `operator new` returns if it is called. -/
def allocate (s : Pool) (newBlock : ℕ) : Pool × ℕ :=
  if s.freeSlots ≠ 0 then
    ({s with freeSlots := (dword s.mem s.freeSlots).toNat},s.freeSlots)
  else
    let t := if s.lastSlot ≤ s.currentSlot then allocateBlock L s newBlock else s
    ({t with currentSlot := t.currentSlot+L.slotSize},t.currentSlot)

def deallocate (s : Pool) (p : ℕ) : Pool :=
  if p ≠ 0 then
    {s with mem := putDword s.mem p (BitVec.ofNat 64 s.freeSlots), freeSlots := p}
  else s

/-- A block of `operator new`: not null, inside the address space and apart from the blocks it
has returned before. -/
def Fresh (s : Pool) (newBlock : ℕ) : Prop :=
  s.freeSlots = 0 → s.lastSlot ≤ s.currentSlot →
    0 < newBlock ∧ newBlock+L.blockSize < 2^64 ∧ ∀ b ∈ s.blocks, Apart L.blockSize newBlock b

instance (s : Pool) (newBlock : ℕ) : Decidable (Fresh L s newBlock) :=
  inferInstanceAs (Decidable (_ → _ → _))

/-- A slot at `p` lies in the block at `b`, behind its link. -/
def Inside (p b : ℕ) : Prop := b+8 ≤ p ∧ p+L.slotSize ≤ b+L.blockSize

/-- The list that is threaded through the slots. -/
def Chain (m : Memory) : ℕ → List ℕ → Prop
  | p, [] => p = 0
  | p, q::free => p = q ∧ q ≠ 0 ∧ Chain m (dword m q).toNat free

/-- A byte of one of the slots. -/
def InSlots (slots : List ℕ) (a : ℕ) : Prop := ∃ p ∈ slots, p ≤ a ∧ a < p+L.slotSize

structure Inv (s : Pool) (slots free : List ℕ) : Prop where
  blocks_range : ∀ b ∈ s.blocks, 0 < b ∧ b+L.blockSize < 2^64
  blocks_apart : s.blocks.Pairwise (Apart L.blockSize)
  slots_inside : ∀ p ∈ slots, ∃ b ∈ s.blocks, Inside L p b
  slots_apart : slots.Pairwise (Apart L.slotSize)
  /-- What is left of the last block. -/
  bump : s.currentSlot < s.lastSlot → ∃ b ∈ s.blocks, b+8 ≤ s.currentSlot ∧
    s.lastSlot = b+L.blockSize-L.slotSize+1 ∧
    ∀ p ∈ slots, b ≤ p → p < b+L.blockSize → p+L.slotSize ≤ s.currentSlot
  free_slots : ∀ p ∈ free, p ∈ slots
  chain : Chain s.mem s.freeSlots free

variable {L} {s : Pool} {slots free : List ℕ}

theorem inv_new (mem : Memory) : Inv L (Pool.new mem) [] [] where
  blocks_range := by simp [Pool.new]
  blocks_apart := List.Pairwise.nil
  slots_inside := by simp
  slots_apart := List.Pairwise.nil
  bump := fun h => absurd h (Nat.lt_irrefl 0)
  free_slots := by simp
  chain := rfl

theorem Inv.slot_range (hI : Inv L s slots free) (p : ℕ) (hp : p ∈ slots) : 0 < p ∧ p < 2^64 := by
  obtain ⟨b,hb,hlo,hhi⟩ := hI.slots_inside p hp
  have hrange := hI.blocks_range b hb
  have hfits := L.link_fits
  omega

theorem Inv.slots_apart_of_ne (hI : Inv L s slots free) (p q : ℕ) (hp : p ∈ slots) (hq : q ∈ slots)
    (hne : p ≠ q) : Apart L.slotSize p q :=
  hI.slots_apart.forall hp hq hne

theorem Inv.freeSlots_lt (hI : Inv L s slots free) : s.freeSlots < 2^64 := by
  have hchain := hI.chain
  cases free with
  | nil =>
    rw [Chain] at hchain
    omega
  | cons q free =>
    rw [hchain.1]
    exact (hI.slot_range q (hI.free_slots q List.mem_cons_self)).2

/-- A list through slots whose bytes stay as they are. -/
theorem Chain.agree {m m' : Memory} {p : ℕ} (h : Chain m p free) (hsub : ∀ q ∈ free, q ∈ slots)
    (hagree : Agree (InSlots L slots) m m') : Chain m' p free := by
  induction free generalizing p with
  | nil => exact h
  | cons q free ih =>
    refine ⟨h.1,h.2.1,?_⟩
    have hdword : dword m' q = dword m q := by
      have hfits := L.link_fits
      exact hagree.dword q fun a ha ha' => ⟨q,hsub q List.mem_cons_self,ha,by omega⟩
    rw [hdword]
    exact ih h.2.2 fun q' hq' => hsub q' (List.mem_cons_of_mem q hq')

/-- The memory changes outside the slots in the list, and nothing else does. -/
theorem Inv.of_mem (hI : Inv L s slots free) (mem : Memory) (hagree : Agree (InSlots L free) s.mem mem) :
    Inv L {s with mem := mem} slots free :=
  {hI with chain := hI.chain.agree (fun _ hq => hq) hagree}

/-! ## Giving out a slot -/

/-- The head of the list is given out. -/
theorem allocate_free (q : ℕ) (newBlock : ℕ) (hI : Inv L s slots (q::free)) :
    ∃ t, allocate L s newBlock = (t,q) ∧ t.mem = s.mem ∧ Inv L t slots free := by
  obtain ⟨hhead,hnull,hrest⟩ := hI.chain
  refine ⟨{s with freeSlots := (dword s.mem q).toNat},?_,rfl,?_⟩
  · rw [allocate,hhead,if_pos hnull]
  · exact {hI with
      free_slots := fun p hp => hI.free_slots p (List.mem_cons_of_mem q hp)
      chain := hrest}

/-- Cutting a slot from a block behind all slots of this block. -/
theorem Inv.cut (hI : Inv L s slots []) (b : ℕ) (hb : b ∈ s.blocks) (hlo : b+8 ≤ s.currentSlot)
    (hhi : s.currentSlot+L.slotSize ≤ b+L.blockSize) (hlast : s.lastSlot = b+L.blockSize-L.slotSize+1)
    (hbehind : ∀ p ∈ slots, b ≤ p → p < b+L.blockSize → p+L.slotSize ≤ s.currentSlot) :
    Inv L {s with currentSlot := s.currentSlot+L.slotSize} (slots++[s.currentSlot]) [] where
  blocks_range := hI.blocks_range
  blocks_apart := hI.blocks_apart
  slots_inside := by
    intro p hp
    rcases List.mem_append.mp hp with hp | hp
    · exact hI.slots_inside p hp
    · obtain rfl := List.mem_singleton.mp hp
      exact ⟨b,hb,hlo,hhi⟩
  slots_apart := by
    refine List.pairwise_append.mpr ⟨hI.slots_apart,List.pairwise_singleton _ _,?_⟩
    intro p hp q hq
    obtain rfl := List.mem_singleton.mp hq
    obtain ⟨b',hb',hplo,hphi⟩ := hI.slots_inside p hp
    have hfits := L.link_fits
    by_cases hbb : b' = b
    · subst hbb
      exact .inl (hbehind p hp (by omega) (by omega))
    · have hapart : Apart L.blockSize b' b :=
        hI.blocks_apart.forall hb' hb hbb
      rcases hapart with h | h
      · exact .inl (by omega)
      · exact .inr (by omega)
  bump := by
    intro _
    have hfits := L.link_fits
    refine ⟨b,hb,by simp only; omega,hlast,?_⟩
    intro p hp hbp hpb
    rcases List.mem_append.mp hp with hp | hp
    · have := hbehind p hp hbp hpb
      simp only
      omega
    · obtain rfl := List.mem_singleton.mp hp
      exact Nat.le_refl _
  free_slots := by simp
  chain := hI.chain

theorem padPointer_lt (p : ℕ) : padPointer p L.align ≤ L.align-1 := by
  have := Nat.mod_lt ((L.align+2^64-p%2^64)%2^64) L.align_pos
  rw [padPointer]
  omega

/-- The link of a new block is in no slot. -/
theorem agree_allocateBlock (hI : Inv L s slots free) (newBlock : ℕ)
    (hapart : ∀ b ∈ s.blocks, Apart L.blockSize newBlock b) :
    Agree (InSlots L slots) s.mem (allocateBlock L s newBlock).mem := by
  apply agree_putDword
  rintro a ⟨p,hp,hlo,hhi⟩
  obtain ⟨b,hb,hplo,hphi⟩ := hI.slots_inside p hp
  have hfits := L.slot_fits
  have hlink := L.link_fits
  rcases hapart b hb with h | h <;> omega

theorem inv_allocateBlock (hI : Inv L s slots []) (newBlock : ℕ) (hpos : 0 < newBlock)
    (hend : newBlock+L.blockSize < 2^64) (hapart : ∀ b ∈ s.blocks, Apart L.blockSize newBlock b) :
    Inv L (allocateBlock L s newBlock) slots [] where
  blocks_range := by
    intro b hb
    rcases List.mem_cons.mp hb with rfl | hb
    · exact ⟨hpos,hend⟩
    · exact hI.blocks_range b hb
  blocks_apart := List.pairwise_cons.mpr ⟨hapart,hI.blocks_apart⟩
  slots_inside := by
    intro p hp
    obtain ⟨b,hb,hin⟩ := hI.slots_inside p hp
    exact ⟨b,List.mem_cons_of_mem newBlock hb,hin⟩
  slots_apart := hI.slots_apart
  bump := by
    intro _
    refine ⟨newBlock,List.mem_cons_self,by simp only [allocateBlock]; omega,rfl,?_⟩
    -- no slot has been cut from the new block
    intro p hp hlo hhi
    obtain ⟨b,hb,hplo,hphi⟩ := hI.slots_inside p hp
    have hlink := L.link_fits
    rcases hapart b hb with h | h <;> omega
  free_slots := by simp
  chain := hI.chain

/-- A slot is cut when the list is empty: from the last block, or from a new one. -/
theorem allocate_cut (newBlock : ℕ) (hI : Inv L s slots []) (hfresh : Fresh L s newBlock) :
    ∃ t p, allocate L s newBlock = (t,p) ∧ Agree (InSlots L slots) s.mem t.mem ∧
      Inv L t (slots++[p]) [] := by
  have hnull : s.freeSlots = 0 := hI.chain
  have hlink := L.link_fits
  have hfits := L.slot_fits
  rw [allocate,if_neg (not_not.mpr hnull)]
  by_cases hend : s.lastSlot ≤ s.currentSlot
  · obtain ⟨hpos,hrange,hapart⟩ := hfresh hnull hend
    have hpad := @padPointer_lt L (newBlock+8)
    rw [if_pos hend]
    refine ⟨_,_,rfl,agree_allocateBlock hI newBlock hapart,?_⟩
    refine (inv_allocateBlock hI newBlock hpos hrange hapart).cut newBlock List.mem_cons_self
      ?_ ?_ rfl ?_
    · simp only [allocateBlock]
      omega
    · simp only [allocateBlock]
      omega
    · intro p hp hlo hhi
      obtain ⟨b,hb,hplo,hphi⟩ := hI.slots_inside p hp
      rcases hapart b hb with h | h <;> omega
  · rw [if_neg hend]
    obtain ⟨b,hb,hlo,hlast,hbehind⟩ := hI.bump (Nat.lt_of_not_le hend)
    refine ⟨_,_,rfl,Agree.refl s.mem,hI.cut b hb hlo ?_ hlast hbehind⟩
    omega

/-! ## Taking a slot back, and storing into one -/

theorem agree_of_write (hI : Inv L s slots free) (p : ℕ) (hp : p ∈ slots) (rest : List ℕ)
    (hrest : ∀ q ∈ rest, q ∈ slots) (hnot : p ∉ rest) (a : ℕ) (ha : InSlots L rest a) :
    a < p ∨ p+L.slotSize ≤ a := by
  obtain ⟨q,hq,hlo,hhi⟩ := ha
  have hne : p ≠ q := fun h => hnot (h ▸ hq)
  rcases hI.slots_apart_of_ne p q hp (hrest q hq) hne with h | h <;> omega

/-- A slot that is not in the list becomes its head. -/
theorem inv_deallocate (hI : Inv L s slots free) (p : ℕ) (hp : p ∈ slots) (hnot : p ∉ free) :
    Inv L (deallocate s p) slots (p::free) := by
  have hnull := (hI.slot_range p hp).1
  have hagree : Agree (InSlots L free) s.mem (putDword s.mem p (BitVec.ofNat 64 s.freeSlots)) := by
    apply agree_putDword
    intro a ha
    have hlink := L.link_fits
    have := agree_of_write hI p hp free hI.free_slots hnot a ha
    omega
  have hkept := hI.of_mem _ hagree
  rw [deallocate,if_pos (Nat.pos_iff_ne_zero.mp hnull)]
  exact {hkept with
    free_slots := by
      intro q hq
      rcases List.mem_cons.mp hq with rfl | hq
      · exact hp
      · exact hI.free_slots q hq
    chain := by
      refine ⟨rfl,Nat.pos_iff_ne_zero.mp hnull,?_⟩
      rw [dword_putDword,BitVec.toNat_ofNat,Nat.mod_eq_of_lt hI.freeSlots_lt]
      exact hkept.chain}

/-- The bytes of the other slots stay as they are. -/
theorem agree_deallocate (hI : Inv L s slots free) (p : ℕ) (hp : p ∈ slots) (rest : List ℕ)
    (hrest : ∀ q ∈ rest, q ∈ slots) (hnot : p ∉ rest) :
    Agree (InSlots L rest) s.mem (deallocate s p).mem := by
  rw [deallocate]
  split
  · apply agree_putDword
    intro a ha
    have hlink := L.link_fits
    have := agree_of_write hI p hp rest hrest hnot a ha
    omega
  · exact Agree.refl s.mem

theorem agree_store (hI : Inv L s slots free) (p : ℕ) (hp : p ∈ slots) (offset : ℕ)
    (bytes : List (BitVec 8)) (hfit : offset+bytes.length ≤ L.slotSize) (rest : List ℕ)
    (hrest : ∀ q ∈ rest, q ∈ slots) (hnot : p ∉ rest) :
    Agree (InSlots L rest) s.mem (put s.mem (p+offset) bytes) := by
  apply agree_put
  intro a ha
  have := agree_of_write hI p hp rest hrest hnot a ha
  omega

end Template

end FreeFlow.MemoryPool
