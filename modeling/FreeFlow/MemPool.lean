import FreeFlow.KeyedPool
import FreeFlow.MemoryPool
import FreeFlow.Runs

/-!
# The key pool

`MemPool` maps keys of 32 bits to slots of 32 bytes: `insert` gives out a slot of the memory
pool under a key, `del` gives it back, and `get` returns the pointer. A key that is absent
yields a null pointer, which `get` leaves in the map and which the memory pool does not take
back. An insertion under a key that has a slot abandons this slot.

The pool refines a keyed pool of cells: its cells are the slots in the order in which they
were cut from the blocks. What one key's operations leave alone under other keys follows
from the keyed pool.
-/

set_option autoImplicit false

namespace FreeFlow.MemPool

open ByteMemory MemoryPool Runs

theorem placeHolder_fits : 8+(8-1)+32 ≤ 4096000 := by decide

/-- `struct PlaceHolder` in a union with a pointer. -/
def placeHolder : Layout where
  blockSize := 4096000
  slotSize := 32
  align := 8
  align_pos := Nat.succ_pos 7
  link_fits := Nat.le_add_right 8 24
  slot_fits := placeHolder_fits

structure State where
  map : BitVec 32 → Option ℕ
  pool : MemoryPool.Pool

/-- `m_map[key]`, null for a key that is absent. -/
def State.lookup (s : State) (key : BitVec 32) : ℕ := (s.map key).getD 0

def insert (s : State) (key : BitVec 32) (newBlock : ℕ) : State × ℕ :=
  let (pool,r) := allocate placeHolder s.pool newBlock
  (⟨Function.update s.map key (some r),pool⟩,r)

/-- The subscript enters a null pointer under a key that is absent. -/
def get (s : State) (key : BitVec 32) : State × ℕ :=
  ({s with map := Function.update s.map key (some (s.lookup key))},s.lookup key)

def del (s : State) (key : BitVec 32) : State :=
  ⟨Function.update s.map key none,deallocate s.pool (s.lookup key)⟩

/-- A store of the client through the pointer of a key. -/
def store (s : State) (key : BitVec 32) (offset : ℕ) (bytes : List (BitVec 8)) : State :=
  {s with pool := {s.pool with mem := put s.pool.mem (s.lookup key+offset) bytes}}

theorem lookup_update (s : State) (pool : MemoryPool.Pool) (key k : BitVec 32) (r : Option ℕ) :
    State.lookup ⟨Function.update s.map key r,pool⟩ k = if k = key then r.getD 0 else s.lookup k := by
  by_cases hk : k = key
  · simp [State.lookup,hk]
  · simp [State.lookup,hk]

theorem lookup_get (s : State) (key k : BitVec 32) : (get s key).1.lookup k = s.lookup k := by
  rw [get,lookup_update]
  split
  · next hk => rw [hk,Option.getD_some]
  · rfl

/-! ## The refinement -/

abbrev Cells := KeyedPool.Pool (BitVec 32) (List (BitVec 8))

/-- The place of a cell. -/
def place (slots : List ℕ) (i : ℕ) : ℕ := slots.getD i 0

theorem place_mem (slots : List ℕ) (i : ℕ) (hi : i < slots.length) : place slots i ∈ slots := by
  rw [place,List.getD_eq_getElem _ _ hi]
  exact List.getElem_mem hi

theorem place_append (slots rest : List ℕ) (i : ℕ) (hi : i < slots.length) :
    place (slots++rest) i = place slots i := List.getD_append _ _ _ _ hi

theorem place_last (slots : List ℕ) (p : ℕ) : place (slots++[p]) slots.length = p := by
  simp [place]

/-- The keyed pool behind a state and the places of its cells. -/
structure Refines (s : State) (a : Cells) (slots : List ℕ) : Prop where
  inv : Inv placeHolder s.pool slots (a.free.map (place slots))
  used : a.used = slots.length
  map : ∀ k, s.lookup k = ((a.map k).map (place slots)).getD 0
  cell : ∀ i < slots.length, a.cell i = slice s.pool.mem (place slots i) 32

section Refinement

variable {s t : State} {a b : Cells} {slots slots' : List ℕ}

theorem Refines.free_lt (h : Refines s a slots) (i : ℕ) (hi : i ∈ a.free) : i < slots.length :=
  h.used ▸ a.free_lt i hi

theorem Refines.map_lt (h : Refines s a slots) (k : BitVec 32) (i : ℕ) (hi : a.map k = some i) :
    i < slots.length := h.used ▸ a.map_lt k i hi

theorem Refines.place_apart (h : Refines s a slots) (i j : ℕ) (hi : i < slots.length)
    (hj : j < slots.length) (hne : i ≠ j) : Apart 32 (place slots i) (place slots j) := by
  rw [place,place,List.getD_eq_getElem _ _ hi,List.getD_eq_getElem _ _ hj]
  rcases Nat.lt_or_gt_of_ne hne with hlt | hgt
  · exact List.pairwise_iff_getElem.mp h.inv.slots_apart i j hi hj hlt
  · exact Or.symm (List.pairwise_iff_getElem.mp h.inv.slots_apart j i hj hi hgt)

theorem Refines.place_ne (h : Refines s a slots) (i j : ℕ) (hi : i < slots.length)
    (hj : j < slots.length) (hne : i ≠ j) : place slots i ≠ place slots j := by
  intro heq
  have hapart := h.place_apart i j hi hj hne
  rw [heq] at hapart
  rcases hapart with hle | hle <;> omega

theorem Refines.lookup_of_some (h : Refines s a slots) (k : BitVec 32) (i : ℕ) (hi : a.map k = some i) :
    s.lookup k = place slots i := by
  rw [h.map,hi]
  rfl

theorem Refines.lookup_of_none (h : Refines s a slots) (k : BitVec 32) (hk : a.map k = none) :
    s.lookup k = 0 := by
  rw [h.map,hk]
  rfl

/-- A key has a pointer exactly if it has a cell. -/
theorem Refines.present (h : Refines s a slots) (k : BitVec 32) (hk : s.lookup k ≠ 0) :
    ∃ i, a.map k = some i := by
  cases hi : a.map k with
  | none => exact absurd (h.lookup_of_none k hi) hk
  | some i => exact ⟨i,rfl⟩

/-- The content of a cell outside the list is not changed by a write that keeps the bytes of
the other slots. -/
theorem slice_agree {m m' : Memory} (rest : List ℕ) (p : ℕ) (hp : p ∈ rest)
    (hagree : Agree (InSlots placeHolder rest) m m') : slice m' p 32 = slice m p 32 := by
  apply slice_congr
  intro j hj
  exact hagree (p+j) ⟨p,hp,Nat.le_add_right p j,Nat.add_lt_add_left hj p⟩

/-- The slots other than the one of a cell. -/
theorem Refines.not_mem_erase (h : Refines s a slots) (i : ℕ) :
    place slots i ∉ slots.erase (place slots i) := by
  have hnodup : slots.Nodup := h.inv.slots_apart.imp fun {p q} hapart heq => by
    rw [heq] at hapart
    rcases hapart with hle | hle <;> simp [placeHolder] at hle
  exact hnodup.not_mem_erase

theorem Refines.mem_erase (h : Refines s a slots) (i j : ℕ) (hi : i < slots.length)
    (hj : j < slots.length) (hne : j ≠ i) : place slots j ∈ slots.erase (place slots i) :=
  (List.mem_erase_of_ne (h.place_ne j i hj hi hne)).mpr (place_mem slots j hj)

theorem Refines.not_free (h : Refines s a slots) (k : BitVec 32) (i : ℕ) (hi : a.map k = some i) :
    place slots i ∉ a.free.map (place slots) := by
  intro hmem
  obtain ⟨j,hj,heq⟩ := List.mem_map.mp hmem
  have hne : j ≠ i := by
    rintro rfl
    exact a.free_unmapped k j hi hj
  exact h.place_ne j i (h.free_lt j hj) (h.map_lt k i hi) hne heq

/-- The cells after a change of one of them, in a memory that keeps the bytes of the others. -/
theorem Refines.cell_update (h : Refines s a slots) (i : ℕ) (m : Memory)
    (hkeep : ∀ j < slots.length, j ≠ i →
      slice m (place slots j) 32 = slice s.pool.mem (place slots j) 32) (j : ℕ)
    (hj : j < slots.length) :
    Function.update a.cell i (slice m (place slots i) 32) j = slice m (place slots j) 32 := by
  by_cases hji : j = i
  · rw [hji,Function.update_self]
  · rw [Function.update_of_ne hji,h.cell j hj,hkeep j hj hji]

theorem refines_get (h : Refines s a slots) (key : BitVec 32) : Refines (get s key).1 a slots :=
  ⟨h.inv,h.used,fun k => (lookup_get s key k).trans (h.map k),h.cell⟩

/-- An insertion when the list is empty. -/
theorem refines_insert_cut (h : Refines s a slots) (key : BitVec 32) (newBlock : ℕ)
    (hfree : a.free = []) (hfresh : Fresh placeHolder s.pool newBlock) :
    ∃ p v, (insert s key newBlock).2 = p ∧
      Refines (insert s key newBlock).1 ((a.insert key).write a.fresh v) (slots++[p]) := by
  have hinv := h.inv
  rw [hfree] at hinv
  obtain ⟨pool,p,halloc,hagree,hinv'⟩ := allocate_cut newBlock hinv hfresh
  have hnew : a.fresh = slots.length := by rw [KeyedPool.Pool.fresh,hfree,← h.used]; rfl
  have hinsert : insert s key newBlock = (⟨Function.update s.map key (some p),pool⟩,p) := by
    rw [insert,halloc]
  rw [hinsert]
  refine ⟨p,slice pool.mem p 32,rfl,?_⟩
  constructor
  · have htail : ((a.insert key).write a.fresh (slice pool.mem p 32)).free = [] := by
      show a.free.tail = []
      rw [hfree]
      rfl
    rw [htail]
    exact hinv'
  · show max a.used (a.fresh+1) = _
    rw [hnew,h.used,List.length_append,List.length_singleton]
    exact Nat.max_eq_right (Nat.le_succ _)
  · intro k
    rw [lookup_update,KeyedPool.map_write]
    by_cases hk : k = key
    · rw [if_pos hk,hk,KeyedPool.map_insert_self,hnew,Option.map_some,place_last]
    · rw [if_neg hk,KeyedPool.map_insert_other a key k hk,h.map]
      cases hi : a.map k with
      | none => rfl
      | some i => simp [place_append slots [p] i (h.map_lt k i hi)]
  · intro i hi
    show Function.update a.cell a.fresh _ i = _
    rw [hnew]
    by_cases hlast : i = slots.length
    · rw [hlast,Function.update_self,place_last]
    · have hlt : i < slots.length := by
        rw [List.length_append,List.length_singleton] at hi
        omega
      rw [Function.update_of_ne hlast,place_append slots [p] i hlt,h.cell i hlt]
      exact (slice_agree slots _ (place_mem slots i hlt) hagree).symm

/-- An insertion from the list. -/
theorem refines_insert_free (h : Refines s a slots) (key : BitVec 32) (newBlock i : ℕ) (free : List ℕ)
    (hfree : a.free = i::free) :
    (insert s key newBlock).2 = place slots i ∧
      ∃ v, Refines (insert s key newBlock).1 ((a.insert key).write a.fresh v) slots := by
  have hinv := h.inv
  rw [hfree,List.map_cons] at hinv
  obtain ⟨pool,halloc,hmem,hinv'⟩ := allocate_free (place slots i) newBlock hinv
  have hnew : a.fresh = i := by rw [KeyedPool.Pool.fresh,hfree]; rfl
  have hlt : i < slots.length := h.free_lt i (by rw [hfree]; exact List.mem_cons_self)
  have hinsert : insert s key newBlock =
      (⟨Function.update s.map key (some (place slots i)),pool⟩,place slots i) := by
    rw [insert,halloc]
  rw [hinsert]
  refine ⟨rfl,slice pool.mem (place slots i) 32,?_⟩
  constructor
  · have htail : ((a.insert key).write a.fresh (slice pool.mem (place slots i) 32)).free = free := by
      show a.free.tail = free
      rw [hfree]
      rfl
    rw [htail]
    exact hinv'
  · show max a.used (a.fresh+1) = _
    rw [hnew,h.used]
    exact Nat.max_eq_left hlt
  · intro k
    rw [lookup_update,KeyedPool.map_write]
    by_cases hk : k = key
    · rw [if_pos hk,hk,KeyedPool.map_insert_self,hnew]
      rfl
    · rw [if_neg hk,KeyedPool.map_insert_other a key k hk,h.map]
  · show ∀ j < slots.length, Function.update a.cell a.fresh _ j = _
    rw [hnew]
    exact h.cell_update i pool.mem fun j _ _ => by rw [hmem]

theorem refines_del (h : Refines s a slots) (key : BitVec 32) :
    ∃ v, Refines (del s key) (a.del key v) slots := by
  cases hi : a.map key with
  | none =>
    refine ⟨[],?_⟩
    have hnull := h.lookup_of_none key hi
    have hdel : del s key = ⟨Function.update s.map key none,s.pool⟩ := by
      rw [del,hnull]
      rfl
    rw [KeyedPool.del_of_none a key [] hi,hdel]
    refine ⟨h.inv,h.used,fun k => ?_,h.cell⟩
    rw [lookup_update]
    split
    · next hk => rw [hk,hi]; rfl
    · exact h.map k
  | some i =>
    have hlt := h.map_lt key i hi
    have hplace := h.lookup_of_some key i hi
    have hmem := place_mem slots i hlt
    refine ⟨slice (deallocate s.pool (place slots i)).mem (place slots i) 32,?_⟩
    obtain ⟨hmap,hcell,hfree,hused⟩ := KeyedPool.del_of_some a key
      (slice (deallocate s.pool (place slots i)).mem (place slots i) 32) i hi
    rw [del,hplace]
    constructor
    · rw [hfree,List.map_cons]
      exact inv_deallocate h.inv (place slots i) hmem (h.not_free key i hi)
    · rw [hused,h.used]
    · intro k
      rw [lookup_update,hmap]
      by_cases hk : k = key
      · rw [if_pos hk,hk,Function.update_self]
        rfl
      · rw [if_neg hk,Function.update_of_ne hk,h.map]
    · rw [hcell]
      apply h.cell_update i
      intro j hj hji
      apply slice_agree _ _ (h.mem_erase i j hlt hj hji)
      exact agree_deallocate h.inv (place slots i) hmem _ (fun _ => List.mem_of_mem_erase)
        (h.not_mem_erase i)

theorem refines_store (h : Refines s a slots) (key : BitVec 32) (i offset : ℕ) (bytes : List (BitVec 8))
    (hi : a.map key = some i) (hfit : offset+bytes.length ≤ 32) :
    ∃ v, Refines (store s key offset bytes) (a.write i v) slots := by
  have hlt := h.map_lt key i hi
  have hmem := place_mem slots i hlt
  rw [store,h.lookup_of_some key i hi]
  refine ⟨slice (put s.pool.mem (place slots i+offset) bytes) (place slots i) 32,?_,h.used,h.map,?_⟩
  · refine h.inv.of_mem _ ?_
    exact agree_store h.inv (place slots i) hmem offset bytes hfit _ h.inv.free_slots
      (h.not_free key i hi)
  · apply h.cell_update i
    intro j hj hji
    apply slice_agree _ _ (h.mem_erase i j hlt hj hji)
    exact agree_store h.inv (place slots i) hmem offset bytes hfit _
      (fun _ => List.mem_of_mem_erase) (h.not_mem_erase i)

/-- A key whose cell and content are kept in the keyed pool has its pointer and its bytes. -/
theorem Refines.kept (hs : Refines s a slots) (ht : Refines t b slots') (k : BitVec 32)
    (hplaces : ∀ i < slots.length, i < slots'.length ∧ place slots' i = place slots i)
    (hmap : b.map k = a.map k) (hget : b.get k = a.get k) (hk : s.lookup k ≠ 0) :
    t.lookup k = s.lookup k ∧
      slice t.pool.mem (s.lookup k) 32 = slice s.pool.mem (s.lookup k) 32 := by
  obtain ⟨i,hi⟩ := hs.present k hk
  have hlt := hs.map_lt k i hi
  obtain ⟨hlt',hplace⟩ := hplaces i hlt
  rw [hs.lookup_of_some k i hi,ht.lookup_of_some k i (hmap.trans hi),hplace]
  refine ⟨rfl,?_⟩
  rw [KeyedPool.Pool.get,KeyedPool.Pool.get,hmap,hi,Option.map_some,Option.map_some,
    Option.some.injEq,hs.cell i hlt,ht.cell i hlt',hplace] at hget
  exact hget

end Refinement

/-! ## Runs -/

/-- What the calls returned, the last call first. -/
inductive Entry
  | insert (key : BitVec 32) (r : ℕ)
  | del (key : BitVec 32)

/-- The pointer of the latest insertion under a key that no deletion followed. -/
def latest : List Entry → BitVec 32 → Option ℕ
  | [], _ => none
  | .insert key r::log, k => if k = key then some r else latest log k
  | .del key::log, k => if k = key then none else latest log k

structure System where
  state : State
  log : List Entry

def created (mem : Memory) : System := ⟨⟨fun _ => none,Pool.new mem⟩,[]⟩

inductive Event
  | insert (key : BitVec 32) (newBlock : ℕ)
  | get (key : BitVec 32)
  | del (key : BitVec 32)
  | store (key : BitVec 32) (offset : ℕ) (bytes : List (BitVec 8))

def Event.key : Event → BitVec 32
  | .insert key _ => key
  | .get key => key
  | .del key => key
  | .store key _ _ => key

def step (s : System) : Event → Option System
  | .insert key newBlock =>
    some ⟨(insert s.state key newBlock).1,.insert key (insert s.state key newBlock).2::s.log⟩
  | .get key => some {s with state := (get s.state key).1}
  | .del key => some ⟨del s.state key,.del key::s.log⟩
  | .store key offset bytes =>
    if s.state.lookup key ≠ 0 ∧ offset+bytes.length ≤ 32 then
      some {s with state := store s.state key offset bytes}
    else none

/-- `operator new` returns fresh blocks. -/
def NewBlock (s : System) : Event → Prop
  | .insert _ newBlock => Fresh placeHolder s.state.pool newBlock
  | _ => True

instance (s : System) (e : Event) : Decidable (NewBlock s e) :=
  match e with
  | .insert _ newBlock => inferInstanceAs (Decidable (Fresh placeHolder s.state.pool newBlock))
  | .get _ => inferInstanceAs (Decidable True)
  | .del _ => inferInstanceAs (Decidable True)
  | .store _ _ _ => inferInstanceAs (Decidable True)

/-- An operation leaves the pointers and the bytes of the other keys alone. -/
def Private (s : System) (e : Event) : Prop :=
  ∀ t, step s e = some t → ∀ k, k ≠ e.key → s.state.lookup k ≠ 0 →
    t.state.lookup k = s.state.lookup k ∧
      slice t.state.pool.mem (s.state.lookup k) 32 = slice s.state.pool.mem (s.state.lookup k) 32

/-- The step in the keyed pool: the other keys keep their cells and the contents. -/
theorem step_refines (s t : System) (e : Event) (a : Cells) (slots : List ℕ)
    (h : Refines s.state a slots) (hnew : NewBlock s e) (ht : step s e = some t) :
    ∃ b slots', Refines t.state b slots' ∧
      (∀ i < slots.length, i < slots'.length ∧ place slots' i = place slots i) ∧
      ∀ k, k ≠ e.key → b.map k = a.map k ∧ b.get k = a.get k := by
  have hsame : ∀ i < slots.length, i < slots.length ∧ place slots i = place slots i :=
    fun i hi => ⟨hi,rfl⟩
  cases e with
  | insert key newBlock =>
    obtain rfl := Option.some.inj ht
    have hother : ∀ v k, k ≠ key → ((a.insert key).write a.fresh v).map k = a.map k ∧
        ((a.insert key).write a.fresh v).get k = a.get k := by
      intro v k hk
      refine ⟨KeyedPool.map_insert_other a key k hk,?_⟩
      rw [KeyedPool.get_write_other _ _ v key k (KeyedPool.map_insert_self a key) hk,
        KeyedPool.get_insert_other a key k hk]
    cases hfree : a.free with
    | nil =>
      obtain ⟨p,v,-,href⟩ := refines_insert_cut h key newBlock hfree hnew
      refine ⟨_,_,href,fun i hi => ⟨?_,place_append slots [p] i hi⟩,hother v⟩
      rw [List.length_append]
      exact Nat.lt_add_right _ hi
    | cons i free =>
      obtain ⟨-,v,href⟩ := refines_insert_free h key newBlock i free hfree
      exact ⟨_,_,href,hsame,hother v⟩
  | get key =>
    obtain rfl := Option.some.inj ht
    exact ⟨a,slots,refines_get h key,hsame,fun _ _ => ⟨rfl,rfl⟩⟩
  | del key =>
    obtain rfl := Option.some.inj ht
    obtain ⟨v,href⟩ := refines_del h key
    exact ⟨_,slots,href,hsame,fun k hk =>
      ⟨KeyedPool.map_del_other a key k v hk,KeyedPool.get_del_other a key k v hk⟩⟩
  | store key offset bytes =>
    rw [step] at ht
    split at ht
    · next hguard =>
      obtain rfl := Option.some.inj ht
      obtain ⟨i,hi⟩ := h.present key hguard.1
      obtain ⟨v,href⟩ := refines_store h key i offset bytes hi hguard.2
      exact ⟨_,slots,href,hsame,fun k hk =>
        ⟨rfl,KeyedPool.get_write_other a i v key k hi hk⟩⟩
    · cases ht

/-- The map shows what the log says. -/
def Tracks (s : System) : Prop :=
  ∀ k, latest s.log k = if s.state.lookup k = 0 then none else some (s.state.lookup k)

theorem insert_ne_null (s : State) (a : Cells) (slots : List ℕ) (h : Refines s a slots)
    (key : BitVec 32) (newBlock : ℕ) (hnew : Fresh placeHolder s.pool newBlock) :
    (insert s key newBlock).2 ≠ 0 := by
  cases hfree : a.free with
  | nil =>
    obtain ⟨p,v,hp,href⟩ := refines_insert_cut h key newBlock hfree hnew
    have hrange := href.inv.slot_range p (List.mem_append.mpr (.inr (List.mem_singleton.mpr rfl)))
    rw [hp]
    omega
  | cons i free =>
    have hlt := h.free_lt i (by rw [hfree]; exact List.mem_cons_self)
    have hrange := h.inv.slot_range _ (place_mem slots i hlt)
    rw [(refines_insert_free h key newBlock i free hfree).1]
    omega

theorem tracks_step (s t : System) (e : Event) (a : Cells) (slots : List ℕ)
    (h : Refines s.state a slots) (hnew : NewBlock s e) (hs : Tracks s) (ht : step s e = some t) :
    Tracks t := by
  intro k
  cases e with
  | insert key newBlock =>
    obtain rfl := Option.some.inj ht
    have hnull := insert_ne_null s.state a slots h key newBlock hnew
    have hlookup : (insert s.state key newBlock).1.lookup k =
        if k = key then (insert s.state key newBlock).2 else s.state.lookup k := lookup_update ..
    rw [latest,hlookup]
    by_cases hk : k = key
    · rw [if_pos hk,if_pos hk,if_neg hnull]
    · rw [if_neg hk,if_neg hk]
      exact hs k
  | get key =>
    obtain rfl := Option.some.inj ht
    rw [lookup_get]
    exact hs k
  | del key =>
    obtain rfl := Option.some.inj ht
    rw [latest,del,lookup_update]
    by_cases hk : k = key
    · rw [if_pos hk,if_pos hk]
      rfl
    · rw [if_neg hk,if_neg hk]
      exact hs k
  | store key offset bytes =>
    rw [step] at ht
    split at ht
    · obtain rfl := Option.some.inj ht
      exact hs k
    · cases ht

def Sound (s : System) : Prop := (∃ a slots, Refines s.state a slots) ∧ Tracks s

theorem sound_created (mem : Memory) : Sound (created mem) := by
  refine ⟨⟨KeyedPool.empty [],[],?_⟩,fun k => rfl⟩
  exact ⟨inv_new mem,rfl,fun k => rfl,fun i hi => absurd hi (Nat.not_lt_zero i)⟩

theorem sound_step (s : System) (e : Event) (t : System) (hs : Sound s) (hnew : NewBlock s e)
    (ht : step s e = some t) : Sound t := by
  obtain ⟨⟨a,slots,href⟩,htracks⟩ := hs
  obtain ⟨b,slots',href',-⟩ := step_refines s t e a slots href hnew ht
  exact ⟨⟨b,slots',href'⟩,tracks_step s t e a slots href hnew htracks ht⟩

theorem private_step (s : System) (e : Event) (hs : Sound s) (hnew : NewBlock s e) : Private s e := by
  obtain ⟨⟨a,slots,href⟩,-⟩ := hs
  intro t ht k hk hpresent
  obtain ⟨b,slots',href',hplaces,hother⟩ := step_refines s t e a slots href hnew ht
  exact href.kept href' k hplaces (hother k hk).1 (hother k hk).2 hpresent

theorem Sound.of_latest {s : System} (hs : Sound s) (k : BitVec 32) (p : ℕ)
    (hp : latest s.log k = some p) : s.state.lookup k = p ∧ s.state.lookup k ≠ 0 := by
  have htracks := hs.2 k
  rw [hp] at htracks
  by_cases hnull : s.state.lookup k = 0
  · rw [if_pos hnull] at htracks
    cases htracks
  · rw [if_neg hnull] at htracks
    exact ⟨(Option.some.inj htracks).symm,hnull⟩

/-- For every sequence of insertions, lookups, deletions and stores with arbitrary keys,
where `operator new` returns blocks that are apart: `get` returns the pointer of the latest
insertion that no deletion followed, and null if there is none; the slots of the keys present
lie each in a block behind its link, apart from each other; and no operation changes a pointer
or the bytes of a slot under another key. -/
theorem key_pool_private (mem : Memory) (events : List Event) (t : System)
    (hnew : Along step NewBlock (created mem) events)
    (hrun : run step (created mem) events = some t) :
    (∀ k, (get t.state k).2 = (latest t.log k).getD 0) ∧
    (∀ k p, latest t.log k = some p → ∃ b ∈ t.state.pool.blocks, Inside placeHolder p b) ∧
    (∀ k k' p p', k ≠ k' → latest t.log k = some p → latest t.log k' = some p' → Apart 32 p p') ∧
    Along step Private (created mem) events := by
  have ht : Sound t := run_invariant step NewBlock Sound sound_step (created mem) events t
    (sound_created mem) hnew hrun
  obtain ⟨a,slots,href⟩ := ht.1
  refine ⟨?_,?_,?_,?_⟩
  · intro k
    rw [ht.2 k]
    split
    · next hnull => exact hnull
    · rfl
  · intro k p hp
    obtain ⟨rfl,hpresent⟩ := ht.of_latest k p hp
    obtain ⟨i,hi⟩ := href.present k hpresent
    rw [href.lookup_of_some k i hi]
    exact href.inv.slots_inside _ (place_mem slots i (href.map_lt k i hi))
  · intro k k' p p' hne hp hp'
    obtain ⟨rfl,hpresent⟩ := ht.of_latest k p hp
    obtain ⟨rfl,hpresent'⟩ := ht.of_latest k' p' hp'
    obtain ⟨i,hi⟩ := href.present k hpresent
    obtain ⟨j,hj⟩ := href.present k' hpresent'
    rw [href.lookup_of_some k i hi,href.lookup_of_some k' j hj]
    refine href.place_apart i j (href.map_lt k i hi) (href.map_lt k' j hj) ?_
    rintro rfl
    exact hne (a.map_inj k k' i hi hj)
  · refine (along_congr step NewBlock (fun _ _ => True) Private Sound ?_ ?_ (created mem) events
      (sound_created mem) hnew).mp (along_trivial step (created mem) events)
    · exact fun s e hs hn => ⟨fun _ => private_step s e hs hn,fun _ => trivial⟩
    · exact fun s e u hs hn _ hu => sound_step s e u hs hn hu

/-- Two insertions, a store, a deletion and an insertion that gets the slot back. -/
def reused : List Event :=
  [.insert 5 65536,.insert 7 0,.store 7 0 [1,2,3],.get 9,.del 5,.del 9,.insert 11 0]

theorem reused_private : ∃ t, run step (created fun _ => 0) reused = some t ∧
    latest t.log 11 = some 65544 ∧ latest t.log 7 = some 65576 ∧ (get t.state 7).2 = 65576 := by
  have hnew : Along step NewBlock (created fun _ => 0) reused := by decide
  refine ⟨_,rfl,by decide,by decide,?_⟩
  exact ((key_pool_private (fun _ => 0) reused _ hnew rfl).1 7).trans (by decide)

end FreeFlow.MemPool
