import FreeFlow.RegisteredMemory
import FreeFlow.Runs
import FreeFlow.Wire

/-!
# The table of local keys

`lkey_ptr` sends the lkey of an MR to the start of its shared memory. `IBV_REG_MR`
writes it; the posts, on the socket and in the control slots, and `IBV_REG_MR_MAPPING`
read it with `operator[]`, which inserts NULL under a key that is not there.
`IBV_DEREG_MR` clears the entries of `mr_map` and `shmr_map` and does not touch it.

The driver gives no lkey that a registered MR has.
-/

set_option autoImplicit false

namespace FreeFlow.LocalKeys

open Runs Wire
open RegisteredMemory (Sge)

/-- A piece that was mapped: `mmap` returns no NULL. -/
structure Piece where
  ptr : ℕ
  mapped : 0 < ptr

structure Mr where
  handle : ℕ
  lkey : ℕ
  piece : Piece

structure State where
  lkeyPtr : ℕ → Option ℕ
  mrMap : ℕ → Option Mr
  live : List Mr

def empty : State := ⟨fun _ => none,fun _ => none,[]⟩

/-- `operator[]`. -/
def touch (table : ℕ → Option ℕ) (key : ℕ) : ℕ → Option ℕ :=
  Function.update table key (some ((table key).getD 0))

def ptr (table : ℕ → Option ℕ) (key : ℕ) : ℕ := (table key).getD 0

/-- The address that a post hands to the driver. -/
def address (s : State) (g : Sge) : ℕ := (ptr s.lkeyPtr g.lkey+g.addr)%2^64

/-- What is left when an MR is deregistered; no other one has its lkey. -/
def remaining (live : List Mr) (lkey : ℕ) : List Mr := live.filter fun m => m.lkey ≠ lkey

inductive Event
  /-- The piece, whether the PD is found, and handle and lkey of the MR. -/
  | regMr (piece : Option Piece) (pd : Bool) (mr : Option (ℕ × ℕ))
  | regMrMapping (key : ℕ)
  /-- `ibv_dereg_mr` succeeds or not. -/
  | deregMr (handle : ℕ) (success : Bool)
  | post (sges : List Sge)

def register (s : State) (m : Mr) : State where
  lkeyPtr := Function.update s.lkeyPtr m.lkey (some m.piece.ptr)
  mrMap := if m.handle < mapSize then Function.update s.mrMap m.handle (some m) else s.mrMap
  live := m::s.live

def deregister (s : State) (m : Mr) (handle : ℕ) (success : Bool) : State where
  lkeyPtr := s.lkeyPtr
  mrMap := Function.update s.mrMap handle none
  live := if success then remaining s.live m.lkey else s.live

def step (s : State) : Event → Option State
  | .regMr (some piece) true (some (handle,lkey)) =>
    if ∀ m ∈ s.live, m.lkey ≠ lkey then some (register s ⟨handle,lkey,piece⟩) else none
  | .regMr _ _ _ => some s
  | .regMrMapping key => some {s with lkeyPtr := touch s.lkeyPtr key}
  | .deregMr handle success =>
    if handle < mapSize then (s.mrMap handle).map fun m => deregister s m handle success
    else none
  | .post sges => some {s with lkeyPtr := (sges.map Sge.lkey).foldl touch s.lkeyPtr}

/-- The keys with a pointer are those of the registered MRs, and the pointer is
the start of the MR's memory. -/
def Exact (s : State) : Prop :=
  (∀ k, ptr s.lkeyPtr k ≠ 0 ↔ ∃ m ∈ s.live, m.lkey = k) ∧
    ∀ m ∈ s.live, ptr s.lkeyPtr m.lkey = m.piece.ptr

/-- A post forms its addresses from the memory of registered MRs. -/
def Formed (s : State) : Event → Prop
  | .post sges => ∀ g ∈ sges, ∃ m ∈ s.live, m.lkey = g.lkey ∧
      address s g = (m.piece.ptr+g.addr)%2^64
  | _ => True

/-- The index is inside the tables. -/
def Defined : Event → Prop
  | .deregMr handle _ => handle < mapSize
  | _ => True

def Sound (s : State) (e : Event) : Prop :=
  Defined e ∧ Formed s e ∧ ∀ t, step s e = some t → Exact t

/-- No MR is deregistered, and a post names lkeys of registered MRs. -/
def Proper (s : State) : Event → Prop
  | .deregMr handle success => handle < mapSize ∧ (success = true → s.mrMap handle = none)
  | .post sges => ∀ g ∈ sges, ∃ m ∈ s.live, m.lkey = g.lkey
  | _ => True

structure Inv (s : State) : Prop where
  keys : Exact s
  registered : ∀ handle m, s.mrMap handle = some m → m ∈ s.live

theorem ptr_touch (table : ℕ → Option ℕ) (key : ℕ) : ptr (touch table key) = ptr table := by
  funext k
  by_cases hk : k = key
  · rw [hk,ptr,touch,Function.update_self]
    rfl
  · rw [ptr,touch,Function.update_of_ne hk]
    rfl

theorem ptr_touches (keys : List ℕ) (table : ℕ → Option ℕ) :
    ptr (keys.foldl touch table) = ptr table := by
  induction keys generalizing table with
  | nil => rfl
  | cons key keys ih => rw [List.foldl_cons,ih,ptr_touch]

theorem Exact.of_ptr {s t : State} (hs : Exact s) (hptr : ptr t.lkeyPtr = ptr s.lkeyPtr)
    (hlive : t.live = s.live) : Exact t := by
  rw [Exact,hptr,hlive]
  exact hs

theorem exact_register {s : State} (hs : Exact s) (m : Mr)
    (hfree : ∀ m' ∈ s.live, m'.lkey ≠ m.lkey) : Exact (register s m) := by
  have hself : ptr (register s m).lkeyPtr m.lkey = m.piece.ptr := by
    have hentry : (register s m).lkeyPtr m.lkey = some m.piece.ptr := Function.update_self _ _ _
    rw [ptr,hentry]
    rfl
  have hother : ∀ k, k ≠ m.lkey → ptr (register s m).lkeyPtr k = ptr s.lkeyPtr k := by
    intro k hk
    have hentry : (register s m).lkeyPtr k = s.lkeyPtr k := Function.update_of_ne hk _ _
    rw [ptr,hentry]
    rfl
  constructor
  · intro k
    by_cases hk : k = m.lkey
    · rw [hk,hself]
      exact iff_of_true (Nat.ne_of_gt m.piece.mapped) ⟨m,List.mem_cons_self,rfl⟩
    · rw [hother k hk,hs.1 k]
      constructor
      · rintro ⟨m',hm',hkey⟩
        exact ⟨m',List.mem_cons_of_mem _ hm',hkey⟩
      · rintro ⟨m',hm',rfl⟩
        rcases List.mem_cons.mp hm' with rfl | hm'
        · exact absurd rfl hk
        · exact ⟨m',hm',rfl⟩
  · intro m' hm'
    rcases List.mem_cons.mp hm' with rfl | hm'
    · exact hself
    · rw [hother _ (hfree m' hm')]
      exact hs.2 m' hm'

/-- The pointer of a deregistered MR stays. -/
theorem not_exact_deregister {s : State} (hs : Exact s) {m : Mr} (hm : m ∈ s.live) (handle : ℕ) :
    ¬ Exact (deregister s m handle true) := by
  intro h
  have hptr : ptr s.lkeyPtr m.lkey ≠ 0 := (hs.1 m.lkey).mpr ⟨m,hm,rfl⟩
  obtain ⟨m',hm',hkey⟩ := (h.1 m.lkey).mp hptr
  have hne : m'.lkey ≠ m.lkey := by simpa using (List.mem_filter.mp hm').2
  exact hne hkey

theorem step_regMr {s t : State} {piece : Option Piece} {pd : Bool} {mr : Option (ℕ × ℕ)}
    (ht : step s (.regMr piece pd mr) = some t) :
    t = s ∨ ∃ m : Mr, (∀ m' ∈ s.live, m'.lkey ≠ m.lkey) ∧ t = register s m := by
  rcases piece with _ | piece <;> rcases mr with _ | ⟨handle,lkey⟩ <;> cases pd
  case some.some.true =>
    rw [step] at ht
    split at ht
    · next hfree => exact Or.inr ⟨⟨handle,lkey,piece⟩,hfree,(Option.some.inj ht).symm⟩
    · cases ht
  all_goals exact Or.inl (Option.some.inj ht).symm

theorem sound_iff_proper (s : State) (e : Event) (hI : Inv s) : Sound s e ↔ Proper s e := by
  cases e with
  | regMr piece pd mr =>
    refine iff_of_true ⟨trivial,trivial,fun t ht => ?_⟩ trivial
    rcases step_regMr ht with rfl | ⟨m,hfree,rfl⟩
    · exact hI.keys
    · exact exact_register hI.keys m hfree
  | regMrMapping key =>
    refine iff_of_true ⟨trivial,trivial,fun t ht => ?_⟩ trivial
    obtain rfl := Option.some.inj ht
    exact hI.keys.of_ptr (ptr_touch _ _) rfl
  | deregMr handle success =>
    apply and_congr_right
    intro (hlt : handle < mapSize)
    show True ∧ _ ↔ _
    rw [true_and,step,if_pos hlt]
    cases hm : s.mrMap handle with
    | none => simp
    | some m =>
      cases success with
      | false =>
        have hkept : Exact (deregister s m handle false) := hI.keys.of_ptr rfl rfl
        simpa using hkept
      | true =>
        simpa using not_exact_deregister hI.keys (hI.registered handle m hm) handle
  | post sges =>
    constructor
    · rintro ⟨_,hformed,_⟩ g hg
      obtain ⟨m,hm,hkey,_⟩ := hformed g hg
      exact ⟨m,hm,hkey⟩
    · intro hnamed
      refine ⟨trivial,fun g hg => ?_,fun t ht => ?_⟩
      · obtain ⟨m,hm,hkey⟩ := hnamed g hg
        refine ⟨m,hm,hkey,?_⟩
        rw [address,← hkey,hI.keys.2 m hm]
      · obtain rfl := Option.some.inj ht
        exact hI.keys.of_ptr (ptr_touches _ _) rfl

theorem registered_register {s : State} (hI : Inv s) (m : Mr) :
    ∀ handle m', (register s m).mrMap handle = some m' → m' ∈ (register s m).live := by
  intro handle m' hm'
  by_cases hlt : m.handle < mapSize
  · have hmap : (register s m).mrMap = Function.update s.mrMap m.handle (some m) := if_pos hlt
    rw [hmap] at hm'
    by_cases hh : handle = m.handle
    · rw [hh,Function.update_self,Option.some.injEq] at hm'
      rw [← hm']
      exact List.mem_cons_self
    · rw [Function.update_of_ne hh] at hm'
      exact List.mem_cons_of_mem _ (hI.registered handle m' hm')
  · have hmap : (register s m).mrMap = s.mrMap := if_neg hlt
    rw [hmap] at hm'
    exact List.mem_cons_of_mem _ (hI.registered handle m' hm')

theorem inv_step (s : State) (e : Event) (t : State) (hI : Inv s) (hsound : Sound s e)
    (ht : step s e = some t) : Inv t := by
  refine ⟨hsound.2.2 t ht,?_⟩
  cases e with
  | regMr piece pd mr =>
    rcases step_regMr ht with rfl | ⟨m,_,rfl⟩
    · exact hI.registered
    · exact registered_register hI m
  | regMrMapping key =>
    obtain rfl := Option.some.inj ht
    exact hI.registered
  | deregMr handle success =>
    obtain ⟨hlt,hnone⟩ := (sound_iff_proper s _ hI).mp hsound
    rw [step,if_pos hlt] at ht
    obtain ⟨m,hm,rfl⟩ := Option.map_eq_some_iff.mp ht
    cases success with
    | true =>
      rw [hnone rfl] at hm
      cases hm
    | false =>
      intro h m' hm'
      by_cases hh : h = handle
      · have hgone : (deregister s m handle false).mrMap handle = none :=
          Function.update_self _ _ _
        rw [hh,hgone] at hm'
        cases hm'
      · have hkept : (deregister s m handle false).mrMap h = s.mrMap h :=
          Function.update_of_ne hh _ _
        exact hI.registered h m' (hkept.symm.trans hm')
  | post sges =>
    obtain rfl := Option.some.inj ht
    exact hI.registered

/-- Over every sequence the table of keys is exact, and every address is formed
from a registered MR, exactly when no MR is deregistered and the posts name lkeys of
registered MRs. -/
theorem keys_exact_iff (events : List Event) :
    Along step Sound empty events ↔ Along step Proper empty events := by
  refine along_iff step Sound Proper Inv sound_iff_proper inv_step empty events ?_
  refine ⟨⟨fun k => ?_,?_⟩,?_⟩
  · simp [empty,ptr]
  · rintro m ⟨⟩
  · rintro handle m ⟨⟩

def page : Piece := ⟨4096,by decide⟩

theorem deregistered_key_stays : ∃ s,
    run step empty [.regMr (some page) true (some (1,7)),.deregMr 1 true] = some s ∧
      s.live.length = 0 ∧ ptr s.lkeyPtr 7 = 4096 ∧ ¬ Exact s ∧
      address s ⟨16,8,7⟩ = 4112 ∧ ¬ Formed s (.post [⟨16,8,7⟩]) := by
  refine ⟨_,rfl,rfl,rfl,fun h => ?_,rfl,fun h => ?_⟩
  · obtain ⟨m,hm,_⟩ := (h.1 7).mp (by decide)
    cases hm
  · obtain ⟨m,hm,_⟩ := h ⟨16,8,7⟩ List.mem_cons_self
    cases hm

end FreeFlow.LocalKeys
