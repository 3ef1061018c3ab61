import FreeFlow.KeyedPool
import FreeFlow.Runs
import FreeFlow.Threads
import Mathlib.Algebra.Order.Group.Nat
import Mathlib.Data.Int.Notation

/-!
# Registering memory in the client library

`ibv_cmd_reg_mr` and `ibv_cmd_reg_mr_ff` ask the router for an MR, map its shared
memory, announce the mapping and enter base and shared-memory pointer under the
lkey in `map_lkey_to_mrshm`. `ibv_cmd_dereg_mr` asks the router to deregister the MR
and removes the record. Any number of threads of one process do this, and a thread
is interrupted between any two requests, system calls and accesses of the pool.
The router issues any lkey that no MR registered with it holds. An application
passes an MR to `ibv_dereg_mr` while the MR is registered.

A failed `ftruncate` returns -1, which the test `ret > 0` does not see. A failed
`mmap` is printed and the registration returns 0. The last access of a call and
its return are one step.
-/

set_option autoImplicit false

namespace FreeFlow.ClientRegistration

open KeyedPool Runs Threads

/-- `struct mr_shm`, the record under an lkey. -/
structure MrShm where
  mr : ℕ
  shmPtr : ℕ
  deriving DecidableEq

/-- An MR that a registration call has returned. -/
structure Mr where
  id : ℕ
  lkey : ℕ
  base : ℕ
  shmPtr : ℕ
  deriving DecidableEq

/-- `MAP_FAILED`. -/
def mapFailed : ℕ := 2^64-1

/-- Where a thread stands. In a registration the fields are the MR as it will
be returned; `p` is the cell that `mempool_insert` returned. -/
inductive Pc
  | idle
  | registered (id lkey addr : ℕ) (ff : Bool)
  | mapped (m : Mr)
  | announced (m : Mr)
  | inserted (m : Mr) (p : ℕ)
  | halfWritten (m : Mr) (p : ℕ)
  | deregistered (m : Mr) (ret : ℤ)
  | unlinked (m : Mr) (ret : ℤ)
  deriving DecidableEq

/-- `held` is the MR registered with the router under an lkey, `live` are the
MRs that were returned and whose deregistration has not returned 0. -/
structure State where
  pool : Pool ℕ MrShm
  held : ℕ → Option ℕ
  live : List Mr
  pc : ℕ → Pc
  next : ℕ

def started : State := ⟨empty ⟨0,0⟩,fun _ => none,[],fun _ => .idle,0⟩

def State.goto (s : State) (t : ℕ) (pc : Pc) : State := {s with pc := Function.update s.pc t pc}

inductive Event
  /-- The router answers `IBV_REG_MR`. -/
  | regMr (t lkey addr : ℕ) (ff : Bool)
  /-- `ftruncate` and `mmap` return. -/
  | mmap (t : ℕ) (ftruncate : ℤ) (ptr : Option ℕ)
  /-- The router answers `IBV_DEREG_MR`. -/
  | deregMr (t : ℕ) (m : Mr) (ret : ℤ)
  | advance (t : ℕ)

/-- The MR that a registration returns: `ibv_cmd_reg_mr_ff` moves the base to
the mapped memory. -/
def returned (id lkey addr : ℕ) (ff : Bool) (shmPtr : ℕ) : Mr :=
  ⟨id,lkey,if ff then shmPtr else addr,shmPtr⟩

/-- Both functions go on after `mmap`; on failure they return 0 at once. -/
def afterMmap (s : State) (t id lkey addr : ℕ) (ff : Bool) (ftruncate : ℤ) (ptr : Option ℕ) :
    State :=
  match ptr with
  | none => {s with live := ⟨id,lkey,addr,mapFailed⟩::s.live}.goto t .idle
  | some shmPtr =>
    if ftruncate > 0 then {s with live := ⟨id,lkey,addr,shmPtr⟩::s.live}.goto t .idle
    else s.goto t (.mapped (returned id lkey addr ff shmPtr))

/-- The record of an lkey when the link of the free list has been stored over
its first eight bytes, which are `mr`. -/
def linked (pool : Pool ℕ MrShm) (lkey : ℕ) : MrShm :=
  ⟨pool.free.headD 0,((pool.get lkey).map MrShm.shmPtr).getD 0⟩

def advance (s : State) (t : ℕ) : Option State :=
  match s.pc t with
  | .mapped m => some (s.goto t (.announced m))
  | .announced m => some
      ({s with pool := s.pool.insert m.lkey}.goto t (.inserted m s.pool.fresh))
  | .inserted m p => some
      ({s with pool := s.pool.write p ⟨m.base,(s.pool.cell p).shmPtr⟩}.goto t (.halfWritten m p))
  | .halfWritten m p => some
      ({s with pool := s.pool.write p ⟨(s.pool.cell p).mr,m.shmPtr⟩,
               live := m::s.live}.goto t .idle)
  | .deregistered m ret => some (s.goto t (.unlinked m ret))
  | .unlinked m ret => some
      ({s with pool := s.pool.del m.lkey (linked s.pool m.lkey),
               live := if ret = 0 then s.live.filter (· ≠ m) else s.live}.goto t .idle)
  | .idle => none
  | .registered .. => none

def step (s : State) : Event → Option State
  | .regMr t lkey addr ff =>
    if s.pc t = .idle ∧ s.held lkey = none then
      some ({s with held := Function.update s.held lkey (some s.next),next := s.next+1}.goto t
        (.registered s.next lkey addr ff))
    else none
  | .mmap t ftruncate ptr =>
    match s.pc t with
    | .registered id lkey addr ff => some (afterMmap s t id lkey addr ff ftruncate ptr)
    | _ => none
  | .deregMr t m ret =>
    if s.pc t = .idle ∧ m ∈ s.live ∧ s.held m.lkey = some m.id then
      some ({s with held := if ret = 0 then Function.update s.held m.lkey none else s.held}.goto t
        (.deregistered m ret))
    else none
  | .advance t => advance s t

/-- Every live MR has its record. -/
def Recorded (s : State) : Prop :=
  ∀ m ∈ s.live, s.pool.get m.lkey = some ⟨m.base,m.shmPtr⟩

/-- The MR a thread deregisters. -/
def Pc.deregisters : Pc → Option Mr
  | .deregistered m _ => some m
  | .unlinked m _ => some m
  | _ => none

/-- `mmap` succeeds, the router deregisters what it is asked to, and it issues
no lkey whose record is still to be removed. -/
def Orderly (s : State) : Event → Prop
  | .regMr _ lkey _ _ => ∀ t m, (s.pc t).deregisters = some m → m.lkey ≠ lkey
  | .mmap _ ftruncate ptr => ftruncate ≤ 0 ∧ ptr ≠ none
  | .deregMr _ _ ret => ret = 0
  | .advance _ => True

/-- The MR a thread registers. -/
def Pc.registers : Pc → Option (ℕ × ℕ)
  | .registered id lkey _ _ => some (id,lkey)
  | .mapped m => some (m.id,m.lkey)
  | .announced m => some (m.id,m.lkey)
  | .inserted m _ => some (m.id,m.lkey)
  | .halfWritten m _ => some (m.id,m.lkey)
  | _ => none

/-- The lkey a thread works on. -/
def Pc.lkey (pc : Pc) : Option ℕ := (pc.registers.map Prod.snd).or (pc.deregisters.map Mr.lkey)

/-- What the pool shows to a thread. -/
def Stage (pool : Pool ℕ MrShm) : Pc → Prop
  | .inserted m p => pool.map m.lkey = some p
  | .halfWritten m p => pool.map m.lkey = some p ∧ (pool.cell p).mr = m.base
  | .deregistered _ ret => ret = 0
  | .unlinked _ ret => ret = 0
  | _ => True

/-- The router holds the MR that is being registered, and no live MR has its
lkey. -/
def Registering (held : ℕ → Option ℕ) (live : List Mr) (pc : Pc) : Prop :=
  ∀ id k, pc.registers = some (id,k) → held k = some id ∧ ∀ m ∈ live, m.lkey ≠ k

/-- The MR that is being deregistered is still live, and the router holds it no
longer. -/
def Deregistering (held : ℕ → Option ℕ) (live : List Mr) (pc : Pc) : Prop :=
  ∀ m, pc.deregisters = some m → m ∈ live ∧ held m.lkey = none

structure Inv (s : State) : Prop where
  recorded : Recorded s
  live_unique : ∀ m ∈ s.live, ∀ m' ∈ s.live, m.lkey = m'.lkey → m = m'
  live_held : ∀ m ∈ s.live, s.held m.lkey = some m.id ∨ ∃ t, (s.pc t).deregisters = some m
  registering : ∀ t, Registering s.held s.live (s.pc t)
  deregistering : ∀ t, Deregistering s.held s.live (s.pc t)
  apart : Apart Pc.lkey s.pc
  stage : ∀ t, Stage s.pool (s.pc t)

theorem Pc.lkey_cases (pc : Pc) (k : ℕ) (h : pc.lkey = some k) :
    (∃ id, pc.registers = some (id,k)) ∨ ∃ m, pc.deregisters = some m ∧ m.lkey = k := by
  cases pc <;> simp_all [Pc.lkey,Pc.registers,Pc.deregisters]

theorem Pc.lkey_of_registers {pc : Pc} {id k : ℕ} (h : pc.registers = some (id,k)) :
    pc.lkey = some k := by
  rw [Pc.lkey,h]
  rfl

theorem Pc.lkey_of_deregisters {pc : Pc} {m : Mr} (h : pc.deregisters = some m) :
    pc.lkey = some m.lkey := by
  cases pc <;> simp_all [Pc.lkey,Pc.registers,Pc.deregisters]

section Pools

/-- The two pools differ at most under the key `k`. -/
def AgreeOff (k : ℕ) (pool pool' : Pool ℕ MrShm) : Prop :=
  ∀ k', k' ≠ k → pool'.map k' = pool.map k' ∧ pool'.get k' = pool.get k'

variable {pool pool' : Pool ℕ MrShm}

theorem agreeOff_insert (pool : Pool ℕ MrShm) (k : ℕ) : AgreeOff k pool (pool.insert k) :=
  fun k' h => ⟨map_insert_other pool k k' h,get_insert_other pool k k' h⟩

theorem agreeOff_write (pool : Pool ℕ MrShm) (k p : ℕ) (v : MrShm) (hp : pool.map k = some p) :
    AgreeOff k pool (pool.write p v) :=
  fun k' h => ⟨rfl,get_write_other pool p v k k' hp h⟩

theorem agreeOff_del (pool : Pool ℕ MrShm) (k : ℕ) (v : MrShm) : AgreeOff k pool (pool.del k v) :=
  fun k' h => ⟨map_del_other pool k k' v h,get_del_other pool k k' v h⟩

theorem Stage.agree {k : ℕ} {pc : Pc} (hs : Stage pool pc) (hagree : AgreeOff k pool pool')
    (hpc : pc.lkey ≠ some k) : Stage pool' pc := by
  cases pc with
  | inserted m p =>
    have hk : m.lkey ≠ k := fun h => hpc (by rw [← h]; rfl)
    exact (hagree m.lkey hk).1.trans hs
  | halfWritten m p =>
    have hk : m.lkey ≠ k := fun h => hpc (by rw [← h]; rfl)
    obtain ⟨hmap,hget⟩ := hagree m.lkey hk
    have hmap' : pool'.map m.lkey = some p := hmap.trans hs.1
    rw [Pool.get,Pool.get,hmap',hs.1] at hget
    exact ⟨hmap',by rw [Option.some.inj hget]; exact hs.2⟩
  | _ => exact hs

end Pools

section Steps

variable {s : State}

theorem Inv.stages (hI : Inv s) {t k : ℕ} {pc : Pc} {pool' : Pool ℕ MrShm}
    (ht : (s.pc t).lkey = some k) (hagree : AgreeOff k s.pool pool') (hpc : Stage pool' pc) :
    ∀ t', Stage pool' (Function.update s.pc t pc t') :=
  (Function.forall_update_iff s.pc fun _ => Stage pool').mpr
    ⟨hpc,fun t' hne => (hI.stage t').agree hagree (hI.apart.other ht t' hne)⟩

/-- A thread goes on with the same MR; the pool changes at most under its lkey
and in no record of a live MR. -/
theorem Inv.of_role (hI : Inv s) {t k : ℕ} {pc : Pc} {pool' : Pool ℕ MrShm}
    (hreg : pc.registers = (s.pc t).registers) (hdereg : pc.deregisters = (s.pc t).deregisters)
    (ht : (s.pc t).lkey = some k) (hagree : AgreeOff k s.pool pool') (hpc : Stage pool' pc)
    (hlive : ∀ m ∈ s.live, pool'.get m.lkey = s.pool.get m.lkey) :
    Inv ({s with pool := pool'}.goto t pc) := by
  have hregs : ∀ t', (Function.update s.pc t pc t').registers = (s.pc t').registers :=
    (Function.forall_update_iff s.pc fun t' x => x.registers = (s.pc t').registers).mpr
      ⟨hreg,fun _ _ => rfl⟩
  have hderegs : ∀ t', (Function.update s.pc t pc t').deregisters = (s.pc t').deregisters :=
    (Function.forall_update_iff s.pc fun t' x => x.deregisters = (s.pc t').deregisters).mpr
      ⟨hdereg,fun _ _ => rfl⟩
  constructor
  · intro m hm
    show pool'.get m.lkey = _
    rw [hlive m hm]
    exact hI.recorded m hm
  · exact hI.live_unique
  · intro m hm
    rcases hI.live_held m hm with h | ⟨t',ht'⟩
    · exact Or.inl h
    · exact Or.inr ⟨t',(hderegs t').trans ht'⟩
  · intro t' id k' h
    exact hI.registering t' id k' ((hregs t').symm.trans h)
  · intro t' m h
    exact hI.deregistering t' m ((hderegs t').symm.trans h)
  · apply hI.apart.move
    intro k' hk'
    rw [Pc.lkey,hreg,hdereg] at hk'
    exact hk'
  · exact hI.stages ht hagree hpc

/-- The step changes nothing in the pool. -/
theorem Inv.of_goto (hI : Inv s) {t k : ℕ} {pc : Pc}
    (hreg : pc.registers = (s.pc t).registers) (hdereg : pc.deregisters = (s.pc t).deregisters)
    (ht : (s.pc t).lkey = some k) (hpc : Stage s.pool pc) : Inv (s.goto t pc) :=
  hI.of_role hreg hdereg ht (fun _ _ => ⟨rfl,rfl⟩) hpc fun _ _ => rfl

/-- The step is part of a registration, so no live MR has its lkey. -/
theorem Inv.of_registering (hI : Inv s) {t id k : ℕ} {pc : Pc} {pool' : Pool ℕ MrShm}
    (hold : (s.pc t).registers = some (id,k)) (hdold : (s.pc t).deregisters = none)
    (hreg : pc.registers = some (id,k)) (hdereg : pc.deregisters = none)
    (hagree : AgreeOff k s.pool pool') (hpc : Stage pool' pc) :
    Inv ({s with pool := pool'}.goto t pc) := by
  apply hI.of_role (hreg.trans hold.symm) (hdereg.trans hdold.symm) (Pc.lkey_of_registers hold)
    hagree hpc
  intro m hm
  exact (hagree m.lkey ((hI.registering t id k hold).2 m hm)).2

theorem deregisters_kept {pcs : ℕ → Pc} {t : ℕ} {pc : Pc} {m : Mr}
    (hpc : (pcs t).deregisters = none) (h : ∃ t', (pcs t').deregisters = some m) :
    ∃ t', (Function.update pcs t pc t').deregisters = some m := by
  obtain ⟨t',ht'⟩ := h
  have hne : t' ≠ t := by
    rintro rfl
    rw [hpc] at ht'
    cases ht'
  exact ⟨t',by rw [Function.update_of_ne hne]; exact ht'⟩

variable {s' : State}

/-- A thread begins to work on an lkey on which no thread works, and the router's
table changes under that lkey only. -/
theorem Inv.of_begin (hI : Inv s) {t k next : ℕ} {pc : Pc} {v : Option ℕ}
    (hnothread : ∀ t', (s.pc t').lkey ≠ some k) (hpc : pc.lkey = some k)
    (hlive : ∀ m ∈ s.live, Function.update s.held k v m.lkey = some m.id ∨
      ∃ t', (Function.update s.pc t pc t').deregisters = some m)
    (hreg : Registering (Function.update s.held k v) s.live pc)
    (hdereg : Deregistering (Function.update s.held k v) s.live pc) (hstage : Stage s.pool pc) :
    Inv ({s with held := Function.update s.held k v,next := next}.goto t pc) := by
  constructor
  · exact hI.recorded
  · exact hI.live_unique
  · exact hlive
  · refine (Function.forall_update_iff s.pc fun _ => Registering _ _).mpr ⟨hreg,?_⟩
    intro t' _ id k' h
    have hk : k' ≠ k := by
      rintro rfl
      exact hnothread t' (Pc.lkey_of_registers h)
    obtain ⟨hheld,hother⟩ := hI.registering t' id k' h
    exact ⟨(Function.update_of_ne hk _ _).trans hheld,hother⟩
  · refine (Function.forall_update_iff s.pc fun _ => Deregistering _ _).mpr ⟨hdereg,?_⟩
    intro t' _ m h
    have hk : m.lkey ≠ k := by
      rintro rfl
      exact hnothread t' (Pc.lkey_of_deregisters h)
    obtain ⟨hmem,hheld⟩ := hI.deregistering t' m h
    exact ⟨hmem,(Function.update_of_ne hk _ _).trans hheld⟩
  · apply hI.apart.update
    intro k' hk' t' _
    obtain rfl := Option.some.inj (hpc.symm.trans hk')
    exact hnothread t'
  · exact (Function.forall_update_iff s.pc fun _ => Stage s.pool).mpr
      ⟨hstage,fun t' _ => hI.stage t'⟩

theorem inv_regMr (hI : Inv s) (t lkey addr : ℕ) (ff : Bool)
    (ho : Orderly s (.regMr t lkey addr ff)) (hstep : step s (.regMr t lkey addr ff) = some s') :
    Inv s' := by
  rw [step] at hstep
  split at hstep
  · next hguard =>
    obtain ⟨hidle,hfree⟩ := hguard
    obtain rfl := Option.some.inj hstep
    have hnolive : ∀ m ∈ s.live, m.lkey ≠ lkey := by
      rintro m hm rfl
      rcases hI.live_held m hm with h | ⟨t',ht'⟩
      · rw [hfree] at h
        cases h
      · exact ho t' m ht' rfl
    have hnothread : ∀ t', (s.pc t').lkey ≠ some lkey := by
      intro t' ht'
      rcases Pc.lkey_cases (s.pc t') lkey ht' with ⟨id,hid⟩ | ⟨m,hm,hkey⟩
      · have := (hI.registering t' id lkey hid).1
        rw [hfree] at this
        cases this
      · exact ho t' m hm hkey
    refine hI.of_begin hnothread rfl ?_ ?_ ?_ trivial
    · intro m hm
      rcases hI.live_held m hm with h | h
      · exact Or.inl ((Function.update_of_ne (hnolive m hm) _ _).trans h)
      · exact Or.inr (deregisters_kept (by rw [hidle]; rfl) h)
    · intro id k h
      obtain ⟨rfl,rfl⟩ := Prod.mk.inj (Option.some.inj h)
      exact ⟨Function.update_self _ _ _,hnolive⟩
    · intro m h
      cases h
  · cases hstep

theorem inv_mmap (hI : Inv s) (t : ℕ) (ftruncate : ℤ) (ptr : Option ℕ)
    (ho : Orderly s (.mmap t ftruncate ptr)) (hstep : step s (.mmap t ftruncate ptr) = some s') :
    Inv s' := by
  obtain ⟨hftruncate,hptr⟩ := ho
  obtain ⟨shmPtr,rfl⟩ := Option.ne_none_iff_exists'.mp hptr
  rw [step] at hstep
  split at hstep
  · next id lkey addr ff hpc =>
    obtain rfl := Option.some.inj hstep
    rw [afterMmap,if_neg (by omega)]
    exact hI.of_registering (by rw [hpc]; rfl) (by rw [hpc]; rfl) rfl rfl
      (fun _ _ => ⟨rfl,rfl⟩) trivial
  · cases hstep

theorem inv_deregMr (hI : Inv s) (t : ℕ) (m : Mr) (ret : ℤ) (ho : Orderly s (.deregMr t m ret))
    (hstep : step s (.deregMr t m ret) = some s') : Inv s' := by
  obtain rfl : ret = 0 := ho
  rw [step] at hstep
  split at hstep
  · next hguard =>
    obtain ⟨hidle,hmem,hheld⟩ := hguard
    rw [if_pos rfl] at hstep
    obtain rfl := Option.some.inj hstep
    have hnothread : ∀ t', (s.pc t').lkey ≠ some m.lkey := by
      intro t' ht'
      rcases Pc.lkey_cases (s.pc t') m.lkey ht' with ⟨id,hid⟩ | ⟨m',hm',hkey⟩
      · exact (hI.registering t' id m.lkey hid).2 m hmem rfl
      · have hnone := (hI.deregistering t' m' hm').2
        rw [hkey,hheld] at hnone
        cases hnone
    refine hI.of_begin hnothread rfl ?_ ?_ ?_ rfl
    · intro m' hm'
      by_cases hm : m' = m
      · subst hm
        have hself : Function.update s.pc t (.deregistered m' 0) t = .deregistered m' 0 :=
          Function.update_self _ _ _
        exact Or.inr ⟨t,congrArg Pc.deregisters hself⟩
      · have hkey : m'.lkey ≠ m.lkey := fun h => hm (hI.live_unique m' hm' m hmem h)
        rcases hI.live_held m' hm' with h | h
        · exact Or.inl ((Function.update_of_ne hkey _ _).trans h)
        · exact Or.inr (deregisters_kept (by rw [hidle]; rfl) h)
    · intro id k h
      cases h
    · intro m' h
      obtain rfl := Option.some.inj h
      exact ⟨hmem,Function.update_self _ _ _⟩
  · cases hstep

/-- The record is complete and the registration returns. -/
theorem inv_returned (hI : Inv s) (t p : ℕ) (m : Mr) (hpc : s.pc t = .halfWritten m p) :
    Inv ({s with pool := s.pool.write p ⟨(s.pool.cell p).mr,m.shmPtr⟩,
                 live := m::s.live}.goto t .idle) := by
  have hreg : (s.pc t).registers = some (m.id,m.lkey) := by rw [hpc]; rfl
  obtain ⟨hheld,hnolive⟩ := hI.registering t m.id m.lkey hreg
  have hstage := hI.stage t
  rw [hpc] at hstage
  obtain ⟨hmap,hbase⟩ := hstage
  have hagree := agreeOff_write s.pool m.lkey p ⟨(s.pool.cell p).mr,m.shmPtr⟩ hmap
  constructor
  · intro m' hm'
    rcases List.mem_cons.mp hm' with rfl | hm'
    · show (s.pool.write p _).get m'.lkey = _
      rw [get_write_self s.pool p _ m'.lkey hmap,hbase]
    · exact (hagree m'.lkey (hnolive m' hm')).2.trans (hI.recorded m' hm')
  · intro m₁ hm₁ m₂ hm₂ hkey
    rcases List.mem_cons.mp hm₁ with rfl | hold₁ <;> rcases List.mem_cons.mp hm₂ with rfl | hold₂
    · rfl
    · exact absurd hkey.symm (hnolive m₂ hold₂)
    · exact absurd hkey (hnolive m₁ hold₁)
    · exact hI.live_unique m₁ hold₁ m₂ hold₂ hkey
  · intro m' hm'
    rcases List.mem_cons.mp hm' with rfl | hm'
    · exact Or.inl hheld
    · rcases hI.live_held m' hm' with h | h
      · exact Or.inl h
      · exact Or.inr (deregisters_kept (by rw [hpc]; rfl) h)
  · apply (Function.forall_update_iff s.pc fun _ => Registering _ _).mpr
    constructor
    · intro id k h
      cases h
    · intro t' hne id k h
      obtain ⟨hheld',hlive⟩ := hI.registering t' id k h
      refine ⟨hheld',fun m' hm' => ?_⟩
      rcases List.mem_cons.mp hm' with rfl | hm'
      · rintro rfl
        exact hI.apart.other (Pc.lkey_of_registers hreg) t' hne (Pc.lkey_of_registers h)
      · exact hlive m' hm'
  · apply (Function.forall_update_iff s.pc fun _ => Deregistering _ _).mpr
    constructor
    · intro m' h
      cases h
    · intro t' _ m' h
      obtain ⟨hmem,hnone⟩ := hI.deregistering t' m' h
      exact ⟨List.mem_cons_of_mem m hmem,hnone⟩
  · apply hI.apart.move
    intro k h
    cases h
  · exact hI.stages (Pc.lkey_of_registers hreg) hagree trivial

/-- The record is removed and the deregistration returns 0. -/
theorem inv_removed (hI : Inv s) (t : ℕ) (m : Mr) (v : MrShm) (hpc : s.pc t = .unlinked m 0) :
    Inv ({s with pool := s.pool.del m.lkey v,live := s.live.filter (· ≠ m)}.goto t .idle) := by
  have hdereg : (s.pc t).deregisters = some m := by rw [hpc]; rfl
  obtain ⟨hmem,-⟩ := hI.deregistering t m hdereg
  have hagree := agreeOff_del s.pool m.lkey v
  have hlive : ∀ m' ∈ s.live.filter (· ≠ m), m' ∈ s.live ∧ m' ≠ m ∧ m'.lkey ≠ m.lkey := by
    intro m' hm'
    rw [List.mem_filter,decide_eq_true_iff] at hm'
    exact ⟨hm'.1,hm'.2,fun h => hm'.2 (hI.live_unique m' hm'.1 m hmem h)⟩
  constructor
  · intro m' hm'
    obtain ⟨hm',-,hkey⟩ := hlive m' hm'
    exact (hagree m'.lkey hkey).2.trans (hI.recorded m' hm')
  · intro m₁ hm₁ m₂ hm₂
    exact hI.live_unique m₁ (hlive m₁ hm₁).1 m₂ (hlive m₂ hm₂).1
  · intro m' hm'
    obtain ⟨hm',hne,-⟩ := hlive m' hm'
    rcases hI.live_held m' hm' with h | ⟨t',ht'⟩
    · exact Or.inl h
    · have hother : t' ≠ t := by
        rintro rfl
        exact hne (Option.some.inj (ht'.symm.trans hdereg))
      exact Or.inr ⟨t',(congrArg Pc.deregisters (Function.update_of_ne hother _ _)).trans ht'⟩
  · apply (Function.forall_update_iff s.pc fun _ => Registering _ _).mpr
    constructor
    · intro id k h
      cases h
    · intro t' _ id k h
      obtain ⟨hheld,hnolive⟩ := hI.registering t' id k h
      exact ⟨hheld,fun m' hm' => hnolive m' (hlive m' hm').1⟩
  · apply (Function.forall_update_iff s.pc fun _ => Deregistering _ _).mpr
    constructor
    · intro m' h
      cases h
    · intro t' hne m' h
      obtain ⟨hmem',hnone⟩ := hI.deregistering t' m' h
      refine ⟨List.mem_filter.mpr ⟨hmem',?_⟩,hnone⟩
      rw [decide_eq_true_iff]
      rintro rfl
      exact hI.apart.other (Pc.lkey_of_deregisters hdereg) t' hne (Pc.lkey_of_deregisters h)
  · apply hI.apart.move
    intro k h
    cases h
  · exact hI.stages (Pc.lkey_of_deregisters hdereg) hagree trivial

theorem inv_advance (hI : Inv s) (t : ℕ) (hstep : step s (.advance t) = some s') : Inv s' := by
  rw [step,advance] at hstep
  have hstage := hI.stage t
  cases hpc : s.pc t with
  | idle => simp [hpc] at hstep
  | registered id lkey addr ff => simp [hpc] at hstep
  | mapped m =>
    rw [hpc] at hstep
    obtain rfl := Option.some.inj hstep
    exact hI.of_registering (by rw [hpc]; rfl) (by rw [hpc]; rfl) rfl rfl
      (fun _ _ => ⟨rfl,rfl⟩) trivial
  | announced m =>
    rw [hpc] at hstep
    obtain rfl := Option.some.inj hstep
    exact hI.of_registering (by rw [hpc]; rfl) (by rw [hpc]; rfl) rfl rfl
      (agreeOff_insert s.pool m.lkey) (map_insert_self s.pool m.lkey)
  | inserted m p =>
    rw [hpc] at hstep hstage
    obtain rfl := Option.some.inj hstep
    refine hI.of_registering (by rw [hpc]; rfl) (by rw [hpc]; rfl) rfl rfl
      (agreeOff_write s.pool m.lkey p _ hstage) ⟨hstage,?_⟩
    show (Function.update s.pool.cell p _ p).mr = m.base
    rw [Function.update_self]
  | halfWritten m p =>
    rw [hpc] at hstep
    obtain rfl := Option.some.inj hstep
    exact inv_returned hI t p m hpc
  | deregistered m ret =>
    rw [hpc] at hstep hstage
    obtain rfl := Option.some.inj hstep
    exact hI.of_goto (by rw [hpc]; rfl) (by rw [hpc]; rfl) (by rw [hpc]; rfl) hstage
  | unlinked m ret =>
    rw [hpc] at hstep hstage
    obtain rfl : ret = 0 := hstage
    obtain rfl := Option.some.inj hstep
    exact inv_removed hI t m _ hpc

theorem inv_step (s : State) (e : Event) (s' : State) (hI : Inv s) (ho : Orderly s e)
    (hstep : step s e = some s') : Inv s' := by
  cases e with
  | regMr t lkey addr ff => exact inv_regMr hI t lkey addr ff ho hstep
  | mmap t ftruncate ptr => exact inv_mmap hI t ftruncate ptr ho hstep
  | deregMr t m ret => exact inv_deregMr hI t m ret ho hstep
  | advance t => exact inv_advance hI t hstep

end Steps

theorem inv_started : Inv started := by
  constructor
  · intro m hm
    cases hm
  · intro m hm
    cases hm
  · intro m hm
    cases hm
  · intro t id k h
    cases h
  · intro t m h
    cases h
  · intro t t' k h
    cases h
  · intro t
    trivial

/-- In every orderly run, every MR that was returned and not yet deregistered has
its record. -/
theorem live_mrs_recorded (events : List Event) (u : State)
    (ho : Along step Orderly started events) (hrun : run step started events = some u) :
    Recorded u :=
  (run_invariant step Orderly Inv inv_step started events u inv_started ho hrun).recorded

/-- Thread 0 registers memory under the lkey 5 and deregisters it, thread 1 then
gets the lkey for other memory. -/
def inTurn : List Event :=
  [.regMr 0 5 4096 false,.mmap 0 0 (some 4096),.advance 0,.advance 0,.advance 0,.advance 0,
    .deregMr 0 ⟨0,5,4096,4096⟩ 0,.advance 0,.advance 0,
    .regMr 1 5 8200 true,.mmap 1 (-1) (some 65536),.advance 1,.advance 1,.advance 1,.advance 1]

theorem inTurn_recorded : ∃ u, run step started inTurn = some u ∧
    u.live = [⟨1,5,65536,65536⟩] ∧ Recorded u := by
  have horderly : Along step Orderly started inTurn := by
    refine along_cons _ Orderly _ _ _ _ rfl (fun t m h => by cases h) ?_
    refine along_cons _ Orderly _ _ _ _ rfl ⟨by decide,by simp⟩ ?_
    iterate 4 refine along_cons _ Orderly _ _ _ _ rfl trivial ?_
    refine along_cons _ Orderly _ _ _ _ rfl rfl ?_
    iterate 2 refine along_cons _ Orderly _ _ _ _ rfl trivial ?_
    refine along_cons _ Orderly _ _ _ _ rfl (fun t m h => ?_) ?_
    · by_cases ht : t = 0 <;> simp [State.goto,started,afterMmap,ht,Pc.deregisters] at h
    refine along_cons _ Orderly _ _ _ _ rfl ⟨by decide,by simp⟩ ?_
    iterate 4 refine along_cons _ Orderly _ _ _ _ rfl trivial ?_
    trivial
  exact ⟨_,rfl,rfl,live_mrs_recorded inTurn _ horderly rfl⟩

/-- `mmap` fails, and the registration returns 0. -/
def unmapped : List Event := [.regMr 0 5 4096 false,.mmap 0 0 none]

/-- The router has deregistered the MR and issues the lkey 5 again; the new
record is complete when the old deregistration removes it. -/
def crossed : List Event :=
  [.regMr 0 5 4096 false,.mmap 0 0 (some 4096),.advance 0,.advance 0,.advance 0,.advance 0,
    .deregMr 0 ⟨0,5,4096,4096⟩ 0,.advance 0,
    .regMr 1 5 8192 false,.mmap 1 0 (some 8192),.advance 1,.advance 1,.advance 1,.advance 1,
    .advance 0]

theorem crossed_not_recorded :
    (run step started crossed).map (fun u => (u.live,u.pool.get 5)) =
      some ([⟨1,5,8192,8192⟩],none) ∧
    (run step started unmapped).map (fun u => (u.live,u.pool.get 5)) =
      some ([⟨0,5,4096,mapFailed⟩],none) := by
  decide

end FreeFlow.ClientRegistration
