import FreeFlow.Runs
import FreeFlow.PagedMemory
import Mathlib.Data.List.Pairwise

/-!
# Application memory behind a registration

`ibv_cmd_reg_mr` maps a new shared-memory object for every registration. A
range that begins on a page boundary is mapped in place with `MAP_FIXED`; any
other range gets a mapping at pages the kernel chooses, apart from the
application's. Either way the old bytes are copied into the object. A send
copies every sge whose shared-memory address differs from the application's,
and a poll copies the records of receive completions back.

Object 0 is the private memory of the process. The predicate `app` says which
pages belong to the application; registrations and writes of the application
stay in them, mappings chosen by the kernel stay out of them. Deregistration
unmaps nothing.
-/

set_option autoImplicit false

namespace FreeFlow.RegisteredMemory

open PagedMemory Runs

def pageSize : ℕ := 4*1024

theorem pageSize_pos : 0 < pageSize := by decide

/-- An MR of the client: its lkey, the application's range, the object and
the page of `shm_ptr`. -/
structure Mr where
  lkey : ℕ
  base : ℕ
  length : ℕ
  obj : ℕ
  shmPage : ℕ
  deriving DecidableEq

def Mr.shmPtr (m : Mr) : ℕ := m.shmPage*pageSize

/-- `is_align`. -/
def Mr.Aligned (m : Mr) : Prop := m.base%pageSize = 0

instance (m : Mr) : Decidable m.Aligned := inferInstanceAs (Decidable (_ = _))

/-- The MR was mapped in place over the page. -/
def Mr.Covers (m : Mr) (p : ℕ) : Prop :=
  m.Aligned ∧ m.base/pageSize ≤ p ∧ p < m.base/pageSize+pages pageSize m.length

instance (m : Mr) (p : ℕ) : Decidable (m.Covers p) := inferInstanceAs (Decidable (_ ∧ _))

structure Sge where
  addr : ℕ
  length : ℕ
  lkey : ℕ
  deriving DecidableEq

def Sge.Inside (g : Sge) (m : Mr) : Prop :=
  g.lkey = m.lkey ∧ m.base ≤ g.addr ∧ g.addr+g.length ≤ m.base+m.length

/-- `struct sge_record`. -/
structure SgeRecord where
  length : ℕ
  mrAddr : ℕ
  shmAddr : ℕ

structure Wc where
  opcode : ℕ
  records : List SgeRecord

/-- `IBV_WC_RECV`. -/
def wcRecv : ℕ := 2^7

structure Client where
  space : Space ℕ UInt8
  fresh : ℕ
  lib : ℕ → Bool
  regs : List Mr
  live : List Mr

def started (data : ℕ → ℕ → UInt8) : Client := ⟨⟨fun p => ⟨0,p⟩,data⟩,1,fun _ => false,[],[]⟩

/-- The MR of a registration; `page` is what the kernel chose for a range
off the page boundary. -/
def newMr (s : Client) (lkey base length page : ℕ) : Mr :=
  ⟨lkey,base,length,s.fresh,if base%pageSize = 0 then base/pageSize else page⟩

/-- `mmap` of the new object and the copy of the old bytes into it. -/
def mapMr (space : Space ℕ UInt8) (m : Mr) : Space ℕ UInt8 :=
  let created := {space with data := Function.update space.data m.obj fun _ => 0}
  (created.mapFixed m.shmPage (pages pageSize m.length) m.obj).store pageSize m.shmPtr m.length
    fun i => space.read pageSize (m.base+i)

def ibvCmdRegMr (s : Client) (lkey base length page : ℕ) : Client :=
  let m := newMr s lkey base length page
  { space := mapMr s.space m
    fresh := s.fresh+1
    lib := fun p => s.lib p || (base%pageSize ≠ 0 ∧ page ≤ p ∧ p < page+pages pageSize length)
    regs := m::s.regs
    live := m::s.live }

/-- The copy of one sge in `ibv_cmd_post_send`. -/
def copySge (live : List Mr) (space : Space ℕ UInt8) (g : Sge) : Space ℕ UInt8 :=
  match live.find? fun m => m.lkey = g.lkey with
  | some m =>
    if m.shmPtr+(g.addr-m.base) ≠ g.addr then
      space.memcpy pageSize (m.shmPtr+(g.addr-m.base)) g.addr g.length
    else space
  | none => space

def ibvCmdPostSend (live : List Mr) (space : Space ℕ UInt8) (sges : List Sge) : Space ℕ UInt8 :=
  sges.foldl (copySge live) space

/-- The copy of one record in `ibv_cmd_poll_cq`. -/
def copyRecord (space : Space ℕ UInt8) (r : SgeRecord) : Space ℕ UInt8 :=
  if r.mrAddr ≠ r.shmAddr then space.memcpy pageSize r.mrAddr r.shmAddr r.length else space

/-- Only receive completions are copied. -/
def copyWc (space : Space ℕ UInt8) (wc : Wc) : Space ℕ UInt8 :=
  if wc.opcode&&&wcRecv ≠ 0 then wc.records.foldl copyRecord space else space

def ibvCmdPollCq (space : Space ℕ UInt8) (wcs : List Wc) : Space ℕ UInt8 :=
  wcs.foldl copyWc space

inductive Event
  | regMr (lkey base length page : ℕ)
  | deregMr (m : Mr)
  | appWrite (a : ℕ) (b : UInt8)
  | nicWrite (m : Mr) (off : ℕ) (b : UInt8)
  | postSend (sges : List Sge)
  | pollCq (wcs : List Wc)

variable (app : ℕ → Bool)

/-- A registration that succeeds: a range of the application, an lkey not in
use and, off the page boundary, pages nobody uses. -/
structure Registers (s : Client) (lkey base length page : ℕ) : Prop where
  pos : 0 < length
  range : ∀ x < length, app ((base+x)/pageSize) = true
  key : ∀ m ∈ s.live, m.lkey ≠ lkey
  free : base%pageSize ≠ 0 → ∀ i < pages pageSize length,
    app (page+i) = false ∧ s.lib (page+i) = false

instance (s : Client) (lkey base length page : ℕ) :
    Decidable (Registers app s lkey base length page) :=
  decidable_of_iff (0 < length ∧ (∀ x < length, app ((base+x)/pageSize) = true) ∧
    (∀ m ∈ s.live, m.lkey ≠ lkey) ∧ (base%pageSize ≠ 0 → ∀ i < pages pageSize length,
      app (page+i) = false ∧ s.lib (page+i) = false))
    ⟨fun ⟨h1,h2,h3,h4⟩ => ⟨h1,h2,h3,h4⟩,fun h => ⟨h.pos,h.range,h.key,h.free⟩⟩

def step (s : Client) : Event → Option Client
  | .regMr lkey base length page =>
    if Registers app s lkey base length page then some (ibvCmdRegMr s lkey base length page)
    else none
  | .deregMr m => some {s with live := s.live.erase m}
  | .appWrite a b =>
    if app (a/pageSize) then some {s with space := s.space.write pageSize a b} else none
  | .nicWrite m off b =>
    if m ∈ s.live ∧ off < m.length then
      some {s with space := {s.space with
        data := Function.update s.space.data m.obj (Function.update (s.space.data m.obj) off b)}}
    else none
  | .postSend sges => some {s with space := ibvCmdPostSend s.live s.space sges}
  | .pollCq wcs => some {s with space := ibvCmdPollCq s.space wcs}

/-- The last registration mapped in place over a page. -/
def owner (regs : List Mr) (p : ℕ) : Option Mr := regs.find? fun r => r.Covers p

def frameOf (regs : List Mr) (p : ℕ) : Frame ℕ :=
  match owner regs p with
  | some r => ⟨r.obj,p-r.base/pageSize⟩
  | none => ⟨0,p⟩

theorem owner_spec (regs : List Mr) (p : ℕ) (r : Mr) (h : owner regs p = some r) :
    r ∈ regs ∧ r.Covers p :=
  ⟨List.mem_of_find?_eq_some h,by simpa using List.find?_some h⟩

structure Inv (s : Client) : Prop where
  pos : 0 < s.fresh
  objs : ∀ r ∈ s.regs, 0 < r.obj ∧ r.obj < s.fresh
  distinct : ∀ r ∈ s.regs, ∀ r' ∈ s.regs, r.obj = r'.obj → r = r'
  sub : ∀ m ∈ s.live, m ∈ s.regs
  keys : ∀ m ∈ s.live, ∀ m' ∈ s.live, m.lkey = m'.lkey → m = m'
  range : ∀ r ∈ s.regs, ∀ x < r.length, app ((r.base+x)/pageSize) = true
  inPlace : ∀ r ∈ s.regs, r.Aligned → r.shmPtr = r.base
  appTable : ∀ p, app p = true → s.space.table p = frameOf s.regs p
  shadow : ∀ r ∈ s.regs, ¬r.Aligned → s.space.Shows pageSize r.shmPage r.length r.obj ∧
    ∀ x < r.length, app (r.shmPage+x/pageSize) = false ∧ s.lib (r.shmPage+x/pageSize) = true

variable {app}

/-- The invariant speaks of the page table, not of the bytes. -/
theorem Inv.of_table {s t : Client} (h : Inv app s) (htable : t.space.table = s.space.table)
    (hfresh : t.fresh = s.fresh) (hlib : t.lib = s.lib) (hregs : t.regs = s.regs)
    (hlive : ∀ m ∈ t.live, m ∈ s.live) : Inv app t where
  pos := hfresh ▸ h.pos
  objs := by simpa only [hregs,hfresh] using h.objs
  distinct := by simpa only [hregs] using h.distinct
  sub m hm := by simpa only [hregs] using h.sub m (hlive m hm)
  keys m hm m' hm' := h.keys m (hlive m hm) m' (hlive m' hm')
  range := by simpa only [hregs] using h.range
  inPlace := by simpa only [hregs] using h.inPlace
  appTable := by simpa only [hregs,htable] using h.appTable
  shadow := by simpa only [hregs,Space.Shows,htable,hlib] using h.shadow

theorem inv_started (data : ℕ → ℕ → UInt8) : Inv app (started data) :=
  ⟨by simp [started],by simp [started],by simp [started],by simp [started],by simp [started],
    by simp [started],by simp [started],fun _ _ => rfl,by simp [started]⟩

theorem mapMr_table (space : Space ℕ UInt8) (m : Mr) : (mapMr space m).table =
    (space.mapFixed m.shmPage (pages pageSize m.length) m.obj).table := by
  rw [mapMr,store_table]
  rfl

theorem newMr_inPlace (s : Client) (lkey base length page : ℕ)
    (h : (newMr s lkey base length page).Aligned) :
    (newMr s lkey base length page).shmPage = base/pageSize ∧ base/pageSize*pageSize = base := by
  have hmod : base%pageSize = 0 := h
  refine ⟨by simp [newMr,hmod],?_⟩
  have hdiv := Nat.div_add_mod' base pageSize
  omega

theorem Registers.app_page {s : Client} {lkey base length page : ℕ}
    (h : Registers app s lkey base length page) (p : ℕ)
    (hlo : base/pageSize ≤ p) (hhi : p < base/pageSize+pages pageSize length) :
    app p = true := by
  have hlt := mul_lt_of_lt_pages pageSize length (p-base/pageSize) (by omega)
  have hpage := h.range _ hlt
  have hdiv : (base+(p-base/pageSize)*pageSize)/pageSize = p := by
    rw [Nat.add_mul_div_right _ _ pageSize_pos]
    omega
  rwa [hdiv] at hpage

theorem inv_regMr_appTable (s : Client) (hI : Inv app s) (lkey base length page : ℕ)
    (h : Registers app s lkey base length page) (p : ℕ) (hp : app p = true) :
    (mapMr s.space (newMr s lkey base length page)).table p =
      frameOf (newMr s lkey base length page::s.regs) p := by
  rw [mapMr_table]
  by_cases hcov : (newMr s lkey base length page).Covers p
  · have hown : owner (newMr s lkey base length page::s.regs) p =
        some (newMr s lkey base length page) := by simp [owner,hcov]
    obtain ⟨hal,hlo,hhi⟩ := hcov
    rw [frameOf,hown,(newMr_inPlace s lkey base length page hal).1]
    exact if_pos ⟨hlo,hhi⟩
  · have hown : owner (newMr s lkey base length page::s.regs) p = owner s.regs p := by
      simp [owner,hcov]
    rw [frameOf,hown,mapFixed_table_of_not,hI.appTable p hp,frameOf]
    intro hin
    by_cases hmod : base%pageSize = 0
    · rw [(newMr_inPlace s lkey base length page hmod).1] at hin
      exact hcov ⟨hmod,hin⟩
    · have hpage : (newMr s lkey base length page).shmPage = page := by simp [newMr,hmod]
      rw [hpage] at hin
      have hlt : p-page < pages pageSize length := by
        simpa [newMr] using Nat.sub_lt_left_of_lt_add hin.1 hin.2
      have hfree := (h.free hmod (p-page) hlt).1
      rw [Nat.add_sub_cancel' hin.1,hp] at hfree
      exact absurd hfree (by decide)

/-- A new mapping spares the mappings the kernel chose for earlier ranges. -/
theorem inv_regMr_spares (s : Client) (hI : Inv app s) (lkey base length page : ℕ)
    (h : Registers app s lkey base length page) (r : Mr) (hr : r ∈ s.regs) (hal : ¬r.Aligned) :
    (mapMr s.space (newMr s lkey base length page)).Shows pageSize r.shmPage r.length r.obj := by
  intro x hx
  obtain ⟨hshow,hpages⟩ := hI.shadow r hr hal
  rw [mapMr_table,mapFixed_table_of_not,hshow x hx]
  intro hin
  by_cases hmod : base%pageSize = 0
  · rw [(newMr_inPlace s lkey base length page hmod).1] at hin
    have happ := h.app_page _ hin.1 hin.2
    rw [(hpages x hx).1] at happ
    exact absurd happ (by decide)
  · have hpage : (newMr s lkey base length page).shmPage = page := by simp [newMr,hmod]
    rw [hpage] at hin
    have hfree := (h.free hmod _ (Nat.sub_lt_left_of_lt_add hin.1 hin.2)).2
    rw [Nat.add_sub_cancel' hin.1,(hpages x hx).2] at hfree
    exact absurd hfree (by decide)

theorem inv_regMr (s : Client) (hI : Inv app s) (lkey base length page : ℕ)
    (h : Registers app s lkey base length page) :
    Inv app (ibvCmdRegMr s lkey base length page) where
  pos := Nat.succ_pos _
  objs := by
    intro r hr
    rcases List.mem_cons.mp hr with rfl | hr
    · exact ⟨hI.pos,Nat.lt_succ_self _⟩
    · exact ⟨(hI.objs r hr).1,Nat.lt_succ_of_lt (hI.objs r hr).2⟩
  distinct := by
    intro r hr r' hr' heq
    rcases List.mem_cons.mp hr with rfl | hr <;> rcases List.mem_cons.mp hr' with rfl | hr'
    · rfl
    · exact absurd (hI.objs r' hr').2 (by rw [← heq]; exact Nat.lt_irrefl _)
    · exact absurd (hI.objs r hr).2 (by rw [heq]; exact Nat.lt_irrefl _)
    · exact hI.distinct r hr r' hr' heq
  sub := by
    intro m hm
    rcases List.mem_cons.mp hm with rfl | hm
    · exact List.mem_cons_self
    · exact List.mem_cons_of_mem _ (hI.sub m hm)
  keys := by
    intro m hm m' hm' heq
    rcases List.mem_cons.mp hm with rfl | hm <;> rcases List.mem_cons.mp hm' with rfl | hm'
    · rfl
    · exact absurd heq.symm (h.key m' hm')
    · exact absurd heq (h.key m hm)
    · exact hI.keys m hm m' hm' heq
  range := by
    intro r hr x hx
    rcases List.mem_cons.mp hr with rfl | hr
    · exact h.range x hx
    · exact hI.range r hr x hx
  inPlace := by
    intro r hr hal
    rcases List.mem_cons.mp hr with rfl | hr
    · obtain ⟨hpage,hbase⟩ := newMr_inPlace s lkey base length page hal
      rw [Mr.shmPtr,hpage]
      exact hbase
    · exact hI.inPlace r hr hal
  appTable := inv_regMr_appTable s hI lkey base length page h
  shadow := by
    intro r hr hal
    rcases List.mem_cons.mp hr with rfl | hr
    · have hmod : base%pageSize ≠ 0 := hal
      have hpage : (newMr s lkey base length page).shmPage = page := by simp [newMr,hmod]
      constructor
      · intro x hx
        exact (congrFun (mapMr_table _ _) _).trans
          (mapFixed_shows pageSize pageSize_pos _ _ _ _ x hx)
      · intro x hx
        have hlt := div_lt_pages pageSize pageSize_pos length x hx
        rw [hpage]
        exact ⟨(h.free hmod _ hlt).1,by simp [ibvCmdRegMr,hmod,hlt]⟩
    · obtain ⟨-,hpages⟩ := hI.shadow r hr hal
      refine ⟨inv_regMr_spares s hI lkey base length page h r hr hal,fun x hx => ?_⟩
      exact ⟨(hpages x hx).1,by simp [ibvCmdRegMr,(hpages x hx).2]⟩

theorem memcpy_table (space : Space ℕ UInt8) (dst src n : ℕ) :
    (space.memcpy pageSize dst src n).table = space.table := store_table ..

theorem copySge_table (live : List Mr) (space : Space ℕ UInt8) (g : Sge) :
    (copySge live space g).table = space.table := by
  unfold copySge
  split
  · split
    · exact memcpy_table ..
    · rfl
  · rfl

theorem ibvCmdPostSend_table (live : List Mr) (space : Space ℕ UInt8) (sges : List Sge) :
    (ibvCmdPostSend live space sges).table = space.table := by
  induction sges generalizing space with
  | nil => rfl
  | cons g sges ih => exact (ih _).trans (copySge_table live space g)

theorem copyRecord_table (space : Space ℕ UInt8) (r : SgeRecord) :
    (copyRecord space r).table = space.table := by
  unfold copyRecord
  split
  · exact memcpy_table ..
  · rfl

theorem copyRecords_table (space : Space ℕ UInt8) (rs : List SgeRecord) :
    (rs.foldl copyRecord space).table = space.table := by
  induction rs generalizing space with
  | nil => rfl
  | cons r rs ih => exact (ih _).trans (copyRecord_table space r)

theorem ibvCmdPollCq_table (space : Space ℕ UInt8) (wcs : List Wc) :
    (ibvCmdPollCq space wcs).table = space.table := by
  induction wcs generalizing space with
  | nil => rfl
  | cons wc wcs ih =>
    refine (ih _).trans ?_
    unfold copyWc
    split
    · exact copyRecords_table space wc.records
    · rfl

theorem inv_step (s : Client) (e : Event) (t : Client) (hI : Inv app s)
    (ht : step app s e = some t) : Inv app t := by
  cases e with
  | regMr lkey base length page =>
    simp only [step,Option.ite_none_right_eq_some,Option.some.injEq] at ht
    obtain ⟨h,rfl⟩ := ht
    exact inv_regMr s hI lkey base length page h
  | deregMr m =>
    obtain rfl := Option.some.inj ht
    exact hI.of_table rfl rfl rfl rfl fun m' hm => List.mem_of_mem_erase hm
  | appWrite a b =>
    simp only [step,Option.ite_none_right_eq_some,Option.some.injEq] at ht
    obtain ⟨-,rfl⟩ := ht
    exact hI.of_table rfl rfl rfl rfl fun m' hm => hm
  | nicWrite m off b =>
    simp only [step,Option.ite_none_right_eq_some,Option.some.injEq] at ht
    obtain ⟨-,rfl⟩ := ht
    exact hI.of_table rfl rfl rfl rfl fun m' hm => hm
  | postSend sges =>
    obtain rfl := Option.some.inj ht
    exact hI.of_table (ibvCmdPostSend_table ..) rfl rfl rfl fun m' hm => hm
  | pollCq wcs =>
    obtain rfl := Option.some.inj ht
    exact hI.of_table (ibvCmdPollCq_table ..) rfl rfl rfl fun m' hm => hm

theorem inv_of_run (data : ℕ → ℕ → UInt8) (events : List Event) (s : Client)
    (h : run (step app) (started data) events = some s) : Inv app s :=
  run_preserves (step app) (Inv app) inv_step (started data) events s (inv_started data) h

theorem Mr.Aligned.base_eq {m : Mr} (h : m.Aligned) : m.base/pageSize*pageSize = m.base := by
  have hdiv := Nat.div_add_mod' m.base pageSize
  have hmod : m.base%pageSize = 0 := h
  omega

theorem Mr.Covers.base_le {m : Mr} {a : ℕ} (h : m.Covers (a/pageSize)) : m.base ≤ a := by
  have hle := Nat.mul_le_mul_right pageSize h.2.1
  rw [h.1.base_eq] at hle
  exact hle.trans (Nat.div_mul_le_self a pageSize)

section Pages

variable {s : Client} {t : Space ℕ UInt8}

/-- A page mapped in place by its last registration shows that object. -/
theorem app_loc_owner (hI : Inv app s) (ht : t.table = s.space.table) (a : ℕ)
    (ha : app (a/pageSize) = true) (m : Mr) (hm : owner s.regs (a/pageSize) = some m) :
    t.loc pageSize a = (m.obj,a-m.base) := by
  obtain ⟨hreg,hal,hlo,-⟩ := owner_spec s.regs _ m hm
  have hframe : t.table (a/pageSize) = ⟨m.obj,a/pageSize-m.base/pageSize⟩ := by
    rw [ht,hI.appTable _ ha,frameOf,hm]
  have hbase := hal.base_eq
  have hoff : (a/pageSize-m.base/pageSize)*pageSize+a%pageSize = a-m.base := by
    have hdiv := Nat.div_add_mod' a pageSize
    have hle := Nat.mul_le_mul_right pageSize hlo
    rw [Nat.sub_mul,hbase]
    omega
  simp only [Space.loc,hframe,hoff]

/-- A page shows no object but that of its last registration. -/
theorem app_loc_other (hI : Inv app s) (ht : t.table = s.space.table) (a : ℕ)
    (ha : app (a/pageSize) = true) (m : Mr) (hreg : m ∈ s.regs)
    (hm : owner s.regs (a/pageSize) ≠ some m) : (t.loc pageSize a).1 ≠ m.obj := by
  have hobj : (t.loc pageSize a).1 = (frameOf s.regs (a/pageSize)).obj := by
    rw [← hI.appTable _ ha,← ht]
    rfl
  rw [hobj,frameOf]
  cases hown : owner s.regs (a/pageSize) with
  | none => exact fun h => absurd (hI.objs m hreg).1 (by rw [← h]; exact Nat.lt_irrefl 0)
  | some r =>
    intro h
    obtain rfl := hI.distinct r (owner_spec s.regs _ r hown).1 m hreg h
    exact hm hown

theorem app_loc_unaligned (hI : Inv app s) (ht : t.table = s.space.table) (a : ℕ)
    (ha : app (a/pageSize) = true) (m : Mr) (hreg : m ∈ s.regs) (hal : ¬m.Aligned) :
    (t.loc pageSize a).1 ≠ m.obj :=
  app_loc_other hI ht a ha m hreg fun h => hal (owner_spec s.regs _ m h).2.1

theorem app_loc_private (hI : Inv app s) (ht : t.table = s.space.table) (a : ℕ)
    (ha : app (a/pageSize) = true) (hnone : owner s.regs (a/pageSize) = none) :
    t.loc pageSize a = (0,a) := by
  have hframe : t.table (a/pageSize) = ⟨0,a/pageSize⟩ := by
    rw [ht,hI.appTable _ ha,frameOf,hnone]
  simp only [Space.loc,hframe,Nat.div_add_mod']

/-- No two addresses of the application show the same byte. -/
theorem app_loc_injective (hI : Inv app s) (ht : t.table = s.space.table) (a b : ℕ)
    (ha : app (a/pageSize) = true) (hb : app (b/pageSize) = true)
    (h : t.loc pageSize a = t.loc pageSize b) : a = b := by
  cases hown : owner s.regs (a/pageSize) with
  | some m =>
    obtain ⟨hreg,hcov⟩ := owner_spec s.regs _ m hown
    have hloc := app_loc_owner hI ht a ha m hown
    have hown' : owner s.regs (b/pageSize) = some m := by
      by_contra hne
      apply app_loc_other hI ht b hb m hreg hne
      rw [← h,hloc]
    have hle := hcov.base_le
    have hle' := (owner_spec s.regs _ m hown').2.base_le
    rw [hloc,app_loc_owner hI ht b hb m hown',Prod.mk.injEq] at h
    omega
  | none =>
    have hloc := app_loc_private hI ht a ha hown
    cases hown' : owner s.regs (b/pageSize) with
    | some m =>
      rw [hloc,app_loc_owner hI ht b hb m hown',Prod.mk.injEq] at h
      have hpos := (hI.objs m (owner_spec s.regs _ m hown').1).1
      omega
    | none =>
      rw [hloc,app_loc_private hI ht b hb hown',Prod.mk.injEq] at h
      exact h.2

theorem find_live (hI : Inv app s) (m : Mr) (hm : m ∈ s.live) (lkey : ℕ)
    (hkey : lkey = m.lkey) : (s.live.find? fun m => m.lkey = lkey) = some m := by
  cases hfind : s.live.find? fun m => m.lkey = lkey with
  | none => simpa [hkey] using List.find?_eq_none.mp hfind m hm
  | some r =>
    have hr : r.lkey = lkey := by simpa using List.find?_some hfind
    rw [hI.keys r (List.mem_of_find?_eq_some hfind) m hm (hr.trans hkey)]

theorem app_range (hI : Inv app s) (m : Mr) (hm : m ∈ s.live) (x : ℕ) (hx : x < m.length) :
    app ((m.base+x)/pageSize) = true := hI.range m (hI.sub m hm) x hx

/-- The copy of an sge fills its bytes in the object of an MR off the page
boundary and leaves every other byte alone. -/
theorem copySge_data (hI : Inv app s) (ht : t.table = s.space.table) (g : Sge) (m : Mr)
    (hm : m ∈ s.live) (hg : g.Inside m) (o x : ℕ) :
    (copySge s.live t g).data o x =
      if ¬m.Aligned ∧ o = m.obj ∧ g.addr-m.base ≤ x ∧ x < g.addr-m.base+g.length then
        t.read pageSize (m.base+x)
      else t.data o x := by
  obtain ⟨hkey,hlo,hhi⟩ := hg
  have hreg := hI.sub m hm
  rw [copySge,find_live hI m hm g.lkey hkey]
  dsimp only
  by_cases hal : m.Aligned
  · have hsame : m.shmPtr+(g.addr-m.base) = g.addr := by rw [hI.inPlace m hreg hal]; omega
    simp [hsame,hal]
  · obtain ⟨hshow,hpages⟩ := hI.shadow m hreg hal
    have hshow' : t.Shows pageSize m.shmPage m.length m.obj := by
      simpa only [Space.Shows,ht] using hshow
    have hloc : ∀ i < g.length, t.loc pageSize (m.shmPtr+(g.addr-m.base)+i) =
        (m.obj,g.addr-m.base+i) := by
      intro i hi
      rw [Mr.shmPtr,Nat.add_assoc]
      exact hshow'.loc pageSize_pos _ (by omega)
    -- the copy is skipped where source and target are one address, here only for an empty sge
    by_cases hdst : m.shmPtr+(g.addr-m.base) = g.addr
    · have hzero : g.length = 0 := by
        by_contra hpos
        have happ := app_range hI m hm (g.addr-m.base) (by omega)
        rw [Nat.add_sub_cancel' hlo,← hdst,Mr.shmPtr,Nat.mul_comm,
          Nat.mul_add_div pageSize_pos,(hpages (g.addr-m.base) (by omega)).1] at happ
        exact absurd happ (by decide)
      have hout : ¬(¬m.Aligned ∧ o = m.obj ∧ g.addr-m.base ≤ x ∧ x < g.addr-m.base+g.length) := by
        rintro ⟨-,-,hge,hlt⟩
        omega
      rw [if_neg hout,if_neg (not_not.mpr hdst)]
    · rw [if_pos (show _ ≠ _ from hdst),Space.memcpy,store_data pageSize t _ _ _ m.obj _ hloc]
      by_cases hin : o = m.obj ∧ g.addr-m.base ≤ x ∧ x < g.addr-m.base+g.length
      · have haddr : g.addr+(x-(g.addr-m.base)) = m.base+x := by omega
        rw [if_pos hin,if_pos ⟨hal,hin⟩,haddr]
      · rw [if_neg hin,if_neg fun h => hin h.2]

theorem copySge_read_app (hI : Inv app s) (ht : t.table = s.space.table) (g : Sge) (m : Mr)
    (hm : m ∈ s.live) (hg : g.Inside m) (a : ℕ) (ha : app (a/pageSize) = true) :
    (copySge s.live t g).read pageSize a = t.read pageSize a := by
  rw [Space.read,loc_congr pageSize t _ (copySge_table s.live t g),copySge_data hI ht g m hm hg,
    if_neg]
  · rfl
  · rintro ⟨hal,hobj,-⟩
    exact app_loc_unaligned hI ht a ha m (hI.sub m hm) hal hobj

def Synced (t : Space ℕ UInt8) (m : Mr) (lo hi : ℕ) : Prop :=
  ∀ x, lo ≤ x → x < hi → t.data m.obj x = t.read pageSize (m.base+x)

theorem synced_copySge (hI : Inv app s) (ht : t.table = s.space.table) (g : Sge) (m : Mr)
    (hm : m ∈ s.live) (hg : g.Inside m) (m' : Mr) (hm' : m' ∈ s.live) (lo hi : ℕ)
    (hlen : hi ≤ m'.length) (hsync : Synced t m' lo hi) :
    Synced (copySge s.live t g) m' lo hi := by
  intro x hlo hhi
  rw [copySge_data hI ht g m hm hg,
    copySge_read_app hI ht g m hm hg _ (app_range hI m' hm' x (by omega))]
  split
  · next h =>
    obtain rfl := hI.distinct m' (hI.sub m' hm') m (hI.sub m hm) h.2.1
    rfl
  · exact hsync x hlo hhi

theorem synced_self (hI : Inv app s) (ht : t.table = s.space.table) (g : Sge) (m : Mr)
    (hm : m ∈ s.live) (hg : g.Inside m) (hal : ¬m.Aligned) :
    Synced (copySge s.live t g) m (g.addr-m.base) (g.addr-m.base+g.length) := by
  intro x hlo hhi
  have hx : x < m.length := by
    have := hg.2.1
    have := hg.2.2
    omega
  rw [copySge_data hI ht g m hm hg,if_pos ⟨hal,rfl,hlo,hhi⟩,
    copySge_read_app hI ht g m hm hg _ (app_range hI m hm x hx)]

def AllInside (live : List Mr) (sges : List Sge) : Prop := ∀ g ∈ sges, ∃ m ∈ live, g.Inside m

theorem synced_post (hI : Inv app s) (sges : List Sge) (hin : AllInside s.live sges)
    (t : Space ℕ UInt8) (ht : t.table = s.space.table) (m : Mr) (hm : m ∈ s.live) (lo hi : ℕ)
    (hlen : hi ≤ m.length) (hsync : Synced t m lo hi) :
    Synced (ibvCmdPostSend s.live t sges) m lo hi := by
  induction sges generalizing t with
  | nil => exact hsync
  | cons g sges ih =>
    obtain ⟨m',hm',hg⟩ := hin g List.mem_cons_self
    exact ih (fun g hg => hin g (List.mem_cons_of_mem _ hg)) _
      ((copySge_table s.live t g).trans ht)
      (synced_copySge hI ht g m' hm' hg m hm lo hi hlen hsync)

theorem post_synced (hI : Inv app s) (sges : List Sge) (hin : AllInside s.live sges)
    (t : Space ℕ UInt8) (ht : t.table = s.space.table) (g : Sge) (hg : g ∈ sges) (m : Mr)
    (hm : m ∈ s.live) (hgm : g.Inside m) (hal : ¬m.Aligned) :
    Synced (ibvCmdPostSend s.live t sges) m (g.addr-m.base) (g.addr-m.base+g.length) := by
  induction sges generalizing t with
  | nil => simp at hg
  | cons g' sges ih =>
    have hin' : AllInside s.live sges := fun g hg => hin g (List.mem_cons_of_mem _ hg)
    have ht' := (copySge_table s.live t g').trans ht
    rcases List.mem_cons.mp hg with rfl | hg
    · have hlen : g.addr-m.base+g.length ≤ m.length := by
        have := hgm.2.1
        have := hgm.2.2
        omega
      exact synced_post hI sges hin' _ ht' m hm _ _ hlen (synced_self hI ht g m hm hgm hal)
    · exact ih hin' _ ht' hg

/-- A request changes no object mapped in place and no byte the application
reads. -/
theorem post_frame (hI : Inv app s) (sges : List Sge) (hin : AllInside s.live sges)
    (t : Space ℕ UInt8) (ht : t.table = s.space.table) :
    (∀ m ∈ s.regs, m.Aligned → ∀ x,
      (ibvCmdPostSend s.live t sges).data m.obj x = t.data m.obj x) ∧
    ∀ a, app (a/pageSize) = true →
      (ibvCmdPostSend s.live t sges).read pageSize a = t.read pageSize a := by
  induction sges generalizing t with
  | nil => exact ⟨fun _ _ _ _ => rfl,fun _ _ => rfl⟩
  | cons g sges ih =>
    obtain ⟨m',hm',hg⟩ := hin g List.mem_cons_self
    obtain ⟨hdata,hread⟩ := ih (fun g hg => hin g (List.mem_cons_of_mem _ hg))
      (copySge s.live t g) ((copySge_table s.live t g).trans ht)
    constructor
    · intro m hm hal x
      refine (hdata m hm hal x).trans ?_
      rw [copySge_data hI ht g m' hm' hg,if_neg]
      rintro ⟨hal',hobj,-⟩
      exact hal' (hI.distinct m hm m' (hI.sub m' hm') hobj ▸ hal)
    · intro a ha
      exact (hread a ha).trans (copySge_read_app hI ht g m' hm' hg a ha)

end Pages

theorem succ_byte_ne (b : UInt8) : b+1 ≠ b := by
  intro h
  have hnat := congrArg UInt8.toNat h
  rw [UInt8.toNat_add] at hnat
  have hone : (1 : UInt8).toNat = 1 := rfl
  have hlt := b.toNat_lt
  omega

def appWrites (space : Space ℕ UInt8) (writes : List (ℕ × UInt8)) : Space ℕ UInt8 :=
  writes.foldl (fun t w => t.write pageSize w.1 w.2) space

theorem appWrites_table (space : Space ℕ UInt8) (writes : List (ℕ × UInt8)) :
    (appWrites space writes).table = space.table := by
  induction writes generalizing space with
  | nil => rfl
  | cons w writes ih => exact ih _

/-- The objects hold the bytes of the application. -/
def Posted (live : List Mr) (t : Space ℕ UInt8) (sges : List Sge) : Prop :=
  ∀ g ∈ sges, ∀ m ∈ live, g.Inside m → ∀ i < g.length,
    t.data m.obj (g.addr-m.base+i) = t.read pageSize (g.addr+i)

/-- The last registration mapped in place over the pages of an sge of an MR
mapped in place is that MR. -/
def Owned (s : Client) (sges : List Sge) : Prop :=
  ∀ g ∈ sges, ∀ m ∈ s.live, g.Inside m → m.Aligned → ∀ i < g.length,
    owner s.regs ((g.addr+i)/pageSize) = some m

theorem posted_of_owned (s : Client) (hI : Inv app s) (sges : List Sge)
    (hin : AllInside s.live sges) (howned : Owned s sges) (t : Space ℕ UInt8)
    (ht : t.table = s.space.table) :
    Posted s.live (ibvCmdPostSend s.live t sges) sges := by
  intro g hg m hm hgm i hi
  have haddr : m.base+(g.addr-m.base+i) = g.addr+i := by
    have := hgm.2.1
    omega
  by_cases hal : m.Aligned
  · have happ := app_range hI m hm (g.addr-m.base+i) (by have := hgm.2.1; have := hgm.2.2; omega)
    rw [haddr] at happ
    have hloc := app_loc_owner hI ((ibvCmdPostSend_table s.live t sges).trans ht) _ happ m
      (howned g hg m hm hgm hal i hi)
    rw [Space.read,hloc,← haddr,Nat.add_sub_cancel_left]
  · rw [post_synced hI sges hin t ht g hg m hm hgm hal _ (Nat.le_add_right _ _) (by omega),haddr]

/-- For every sequence of registrations, deregistrations, transfers and
writes, the objects hold the bytes of the application when a request is
handed over, whatever the application wrote last, exactly when no MR mapped
in place has lost a page of the request to a later registration. -/
theorem posted_iff_owned (data : ℕ → ℕ → UInt8) (events : List Event) (s : Client)
    (hrun : run (step app) (started data) events = some s) (sges : List Sge)
    (hin : AllInside s.live sges) :
    (∀ writes : List (ℕ × UInt8), (∀ w ∈ writes, app (w.1/pageSize) = true) →
      Posted s.live (ibvCmdPostSend s.live (appWrites s.space writes) sges) sges) ↔
    Owned s sges := by
  have hI := inv_of_run data events s hrun
  constructor
  · intro hposted g hg m hm hgm hal i hi
    by_contra hne
    have hreg := hI.sub m hm
    have haddr : m.base+(g.addr-m.base+i) = g.addr+i := by
      have := hgm.2.1
      omega
    have happ := app_range hI m hm (g.addr-m.base+i) (by have := hgm.2.1; have := hgm.2.2; omega)
    rw [haddr] at happ
    -- The byte is written with a value it did not have; the object keeps the old one.
    let b := s.space.read pageSize (g.addr+i)+1
    have hold := hposted [] (by simp) g hg m hm hgm i hi
    have hnew := hposted [(g.addr+i,b)] (by simpa using happ) g hg m hm hgm i hi
    obtain ⟨hdata,hread⟩ := post_frame hI sges hin (appWrites s.space []) rfl
    obtain ⟨hdata',hread'⟩ := post_frame hI sges hin (appWrites s.space [(g.addr+i,b)]) rfl
    rw [hdata m hreg hal,hread _ happ] at hold
    rw [hdata' m hreg hal,hread' _ happ] at hnew
    have hother := app_loc_other hI rfl (g.addr+i) happ m hreg hne
    have hkept : (s.space.write pageSize (g.addr+i) b).data m.obj (g.addr-m.base+i) =
        s.space.data m.obj (g.addr-m.base+i) := by
      rw [write_data,if_neg fun h => hother (congrArg Prod.fst h).symm]
    have hbyte : b = s.space.read pageSize (g.addr+i) :=
      (write_read pageSize s.space (g.addr+i) b).symm.trans (hnew.symm.trans (hkept.trans hold))
    exact succ_byte_ne _ hbyte
  · intro howned writes _
    exact posted_of_owned s hI sges hin howned _ (appWrites_table _ _)

def pageOne (p : ℕ) : Bool := p == 1

def zeroes : ℕ → ℕ → UInt8 := fun _ _ => 0

def registered : Client := ibvCmdRegMr (started zeroes) 1 4096 1 0

theorem registered_run :
    run (step pageOne) (started zeroes) [.regMr 1 4096 1 0] = some registered := by
  simp only [run,step]
  rw [if_pos (by decide)]
  rfl

theorem single_mr_posted : Posted registered.live
    (ibvCmdPostSend registered.live (appWrites registered.space [(4096,7)]) [⟨4096,1,1⟩])
    [⟨4096,1,1⟩] := by
  have hin : AllInside registered.live [⟨4096,1,1⟩] := by
    intro g hg
    obtain rfl := List.mem_singleton.mp hg
    exact ⟨newMr (started zeroes) 1 4096 1 0,List.mem_singleton.mpr rfl,rfl,by decide,by decide⟩
  have howned : Owned registered [⟨4096,1,1⟩] := by
    intro g hg m hm _ _ i hi
    obtain rfl := List.mem_singleton.mp hg
    obtain rfl := List.mem_singleton.mp hm
    obtain rfl : i = 0 := Nat.lt_one_iff.mp hi
    decide
  exact (posted_iff_owned zeroes _ registered registered_run _ hin).mpr howned [(4096,7)] (by decide)

/-- A range registered twice: the application writes into the second object,
the request names the first. -/
theorem reregistered_page_not_posted : ∃ s, run (step pageOne) (started zeroes)
    [.regMr 1 4096 1 0,.regMr 2 4096 1 0,.appWrite 4096 5] = some s ∧
    AllInside s.live [⟨4096,1,1⟩] ∧
    ¬Posted s.live (ibvCmdPostSend s.live s.space [⟨4096,1,1⟩]) [⟨4096,1,1⟩] := by
  let second := ibvCmdRegMr registered 2 4096 1 0
  refine ⟨{second with space := second.space.write pageSize 4096 5},?_,?_,?_⟩
  · simp only [run,step]
    rw [if_pos (by decide)]
    dsimp only [Option.bind]
    rw [if_pos (by decide)]
    rfl
  · intro g hg
    obtain rfl := List.mem_singleton.mp hg
    exact ⟨newMr (started zeroes) 1 4096 1 0,by decide,rfl,by decide,by decide⟩
  · intro hposted
    have hbyte := hposted ⟨4096,1,1⟩ (by simp) (newMr (started zeroes) 1 4096 1 0) (by decide)
      ⟨rfl,by decide,by decide⟩ 0 (by decide)
    exact absurd hbyte (by decide +kernel)

end FreeFlow.RegisteredMemory
