import FreeFlow.RegisteredMemory

/-!
# What a registration does to the application's memory

`ibv_cmd_reg_mr` saves the `length` bytes of the range, maps the new object
and copies the bytes back. In place, the mapping takes whole pages: of the
last page, the bytes behind the range are not saved and read as zero
afterwards.
-/

set_option autoImplicit false

namespace FreeFlow.RegistrationEffects

open PagedMemory RegisteredMemory Runs

variable {app : ℕ → Bool} {s : Client}

/-- The application shows no object that is yet to be created. -/
theorem app_loc_fresh (hI : Inv app s) (a : ℕ) (ha : app (a/pageSize) = true) :
    (s.space.loc pageSize a).1 ≠ s.fresh := by
  cases hown : owner s.regs (a/pageSize) with
  | some m =>
    rw [app_loc_owner hI rfl a ha m hown]
    exact Nat.ne_of_lt (hI.objs m (owner_spec s.regs _ m hown).1).2
  | none =>
    rw [app_loc_private hI rfl a ha hown]
    exact Nat.ne_of_lt hI.pos

/-- The bytes of all objects after the mapping. -/
theorem mapMr_data (space : Space ℕ UInt8) (m : Mr) (o x : ℕ) :
    (mapMr space m).data o x =
      if o = m.obj then if x < m.length then space.read pageSize (m.base+x) else 0
      else space.data o x := by
  have hloc : ∀ i < m.length, (Space.mapFixed
      {space with data := Function.update space.data m.obj fun _ => 0} m.shmPage
      (pages pageSize m.length) m.obj).loc pageSize (m.shmPtr+i) = (m.obj,0+i) := by
    intro i hi
    rw [Nat.zero_add]
    exact (mapFixed_shows pageSize pageSize_pos _ _ _ _).loc pageSize_pos i hi
  rw [mapMr,store_data pageSize _ _ _ _ m.obj 0 hloc]
  by_cases ho : o = m.obj
  · simp [ho,Space.mapFixed]
  · simp [ho,Space.mapFixed]

theorem mapMr_read_kept (hI : Inv app s) (lkey base length page a : ℕ)
    (ha : app (a/pageSize) = true)
    (hout : ¬((newMr s lkey base length page).shmPage ≤ a/pageSize ∧
      a/pageSize < (newMr s lkey base length page).shmPage+pages pageSize length)) :
    (mapMr s.space (newMr s lkey base length page)).read pageSize a =
      s.space.read pageSize a := by
  have htable : (mapMr s.space (newMr s lkey base length page)).table (a/pageSize) =
      s.space.table (a/pageSize) := by
    rw [mapMr_table]
    exact mapFixed_table_of_not _ _ _ _ _ hout
  have hloc : (mapMr s.space (newMr s lkey base length page)).loc pageSize a =
      s.space.loc pageSize a := by
    rw [Space.loc,htable,Space.loc]
  rw [Space.read,hloc,mapMr_data]
  exact if_neg (app_loc_fresh hI a ha)

/-- Inside the pages mapped in place. -/
theorem mapMr_read_inPlace (s : Client) (lkey base length page x : ℕ) (hal : base%pageSize = 0)
    (hx : x < pages pageSize length*pageSize) :
    (mapMr s.space (newMr s lkey base length page)).read pageSize (base+x) =
      if x < length then s.space.read pageSize (base+x) else 0 := by
  obtain ⟨hpage,hbase⟩ := newMr_inPlace s lkey base length page hal
  have hlt : x/pageSize < pages pageSize length := (Nat.div_lt_iff_lt_mul pageSize_pos).mpr hx
  have htable : (mapMr s.space (newMr s lkey base length page)).table
      (base/pageSize+x/pageSize) = ⟨s.fresh,x/pageSize⟩ := by
    rw [mapMr_table,Space.mapFixed,hpage]
    show (if _ then _ else _) = _
    rw [if_pos ⟨Nat.le_add_right _ _,Nat.add_lt_add_left hlt _⟩,Nat.add_sub_cancel_left]
    rfl
  have hloc := loc_of_table pageSize pageSize_pos _ _ _ _ htable
  rw [hbase] at hloc
  rw [Space.read,hloc,mapMr_data]
  exact if_pos rfl

/-- In every reachable state and for every range of the application, a
registration leaves every byte of the application as it was exactly when the
range is off the page boundary or the bytes behind it in its last page are
zero. -/
theorem registration_unchanged_iff (data : ℕ → ℕ → UInt8) (events : List Event) (s : Client)
    (hrun : run (step app) (started data) events = some s) (lkey base length page : ℕ)
    (hrange : ∀ x < length, app ((base+x)/pageSize) = true)
    (hfree : base%pageSize ≠ 0 → ∀ i < pages pageSize length, app (page+i) = false) :
    (∀ a, app (a/pageSize) = true →
      (ibvCmdRegMr s lkey base length page).space.read pageSize a = s.space.read pageSize a) ↔
    (base%pageSize = 0 → ∀ x, length ≤ x → x < pages pageSize length*pageSize →
      s.space.read pageSize (base+x) = 0) := by
  have hI := inv_of_run data events s hrun
  show (∀ a, app (a/pageSize) = true → (mapMr s.space _).read pageSize a = _) ↔ _
  by_cases hal : base%pageSize = 0
  · obtain ⟨hpage,hbase⟩ := newMr_inPlace s lkey base length page hal
    constructor
    · intro hkept _ x hlo hhi
      have hlt := mul_lt_of_lt_pages pageSize length (x/pageSize)
        ((Nat.div_lt_iff_lt_mul pageSize_pos).mpr hhi)
      have happ : app ((base+x)/pageSize) = true := by
        have hfirst := hrange _ hlt
        rw [← hbase,Nat.mul_comm,Nat.mul_add_div pageSize_pos] at hfirst ⊢
        rwa [Nat.mul_div_cancel _ pageSize_pos] at hfirst
      rw [← hkept _ happ,mapMr_read_inPlace s lkey base length page x hal hhi,
        if_neg (Nat.not_lt.mpr hlo)]
    · intro hzero a ha
      by_cases hin : base/pageSize ≤ a/pageSize ∧ a/pageSize < base/pageSize+pages pageSize length
      · have hle : base ≤ a := by
          have := Nat.mul_le_mul_right pageSize hin.1
          rw [hbase] at this
          exact this.trans (Nat.div_mul_le_self a pageSize)
        obtain ⟨x,rfl⟩ := Nat.exists_eq_add_of_le hle
        have hx : x < pages pageSize length*pageSize := by
          rw [← Nat.div_lt_iff_lt_mul pageSize_pos]
          have hdiv : (base+x)/pageSize = base/pageSize+x/pageSize := by
            conv_lhs => rw [← hbase,Nat.mul_comm,Nat.mul_add_div pageSize_pos]
          omega
        rw [mapMr_read_inPlace s lkey base length page x hal hx]
        by_cases hlt : x < length
        · rw [if_pos hlt]
        · rw [if_neg hlt,hzero hal x (Nat.not_lt.mp hlt) hx]
      · exact mapMr_read_kept hI lkey base length page a ha (by rwa [hpage])
  · refine ⟨fun _ h => absurd h hal,fun _ a ha => ?_⟩
    apply mapMr_read_kept hI lkey base length page a ha
    have hpage : (newMr s lkey base length page).shmPage = page := by simp [newMr,hal]
    rw [hpage]
    rintro ⟨hlo,hhi⟩
    have hfree' := hfree hal (a/pageSize-page) (by omega)
    rw [Nat.add_sub_cancel' hlo,ha] at hfree'
    exact absurd hfree' (by decide)

def ones : ℕ → ℕ → UInt8 := fun _ _ => 1

/-- A range off the page boundary. -/
theorem unaligned_registration_unchanged : (ibvCmdRegMr (started ones) 1 4097 1 7).space.read
    pageSize 4098 = 1 :=
  (@registration_unchanged_iff pageOne ones [] (started ones) rfl 1 4097 1 7
    (by decide) (by decide)).mpr (fun h => absurd h (by decide)) 4098 (by decide)

/-- One byte registered at the start of a page: the next byte is lost. -/
theorem aligned_registration_clears : ∃ s, run (step pageOne) (started ones) [.regMr 1 4096 1 0] =
    some s ∧ pageOne (4097/pageSize) = true ∧ (started ones).space.read pageSize 4097 = 1 ∧
    s.space.read pageSize 4097 = 0 := by
  refine ⟨ibvCmdRegMr (started ones) 1 4096 1 0,?_,by decide,rfl,by decide +kernel⟩
  simp only [run,step]
  rw [if_pos (by decide)]
  rfl

end FreeFlow.RegistrationEffects
