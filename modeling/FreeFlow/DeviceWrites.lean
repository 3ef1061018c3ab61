import FreeFlow.RegisteredMemory

/-!
# Bytes written by the device

An RDMA READ or an atomic makes the device write into the shared-memory
object of the MR. The poll that returns its completion copies nothing for
it, so the application sees the bytes only where its own pages show that
object.
-/

set_option autoImplicit false

namespace FreeFlow.DeviceWrites

open PagedMemory RegisteredMemory Runs

/-- The work requests whose local sges the device writes. -/
inductive Fetching
  | rdmaRead
  | compSwap
  | fetchAdd

/-- The opcode of the completion. -/
def Fetching.wcOpcode : Fetching → ℕ
  | .rdmaRead => 2
  | .compSwap => 3
  | .fetchAdd => 4

theorem Fetching.not_receive (kind : Fetching) : kind.wcOpcode&&&wcRecv = 0 := by
  cases kind <;> decide

/-- The device writes the byte `f x` at every offset `x` the sges name. -/
def deviceWrite (t : Space ℕ UInt8) (m : Mr) (sges : List Sge) (f : ℕ → UInt8) :
    Space ℕ UInt8 :=
  {t with data := Function.update t.data m.obj fun x =>
    if sges.any fun g => g.addr-m.base ≤ x ∧ x < g.addr-m.base+g.length then f x
    else t.data m.obj x}

variable {app : ℕ → Bool}

/-- The receives completing in the same poll have buffers of the application
apart from those of the sges. -/
def Apart (app : ℕ → Bool) (sges : List Sge) (wcs : List Wc) : Prop :=
  ∀ wc ∈ wcs, ∀ r ∈ wc.records, ∀ i < r.length, app ((r.mrAddr+i)/pageSize) = true ∧
    ∀ g ∈ sges, ∀ j < g.length, r.mrAddr+i ≠ g.addr+j

section Poll

variable {s : Client} {t : Space ℕ UInt8}

theorem copyRecord_read (hI : Inv app s) (ht : t.table = s.space.table) (r : SgeRecord) (a : ℕ)
    (ha : app (a/pageSize) = true)
    (hr : ∀ i < r.length, app ((r.mrAddr+i)/pageSize) = true ∧ r.mrAddr+i ≠ a) :
    (copyRecord t r).read pageSize a = t.read pageSize a := by
  rw [Space.read,loc_congr pageSize t _ (copyRecord_table t r),copyRecord]
  split
  · rw [Space.memcpy,store_data_of_not]
    · rfl
    · intro i hi heq
      obtain ⟨happ,hne⟩ := hr i hi
      exact hne (app_loc_injective hI ht _ _ happ ha heq)
  · rfl

theorem copyRecords_read (hI : Inv app s) (records : List SgeRecord) (t : Space ℕ UInt8)
    (ht : t.table = s.space.table) (a : ℕ) (ha : app (a/pageSize) = true)
    (hr : ∀ r ∈ records, ∀ i < r.length,
      app ((r.mrAddr+i)/pageSize) = true ∧ r.mrAddr+i ≠ a) :
    (records.foldl copyRecord t).read pageSize a = t.read pageSize a := by
  induction records generalizing t with
  | nil => rfl
  | cons r records ih =>
    exact (ih _ ((copyRecord_table t r).trans ht) fun r' hr' =>
      hr r' (List.mem_cons_of_mem _ hr')).trans
      (copyRecord_read hI ht r a ha (hr r List.mem_cons_self))

/-- A poll leaves alone what no receive buffer of its completions covers. -/
theorem ibvCmdPollCq_read (hI : Inv app s) (wcs : List Wc) (t : Space ℕ UInt8)
    (ht : t.table = s.space.table) (a : ℕ) (ha : app (a/pageSize) = true)
    (hr : ∀ wc ∈ wcs, wc.opcode&&&wcRecv ≠ 0 → ∀ r ∈ wc.records, ∀ i < r.length,
      app ((r.mrAddr+i)/pageSize) = true ∧ r.mrAddr+i ≠ a) :
    (ibvCmdPollCq t wcs).read pageSize a = t.read pageSize a := by
  induction wcs generalizing t with
  | nil => rfl
  | cons wc wcs ih =>
    have htail := fun wc' hwc' => hr wc' (List.mem_cons_of_mem wc hwc')
    rw [ibvCmdPollCq,List.foldl_cons]
    by_cases hop : wc.opcode&&&wcRecv ≠ 0
    · rw [copyWc,if_pos hop]
      exact (ih _ ((copyRecords_table t wc.records).trans ht) htail).trans
        (copyRecords_read hI wc.records t ht a ha (hr wc List.mem_cons_self hop))
    · rw [copyWc,if_neg hop]
      exact ih t ht htail

/-- A poll that also returns completions of receives leaves the bytes of a
fetching request alone. -/
theorem poll_fetched_read (hI : Inv app s) (ht : t.table = s.space.table) (kind : Fetching)
    (sges : List Sge) (before after : List Wc) (records : List SgeRecord)
    (hapart : Apart app sges (before++after)) (g : Sge) (hg : g ∈ sges) (i : ℕ)
    (hi : i < g.length) (ha : app ((g.addr+i)/pageSize) = true) :
    (ibvCmdPollCq t (before++⟨kind.wcOpcode,records⟩::after)).read pageSize (g.addr+i) =
      t.read pageSize (g.addr+i) := by
  apply ibvCmdPollCq_read hI _ t ht _ ha
  intro wc hwc hop r hr j hj
  rcases List.mem_append.mp hwc with hold | hold
  · exact (hapart wc (List.mem_append_left _ hold) r hr j hj).imp_right fun h => h g hg i hi
  · rcases List.mem_cons.mp hold with rfl | hold
    · exact absurd kind.not_receive hop
    · exact (hapart wc (List.mem_append_right _ hold) r hr j hj).imp_right fun h => h g hg i hi

end Poll

theorem deviceWrite_in (t : Space ℕ UInt8) (m : Mr) (sges : List Sge) (f : ℕ → UInt8) (g : Sge)
    (hg : g ∈ sges) (i : ℕ) (hi : i < g.length) :
    (deviceWrite t m sges f).data m.obj (g.addr-m.base+i) = f (g.addr-m.base+i) := by
  have hany : (sges.any fun g' => g'.addr-m.base ≤ g.addr-m.base+i ∧
      g.addr-m.base+i < g'.addr-m.base+g'.length) = true :=
    List.any_eq_true.mpr ⟨g,hg,decide_eq_true ⟨Nat.le_add_right _ _,by omega⟩⟩
  simp only [deviceWrite,Function.update_self]
  exact if_pos hany

theorem deviceWrite_other (t : Space ℕ UInt8) (m : Mr) (sges : List Sge) (f : ℕ → UInt8)
    (o x : ℕ) (ho : o ≠ m.obj) : (deviceWrite t m sges f).data o x = t.data o x := by
  simp [deviceWrite,ho]

/-- In every reachable state, what the device wrote is what the application
reads after the poll, whatever the device wrote, exactly when the pages of
the sges show the object of the MR: the MR was mapped in place and no later
registration took the pages. -/
theorem device_bytes_visible_iff (data : ℕ → ℕ → UInt8) (events : List Event) (s : Client)
    (hrun : run (step app) (started data) events = some s) (m : Mr) (hm : m ∈ s.live)
    (kind : Fetching) (sges : List Sge) (hin : ∀ g ∈ sges, g.Inside m)
    (before after : List Wc) (records : List SgeRecord) (hapart : Apart app sges (before++after)) :
    (∀ f : ℕ → UInt8, ∀ g ∈ sges, ∀ i < g.length,
      (ibvCmdPollCq (deviceWrite s.space m sges f)
        (before++⟨kind.wcOpcode,records⟩::after)).read pageSize (g.addr+i) =
      f (g.addr-m.base+i)) ↔
    ∀ g ∈ sges, ∀ i < g.length, owner s.regs ((g.addr+i)/pageSize) = some m := by
  have hI := inv_of_run data events s hrun
  have haddr : ∀ g ∈ sges, ∀ i, m.base+(g.addr-m.base+i) = g.addr+i := by
    intro g hg i
    have hlo := (hin g hg).2.1
    omega
  have happ : ∀ g ∈ sges, ∀ i < g.length, app ((g.addr+i)/pageSize) = true := by
    intro g hg i hi
    obtain ⟨-,hlo,hhi⟩ := hin g hg
    rw [← haddr g hg i]
    exact app_range hI m hm _ (by omega)
  have hpoll : ∀ f : ℕ → UInt8, ∀ g ∈ sges, ∀ i < g.length,
      (ibvCmdPollCq (deviceWrite s.space m sges f)
        (before++⟨kind.wcOpcode,records⟩::after)).read pageSize (g.addr+i) =
      (deviceWrite s.space m sges f).read pageSize (g.addr+i) := by
    intro f g hg i hi
    exact poll_fetched_read (t := deviceWrite s.space m sges f) hI rfl kind sges before after
      records hapart g hg i hi (happ g hg i hi)
  constructor
  · intro hvisible g hg i hi
    by_contra hne
    -- the device writes a value that the application's page does not hold
    have hother := app_loc_other hI rfl (g.addr+i) (happ g hg i hi) m (hI.sub m hm) hne
    have hbyte := hvisible (fun _ => s.space.read pageSize (g.addr+i)+1) g hg i hi
    rw [hpoll _ g hg i hi] at hbyte
    have hkept : (deviceWrite s.space m sges fun _ => s.space.read pageSize (g.addr+i)+1).read
        pageSize (g.addr+i) = s.space.read pageSize (g.addr+i) :=
      deviceWrite_other _ m sges _ _ _ hother
    exact succ_byte_ne _ (hbyte.symm.trans hkept)
  · intro howned f g hg i hi
    have hloc := app_loc_owner (t := deviceWrite s.space m sges f) hI rfl (g.addr+i)
      (happ g hg i hi) m (howned g hg i hi)
    rw [hpoll f g hg i hi,Space.read,hloc,← haddr g hg i,Nat.add_sub_cancel_left]
    exact deviceWrite_in _ m sges f g hg i hi

/-- An RDMA READ into an MR mapped in place, polled after a receive whose
buffer lies elsewhere in the page. -/
theorem aligned_read_visible :
    (ibvCmdPollCq (deviceWrite registered.space (newMr (started zeroes) 1 4096 1 0) [⟨4096,1,1⟩]
        fun _ => 5)
      [⟨wcRecv,[⟨1,4100,0⟩]⟩,⟨Fetching.rdmaRead.wcOpcode,[]⟩]).read pageSize 4096 = 5 := by
  have hin : ∀ g ∈ [(⟨4096,1,1⟩ : Sge)], g.Inside (newMr (started zeroes) 1 4096 1 0) := by
    intro g hg
    obtain rfl := List.mem_singleton.mp hg
    exact ⟨rfl,by decide,by decide⟩
  have hapart : Apart pageOne [⟨4096,1,1⟩] ([⟨wcRecv,[⟨1,4100,0⟩]⟩]++[]) := by
    intro wc hwc r hr i hi
    obtain rfl := List.mem_singleton.mp hwc
    obtain rfl := List.mem_singleton.mp hr
    obtain rfl : i = 0 := Nat.lt_one_iff.mp hi
    refine ⟨by decide,fun g hg j hj => ?_⟩
    obtain rfl := List.mem_singleton.mp hg
    have hlt : j < 1 := hj
    show 4100+0 ≠ 4096+j
    omega
  have howned : ∀ g ∈ [(⟨4096,1,1⟩ : Sge)], ∀ i < g.length, owner registered.regs
      ((g.addr+i)/pageSize) = some (newMr (started zeroes) 1 4096 1 0) := by
    intro g hg i hi
    obtain rfl := List.mem_singleton.mp hg
    obtain rfl : i = 0 := Nat.lt_one_iff.mp hi
    decide
  exact (device_bytes_visible_iff zeroes _ registered registered_run _
    (List.mem_singleton.mpr rfl) .rdmaRead _ hin [⟨wcRecv,[⟨1,4100,0⟩]⟩] [] [] hapart).mpr howned
    (fun _ => 5) ⟨4096,1,1⟩ (List.mem_singleton.mpr rfl) 0 Nat.zero_lt_one

/-- An RDMA READ into an MR off the page boundary: the byte 5 written by the
device stays in the object. -/
theorem unaligned_read_not_visible : ∃ s, run (step pageOne) (started zeroes)
    [.regMr 1 4097 1 7,.postSend [⟨4097,1,1⟩]] = some s ∧
    ∃ m ∈ s.live, (⟨4097,1,1⟩ : Sge).Inside m ∧
    (ibvCmdPollCq (deviceWrite s.space m [⟨4097,1,1⟩] fun _ => 5)
      [⟨Fetching.rdmaRead.wcOpcode,[]⟩]).read pageSize 4097 ≠ 5 := by
  let mapped := ibvCmdRegMr (started zeroes) 1 4097 1 7
  refine ⟨{mapped with space := ibvCmdPostSend mapped.live mapped.space [⟨4097,1,1⟩]},?_,
    newMr (started zeroes) 1 4097 1 7,List.mem_singleton.mpr rfl,⟨rfl,by decide,by decide⟩,?_⟩
  · simp only [run,step]
    rw [if_pos (by decide)]
    rfl
  · decide +kernel

end FreeFlow.DeviceWrites
