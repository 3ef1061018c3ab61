import FreeFlow.RegistrationTables

/-!
# The memory object behind a registration

For an `IBV_REG_MR` request the router opens a shared-memory piece and
registers it; the response carries the piece's name, under which the client
then opens the object it maps. Named pieces are kept in `shm_map` and used
again. `IBV_DEREG_MR` unlinks the name on the router and, once it is answered,
on the client; `shm_map` keeps the piece.

Registration and deregistration are two steps each, the router's and the
client's; the steps of different clients interleave.
-/

set_option autoImplicit false

namespace FreeFlow.SharedObjects

open ObjectNames RegistrationTables Runs

/-- The tables of the router, the pieces behind responses whose names the
clients have still to open and the names they have still to unlink. -/
structure Registry where
  tables : Tables
  answered : List Piece
  unlinking : List String

/-- The steps of registrations and deregistrations, with what the system
calls and the driver return. PDs come and go between them. -/
inductive Event
  | pds (pdMap : ℕ → Option ℕ)
  | regMr (clientId : ℤ) (req : RegMrReq) (k : Answers)
  | mapMr (sp : Piece) (mapped : Bool)
  | deregMr (handle : ℕ)
  | unlinkMr (name : String)

/-- The piece behind the response to an `IBV_REG_MR` request, if there is one. -/
def registered (s : Tables) (clientId : ℤ) (req : RegMrReq) (k : Answers) : List Piece :=
  match (ibvRegMr s clientId req k).2.2 with
  | .ok _ => (findPiece s clientId req k).2.toList
  | .error _ => []

/-- A client acts on responses it has got. -/
def step (r : Registry) : Event → Option Registry
  | .pds pdMap => some {r with tables := {r.tables with pdMap := pdMap}}
  | .regMr clientId req k => some {r with
      tables := (ibvRegMr r.tables clientId req k).1
      answered := registered r.tables clientId req k++r.answered}
  | .mapMr sp _ =>
    if sp ∈ r.answered then some {r with
      tables := {r.tables with names := r.tables.names.shmOpen sp.name}
      answered := r.answered.erase sp}
    else none
  | .deregMr handle =>
    (ibvDeregMr r.tables handle).map fun tables => {r with
      tables := tables
      unlinking := ((r.tables.shmrMap handle).map fun sp => sp.name).toList++r.unlinking}
  | .unlinkMr name =>
    if name ∈ r.unlinking then some {r with
      tables := {r.tables with names := r.tables.names.shmUnlink name}
      unlinking := r.unlinking.erase name}
    else none

/-- A router that has just started, among any names. -/
def started (names : Names String) : Registry := ⟨{booted with names := names},[],[]⟩

/-- A registration that the client completes maps the object the router
registered. -/
def SameObject (r : Registry) : Event → Prop
  | .mapMr sp mapped => sp ∈ r.answered → mapped = true → r.tables.names.target sp.name = sp.obj
  | _ => True

/-- A name under which a client completes a registration has not been
unlinked since the router opened its piece. -/
def NotUnlinked (r : Registry) : Event → Prop
  | .mapMr sp mapped => sp ∈ r.answered → mapped = true → r.tables.names.epoch sp.name = sp.epoch
  | _ => True

/-- What `shm_map` holds is kept by the names. -/
def Cached (s : Tables) : Prop :=
  ∀ name sp, s.shmMap name = some (some sp) → sp.Kept s.names

structure Inv (r : Registry) : Prop where
  answered : ∀ sp ∈ r.answered, sp.Kept r.tables.names
  cached : Cached r.tables

theorem Inv.of_names {r r' : Registry} (h : Inv r) (hmap : r'.tables.shmMap = r.tables.shmMap)
    (hans : ∀ sp ∈ r'.answered, sp ∈ r.answered)
    (hnames : ∀ x : Handle String, x.Kept r.tables.names → x.Kept r'.tables.names) : Inv r' where
  answered sp hsp := hnames _ (h.answered sp (hans sp hsp))
  cached name sp hsp := hnames _ (h.cached name sp (hmap ▸ hsp))

/-- A piece that could be mapped is kept from its opening on. -/
theorem openPiece_kept (names : Names String) (name : String) (size : ℤ) (k : Answers) (sp : Piece)
    (h : (openPiece names name size k).2.orNull = some sp) :
    sp.Kept (openPiece names name size k).1 := by
  unfold Piece.orNull at h
  split at h
  · next hptr =>
    obtain rfl := Option.some.inj h
    cases hopened : k.opened with
    | false => simp [openPiece,hopened] at hptr
    | true =>
      simp only [openPiece,hopened,if_true]
      exact kept_handle names name
  · exact absurd h (by simp)

theorem openPiece_keeps (names : Names String) (name : String) (size : ℤ) (k : Answers)
    (x : Handle String) (h : x.Kept names) : x.Kept (openPiece names name size k).1 := by
  unfold openPiece
  split
  · exact h.shmOpen name
  · exact h

/-- What finding a piece keeps and what it finds. -/
structure Found (s t : Tables) (sp : Option Piece) : Prop where
  keeps : ∀ x : Handle String, x.Kept s.names → x.Kept t.names
  cached : Cached s → Cached t
  found : Cached s → ∀ p, sp = some p → p.Kept t.names

theorem found_addShmPiece (s : Tables) (clientId memSize : ℤ) (k : Answers) :
    Found s (addShmPiece s clientId memSize k).1 (addShmPiece s clientId memSize k).2 where
  keeps x hx := openPiece_keeps _ _ memSize k x hx
  cached hs name sp hsp := openPiece_keeps _ _ memSize k _ (hs name sp hsp)
  found _ p hp := openPiece_kept _ _ _ k p hp

theorem found_addNamedShmPiece (s : Tables) (shmName : String) (memSize : ℤ) (k : Answers) :
    Found s (addNamedShmPiece s shmName memSize k).1 (addNamedShmPiece s shmName memSize k).2 := by
  unfold addNamedShmPiece
  cases hcache : s.shmMap shmName with
  | some cached => exact ⟨fun _ hx => hx,fun hs => hs,fun hs p hp => hs shmName p (hp ▸ hcache)⟩
  | none =>
    refine ⟨fun x hx => openPiece_keeps _ _ memSize k x hx,fun hs name sp hsp => ?_,
      fun _ p hp => openPiece_kept _ _ _ k p hp⟩
    by_cases hname : name = shmName
    · subst hname
      exact openPiece_kept _ _ _ k sp (by simpa using hsp)
    · exact openPiece_keeps _ _ memSize k _ (hs name sp (by simpa [hname] using hsp))

theorem found_findPiece (s : Tables) (clientId : ℤ) (req : RegMrReq) (k : Answers) :
    Found s (findPiece s clientId req k).1 (findPiece s clientId req k).2 := by
  unfold findPiece
  split
  · exact found_addShmPiece s clientId _ k
  · exact found_addNamedShmPiece s req.shmName _ k

/-- The rest of the case touches neither the names nor `shm_map`. -/
theorem found_ibvRegMr (s : Tables) (clientId : ℤ) (req : RegMrReq) (k : Answers) :
    Found s (ibvRegMr s clientId req k).1 (findPiece s clientId req k).2 := by
  have hfound := found_findPiece s clientId req k
  obtain ⟨call,e,heq⟩ | ⟨sp,pd,mr,-,heq⟩ := ibvRegMr_cases s clientId req k
  · rwa [heq]
  · rw [heq]
    exact ⟨hfound.keeps,hfound.cached,hfound.found⟩

theorem mem_registered (s : Tables) (clientId : ℤ) (req : RegMrReq) (k : Answers) (sp : Piece)
    (h : sp ∈ registered s clientId req k) : (findPiece s clientId req k).2 = some sp := by
  unfold registered at h
  split at h
  · exact Option.mem_toList.mp h
  · exact absurd h List.not_mem_nil

theorem remove_keeps (names : Names String) (sp : Piece) (x : Handle String) (h : x.Kept names) :
    x.Kept (remove names sp) := by
  unfold remove
  split
  · exact h.shmUnlink sp.name
  · exact h

theorem inv_step (r : Registry) (e : Event) (t : Registry) (hI : Inv r)
    (ht : step r e = some t) : Inv t := by
  cases e with
  | pds pdMap =>
    obtain rfl := Option.some.inj ht
    exact hI.of_names rfl (fun x hx => hx) fun x hx => hx
  | regMr clientId req k =>
    obtain rfl := Option.some.inj ht
    have hfound := found_ibvRegMr r.tables clientId req k
    refine ⟨fun sp hsp => ?_,hfound.cached hI.cached⟩
    rcases List.mem_append.mp hsp with hsp | hsp
    · exact hfound.found hI.cached sp (mem_registered _ _ _ _ sp hsp)
    · exact hfound.keeps _ (hI.answered sp hsp)
  | mapMr sp mapped =>
    simp only [step,Option.ite_none_right_eq_some,Option.some.injEq] at ht
    obtain ⟨-,rfl⟩ := ht
    exact hI.of_names rfl (fun x hx => List.mem_of_mem_erase hx) fun x hx => hx.shmOpen _
  | deregMr handle =>
    obtain ⟨tables,htables,rfl⟩ := Option.map_eq_some_iff.mp ht
    obtain ⟨sp,-,rfl⟩ := Option.map_eq_some_iff.mp htables
    exact hI.of_names rfl (fun x hx => hx) fun x hx => remove_keeps _ sp x hx
  | unlinkMr name =>
    simp only [step,Option.ite_none_right_eq_some,Option.some.injEq] at ht
    obtain ⟨-,rfl⟩ := ht
    exact hI.of_names rfl (fun x hx => hx) fun x hx => hx.shmUnlink _

/-- Over every run, each completed registration shares its object exactly
when no name is unlinked between the router's opening of the piece and the
client's opening of the name. -/
theorem same_object_iff (names : Names String) (events : List Event) :
    Along step SameObject (started names) events ↔
      Along step NotUnlinked (started names) events := by
  refine along_iff step _ _ Inv ?_ ?_ (started names) events ⟨by simp [started],?_⟩
  · intro r e hI
    cases e with
    | mapMr sp mapped =>
      exact forall_congr' fun hsp => forall_congr' fun _ =>
        target_eq_iff r.tables.names sp.toHandle (hI.answered sp hsp)
    | _ => exact Iff.rfl
  · intro r e t hI _ ht
    exact inv_step r e t hI ht
  · exact fun name sp hsp => absurd hsp (by simp [started,booted])

/-- The piece of the first registration. -/
def firstPiece : Piece := ⟨⟨"buf",0,0⟩,4096,some 8192⟩

def reuse : List Event :=
  [.pds fun _ => some 1,.regMr 7 namedReq granted,.mapMr firstPiece true,.deregMr 3,.unlinkMr "buf",
    .regMr 7 namedReq granted]

/-- The router answers the second registration with the piece of the first,
whose object the name no longer denotes. -/
theorem reused_name_not_shared :
    ∃ r, run step (started Names.unbound) reuse = some r ∧ firstPiece ∈ r.answered ∧
      r.tables.names.target "buf" = 1 ∧ ¬SameObject r (.mapMr firstPiece true) := by
  refine ⟨_,rfl,by decide,by decide,fun h => ?_⟩
  exact absurd (h (by decide) rfl) (by decide)

end FreeFlow.SharedObjects
