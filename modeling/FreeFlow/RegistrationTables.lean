import FreeFlow.MachineIntegers
import FreeFlow.ObjectNames
import FreeFlow.Runs
import FreeFlow.Wire

/-!
# The tables behind a registration

The `IBV_REG_MR` case with every table it reads or writes. It has three ways
to fail, all of them after the piece has been entered: an anonymous piece
into `shm_pool`, a named one into `shm_map`, whether or not it could be
mapped. A name that is in `shm_map` already is answered from there, with the
size it was first opened for. `IBV_DEREG_MR` unlinks the name and leaves the
piece where it is.

The length of the application is a `size_t`. It is cut to the `uint32_t` of
the request, becomes the `int` of the piece and is passed to `ibv_reg_mr` as
a `size_t` again. `mmap` refuses a size that is zero, and one that is
negative as an `int` and so exceeds every address space.
-/

set_option autoImplicit false

namespace FreeFlow.RegistrationTables

open ObjectNames Runs Wire
open MachineIntegers (toInt toSizeT)

/-- A `ShmPiece` with the object behind its name; without `ptr` after
`MAP_FAILED`. -/
structure Piece extends Handle String where
  size : ℤ
  ptr : Option ℕ
  deriving DecidableEq

structure Mr where
  handle : ℕ
  lkey : ℕ
  rkey : ℕ
  deriving DecidableEq

structure Tables where
  names : Names String
  pdMap : ℕ → Option ℕ
  shmPool : ℤ → List Piece
  shmMap : String → Option (Option Piece)
  shmrMap : ℕ → Option Piece
  mrMap : ℕ → Option Mr
  lkeyPtr : ℕ → Option ℕ

/-- What `shm_open`, `mmap` and `ibv_reg_mr` return. -/
structure Answers where
  opened : Bool
  mapped : Option ℕ
  mr : Option Mr

/-- `ShmPiece::open`. -/
def openPiece (names : Names String) (name : String) (size : ℤ) (k : Answers) :
    Names String × Piece :=
  (if k.opened then names.shmOpen name else names,
    ⟨names.handle name,size,if k.opened ∧ 0 < size then k.mapped else none⟩)

/-- `ShmPiece::remove`, also run by the destructor. -/
def remove (names : Names String) (sp : Piece) : Names String :=
  if sp.ptr.isSome then names.shmUnlink sp.name else names

/-- The piece, or `NULL` if it could not be mapped. -/
def Piece.orNull (p : Piece) : Option Piece := if p.ptr.isSome then some p else none

def anonymousName (clientId memSize : ℤ) (count : ℕ) : String :=
  "client-"++toString clientId++"-memsize-"++toString memSize++"-index-"++toString count

/-- `addShmPiece(int client_id, int mem_size)`. -/
def addShmPiece (s : Tables) (clientId memSize : ℤ) (k : Answers) : Tables × Option Piece :=
  let pieces := s.shmPool clientId
  let o := openPiece s.names (anonymousName clientId memSize pieces.length) memSize k
  ({s with names := o.1, shmPool := Function.update s.shmPool clientId (pieces++[o.2])},
    o.2.orNull)

/-- `addShmPiece(std::string shm_name, int mem_size)`. -/
def addNamedShmPiece (s : Tables) (shmName : String) (memSize : ℤ) (k : Answers) :
    Tables × Option Piece :=
  match s.shmMap shmName with
  | some sp => (s,sp)
  | none =>
    let o := openPiece s.names shmName memSize k
    ({s with names := o.1, shmMap := Function.update s.shmMap shmName (some o.2.orNull)},
      o.2.orNull)

structure RegMrReq where
  pdHandle : ℕ
  memSize : ℕ
  accessFlags : ℕ
  shmName : String

structure RegMrRsp where
  handle : ℕ
  lkey : ℕ
  rkey : ℕ
  shmName : String
  deriving DecidableEq

/-- The exits of the case before its response. -/
inductive Failure
  | noPiece
  | noPd
  | notRegistered
  deriving DecidableEq

/-- A call of `ibv_reg_mr`. -/
structure RegMrCall where
  pd : ℕ
  ptr : Option ℕ
  size : ℕ
  accessFlags : ℕ
  deriving DecidableEq

def findPiece (s : Tables) (clientId : ℤ) (req : RegMrReq) (k : Answers) : Tables × Option Piece :=
  if req.shmName = "" then addShmPiece s clientId (toInt req.memSize) k
  else addNamedShmPiece s req.shmName (toInt req.memSize) k

/-- The end of the case, from the new MR on. -/
def enterMr (s : Tables) (sp : Piece) (mr : Mr) : Tables :=
  {s with
    shmrMap := if mr.handle < mapSize then Function.update s.shmrMap mr.handle (some sp)
      else s.shmrMap
    mrMap := if mr.handle < mapSize then Function.update s.mrMap mr.handle (some mr) else s.mrMap
    lkeyPtr := Function.update s.lkeyPtr mr.lkey sp.ptr}

/-- The `IBV_REG_MR` case: the tables, the driver call it makes and the
response or the exit. -/
def ibvRegMr (s : Tables) (clientId : ℤ) (req : RegMrReq) (k : Answers) :
    Tables × Option RegMrCall × Except Failure RegMrRsp :=
  let found := findPiece s clientId req k
  match found.2 with
  | none => (found.1,none,.error .noPiece)
  | some sp =>
    match found.1.pdMap req.pdHandle with
    | none => (found.1,none,.error .noPd)
    | some pd =>
      let call : RegMrCall := ⟨pd,sp.ptr,toSizeT sp.size,req.accessFlags⟩
      match k.mr with
      | none => (found.1,some call,.error .notRegistered)
      | some mr =>
        (enterMr found.1 sp mr,some call,.ok ⟨mr.handle,mr.lkey,mr.rkey,sp.name⟩)

/-- The `IBV_DEREG_MR` case; it dereferences the piece of the handle. -/
def ibvDeregMr (s : Tables) (handle : ℕ) : Option Tables :=
  (s.shmrMap handle).map fun sp =>
    {s with
      names := remove s.names sp
      shmrMap := Function.update s.shmrMap handle none
      mrMap := Function.update s.mrMap handle none}

/-- The request of the client's two functions. -/
def regMrRequest (pdHandle length accessFlags : ℕ) (shmName : Option String) : RegMrReq :=
  ⟨pdHandle,length%2^32,accessFlags,shmName.getD ""⟩

def ibvCmdRegMr (pdHandle length accessFlags : ℕ) : RegMrReq :=
  regMrRequest pdHandle length accessFlags none

def ibvCmdRegMrFf (pdHandle length accessFlags : ℕ) (shmName : Option String) : RegMrReq :=
  regMrRequest pdHandle length accessFlags shmName

/-! ## A failed registration -/

def Failed (s : Tables) (clientId : ℤ) (req : RegMrReq) (k : Answers) : Prop :=
  ∃ e, (ibvRegMr s clientId req k).2.2 = .error e

structure Unchanged (s t : Tables) : Prop where
  shmPool : t.shmPool = s.shmPool
  shmMap : t.shmMap = s.shmMap
  lkeyPtr : t.lkeyPtr = s.lkeyPtr
  mrMap : t.mrMap = s.mrMap
  shmrMap : t.shmrMap = s.shmrMap
  names : ∀ n, (t.names.binding n).isSome = (s.names.binding n).isSome

/-- What a request does: it fails and leaves the tables as they were when its
piece had been found, or it enters the new MR. -/
theorem ibvRegMr_cases (s : Tables) (clientId : ℤ) (req : RegMrReq) (k : Answers) :
    (∃ call e, ibvRegMr s clientId req k = ((findPiece s clientId req k).1,call,.error e)) ∨
    ∃ sp pd mr, (findPiece s clientId req k).2 = some sp ∧
      ibvRegMr s clientId req k = (enterMr (findPiece s clientId req k).1 sp mr,
        some ⟨pd,sp.ptr,toSizeT sp.size,req.accessFlags⟩,
        .ok ⟨mr.handle,mr.lkey,mr.rkey,sp.name⟩) := by
  unfold ibvRegMr
  cases hsp : (findPiece s clientId req k).2 with
  | none => exact .inl ⟨none,.noPiece,by simp only [hsp]⟩
  | some sp =>
    cases hpd : (findPiece s clientId req k).1.pdMap req.pdHandle with
    | none => exact .inl ⟨none,.noPd,by simp only [hsp,hpd]⟩
    | some pd =>
      cases hmr : k.mr with
      | none => exact .inl ⟨some ⟨pd,sp.ptr,toSizeT sp.size,req.accessFlags⟩,.notRegistered,
          by simp only [hsp,hpd]⟩
      | some mr => exact .inr ⟨sp,pd,mr,rfl,by simp only [hsp,hpd]⟩

theorem ibvRegMr_failed (s : Tables) (clientId : ℤ) (req : RegMrReq) (k : Answers)
    (h : Failed s clientId req k) :
    (ibvRegMr s clientId req k).1 = (findPiece s clientId req k).1 := by
  obtain ⟨e,he⟩ := h
  obtain ⟨call,e',heq⟩ | ⟨sp,pd,mr,-,heq⟩ := ibvRegMr_cases s clientId req k
  · rw [heq]
  · simp [heq] at he

/-- Of the requests that fail, exactly those that name a piece in `shm_map`
leave the tables and the names alone. -/
theorem failed_unchanged_iff (s : Tables) (clientId : ℤ) (req : RegMrReq) (k : Answers)
    (h : Failed s clientId req k) :
    Unchanged s (ibvRegMr s clientId req k).1 ↔
      req.shmName ≠ "" ∧ s.shmMap req.shmName ≠ none := by
  rw [ibvRegMr_failed s clientId req k h]
  by_cases hname : req.shmName = ""
  · refine iff_of_false (fun hu => ?_) (fun hc => hc.1 hname)
    have hpool := congrFun hu.shmPool clientId
    simp [findPiece,hname,addShmPiece] at hpool
  · cases hmap : s.shmMap req.shmName with
    | some sp =>
      have hfound : (findPiece s clientId req k).1 = s := by
        simp [findPiece,hname,addNamedShmPiece,hmap]
      rw [hfound]
      exact iff_of_true ⟨rfl,rfl,rfl,rfl,rfl,fun _ => rfl⟩ ⟨hname,by simp⟩
    | none =>
      refine iff_of_false (fun hu => ?_) (fun hc => hc.2 rfl)
      have hentry := congrFun hu.shmMap req.shmName
      simp [findPiece,hname,addNamedShmPiece,hmap] at hentry

/-- The tables of a router that has just started. -/
def booted : Tables :=
  ⟨Names.unbound,fun _ => none,fun _ => [],fun _ => none,fun _ => none,fun _ => none,fun _ => none⟩

/-- `shm_open` works and `mmap` does not. -/
def unmapped : Answers := ⟨true,none,none⟩

def granted : Answers := ⟨true,some 8192,some ⟨3,5,5⟩⟩

def withPd : Tables := {booted with pdMap := fun _ => some 1}

def namedReq : RegMrReq := ⟨0,4096,1,"buf"⟩

theorem cached_failure_unchanged :
    Unchanged {booted with shmMap := fun _ => some none}
      (ibvRegMr {booted with shmMap := fun _ => some none} 7 namedReq granted).1 :=
  (failed_unchanged_iff _ 7 namedReq granted ⟨.noPiece,rfl⟩).mpr ⟨by decide,by simp⟩

/-- A request with an unknown PD leaves a piece in `shm_pool` and its name;
one whose piece cannot be mapped leaves its name and a `NULL` entry, from
which the same request is refused although everything would be granted. -/
theorem failed_registration_remains :
    Failed booted 7 (ibvCmdRegMr 0 4096 1) granted ∧
    ((ibvRegMr booted 7 (ibvCmdRegMr 0 4096 1) granted).1.shmPool 7).length = 1 ∧
    (ibvRegMr booted 7 (ibvCmdRegMr 0 4096 1) granted).1.names.binding
      "client-7-memsize-4096-index-0" = some 0 ∧
    Failed withPd 7 namedReq unmapped ∧
    (ibvRegMr withPd 7 namedReq unmapped).1.names.binding "buf" = some 0 ∧
    (ibvRegMr (ibvRegMr withPd 7 namedReq unmapped).1 7 namedReq granted).2.2 = .error .noPiece := by
  refine ⟨⟨.noPd,rfl⟩,rfl,?_,⟨.noPiece,rfl⟩,?_,rfl⟩
  · decide
  · decide

/-! ## The registered size -/

/-- The history of a router: registrations by any clients and, between them,
anything that leaves `shm_map` alone, which only registrations write. -/
inductive Event
  | regMr (clientId : ℤ) (pdHandle length accessFlags : ℕ) (shmName : Option String) (k : Answers)
  | other (t : Tables)

def step (s : Tables) : Event → Option Tables
  | .regMr clientId pdHandle length accessFlags shmName k =>
    some (ibvRegMr s clientId (regMrRequest pdHandle length accessFlags shmName) k).1
  | .other t => some {t with shmMap := s.shmMap}

def lengthUnder (name : String) : Event → Option ℕ
  | .regMr _ _ length _ shmName _ => if shmName.getD "" = name then some length else none
  | .other _ => none

/-- The length for which the piece of a new request was or would be opened:
that of the first request under its name, its own if it has no name. -/
def openedLength (events : List Event) (shmName : Option String) (length : ℕ) : ℕ :=
  if shmName.getD "" = "" then length
  else (events.findSome? (lengthUnder (shmName.getD ""))).getD length

/-- `shm_map` holds for every name the piece of the first length under it. -/
def Recorded (first : String → Option ℕ) (s : Tables) : Prop :=
  ∀ name, name ≠ "" → (s.shmMap name = none → first name = none) ∧
    ∀ sp, s.shmMap name = some sp → ∃ length, first name = some length ∧
      ∀ p, sp = some p → toSizeT p.size = length%2^32

/-- A piece that could be mapped has the size of the request. -/
theorem openPiece_size (names : Names String) (name : String) (length : ℕ) (k : Answers) (p : Piece)
    (h : (openPiece names name (toInt ((length%2^32 : ℕ) : ℤ)) k).2.orNull = some p) :
    toSizeT p.size = length%2^32 := by
  unfold Piece.orNull at h
  split at h
  · next hptr =>
    obtain rfl := Option.some.inj h
    have hpos : 0 < toInt ((length%2^32 : ℕ) : ℤ) := by
      by_contra hneg
      simp only [openPiece,if_neg fun hc : _ ∧ _ => hneg hc.2] at hptr
      exact absurd hptr (by decide)
    exact MachineIntegers.toSizeT_toInt _ (Nat.mod_lt _ (by decide)) hpos
  · exact absurd h (by simp)

theorem findPiece_shmMap (s : Tables) (clientId : ℤ) (req : RegMrReq) (k : Answers) (name : String) :
    (findPiece s clientId req k).1.shmMap name =
      if req.shmName ≠ "" ∧ name = req.shmName ∧ s.shmMap name = none then
        some (findPiece s clientId req k).2
      else s.shmMap name := by
  unfold findPiece
  by_cases hempty : req.shmName = ""
  · simp [hempty,addShmPiece]
  · cases hmap : s.shmMap req.shmName with
    | some sp =>
      have hnot : ¬(name = req.shmName ∧ s.shmMap name = none) := by
        rintro ⟨rfl,hnone⟩
        simp [hmap] at hnone
      simp [hempty,addNamedShmPiece,hmap,hnot]
    | none =>
      by_cases hname : name = req.shmName
      · subst hname
        simp [hempty,addNamedShmPiece,hmap]
      · simp [hempty,addNamedShmPiece,hmap,hname]

theorem ibvRegMr_shmMap (s : Tables) (clientId : ℤ) (req : RegMrReq) (k : Answers) :
    (ibvRegMr s clientId req k).1.shmMap = (findPiece s clientId req k).1.shmMap := by
  obtain ⟨call,e,heq⟩ | ⟨sp,pd,mr,-,heq⟩ := ibvRegMr_cases s clientId req k
  · rw [heq]
  · rw [heq]
    rfl

/-- The piece of a request has its own size, or the one of the first length
under its name. -/
theorem findPiece_size (first : String → Option ℕ) (s : Tables) (h : Recorded first s)
    (clientId : ℤ) (req : RegMrReq) (length : ℕ) (hlength : req.memSize = length%2^32)
    (k : Answers) (p : Piece) (hp : (findPiece s clientId req k).2 = some p) :
    toSizeT p.size =
      (if req.shmName = "" then length else (first req.shmName).getD length)%2^32 := by
  unfold findPiece at hp
  rw [hlength] at hp
  by_cases hempty : req.shmName = ""
  · rw [if_pos hempty] at hp ⊢
    exact openPiece_size _ _ length k p hp
  · rw [if_neg hempty] at hp ⊢
    obtain ⟨hnone,hsome⟩ := h _ hempty
    unfold addNamedShmPiece at hp
    cases hmap : s.shmMap req.shmName with
    | none =>
      rw [hnone hmap]
      simp only [hmap] at hp
      exact openPiece_size _ _ length k p hp
    | some sp =>
      obtain ⟨l,hl,hsize⟩ := hsome sp hmap
      rw [hl]
      simp only [hmap] at hp
      exact hsize p hp

theorem ibvRegMr_recorded (first : String → Option ℕ) (s : Tables) (h : Recorded first s)
    (clientId : ℤ) (req : RegMrReq) (length : ℕ) (hlength : req.memSize = length%2^32)
    (k : Answers) :
    Recorded (fun name => (first name).or (if req.shmName = name then some length else none))
      (ibvRegMr s clientId req k).1 := by
  intro name hne
  obtain ⟨hnone,hsome⟩ := h name hne
  rw [ibvRegMr_shmMap,findPiece_shmMap]
  beta_reduce
  by_cases hname : req.shmName = name
  · subst hname
    rw [if_pos rfl]
    cases hmap : s.shmMap req.shmName with
    | none =>
      rw [if_pos ⟨hne,rfl,rfl⟩,hnone hmap]
      refine ⟨nofun,fun sp hsp => ⟨length,rfl,fun p hp => ?_⟩⟩
      have hfound := (Option.some.inj hsp).trans hp
      rw [findPiece_size first s h clientId req length hlength k p hfound,if_neg hne,hnone hmap]
      rfl
    | some sp =>
      obtain ⟨l,hl,hp⟩ := hsome sp hmap
      rw [if_neg (by simp),hl]
      refine ⟨nofun,fun sp' hsp' => ⟨l,rfl,?_⟩⟩
      obtain rfl := Option.some.inj hsp'
      exact hp
  · rw [if_neg (fun hc => hname hc.2.1.symm),if_neg hname,Option.or_none]
    exact ⟨hnone,hsome⟩

theorem recorded_step (first : String → Option ℕ) (s : Tables) (e : Event) (t : Tables)
    (h : Recorded first s) (ht : step s e = some t) :
    Recorded (fun name => (first name).or (lengthUnder name e)) t := by
  cases e with
  | other u =>
    obtain rfl := Option.some.inj ht
    simpa [Recorded,lengthUnder] using h
  | regMr clientId pdHandle length accessFlags shmName k =>
    obtain rfl := Option.some.inj ht
    exact ibvRegMr_recorded first s h clientId (regMrRequest pdHandle length accessFlags shmName)
      length rfl k

/-- After every history, `shm_map` holds the first length under every name. -/
theorem recorded_run (events : List Event) (first : String → Option ℕ) (s t : Tables)
    (h : Recorded first s) (hrun : run step s events = some t) :
    Recorded (fun name => (first name).or (events.findSome? (lengthUnder name))) t := by
  induction events generalizing first s with
  | nil =>
    obtain rfl : s = t := by simpa [run] using hrun
    simpa using h
  | cons e events ih =>
    obtain ⟨u,hu,hrest⟩ := (run_cons step s e events t).mp hrun
    have hcons : ∀ name, (e::events).findSome? (lengthUnder name) =
        (lengthUnder name e).or (events.findSome? (lengthUnder name)) := by
      intro name
      rw [List.findSome?_cons]
      cases lengthUnder name e with
      | none => rfl
      | some l => rfl
    simp only [hcons,← Option.or_assoc]
    exact ih _ u (recorded_step first s e u h hu) hrest

/-- After every history, the registered size of a new MR reaches the length
exactly when the length its piece was opened for, cut to 32 bits, does. -/
theorem registered_length_iff (events : List Event) (s : Tables)
    (hrun : run step booted events = some s) (clientId : ℤ) (pdHandle length accessFlags : ℕ)
    (shmName : Option String) (k : Answers) (call : RegMrCall) (rsp : RegMrRsp)
    (hok : (ibvRegMr s clientId (regMrRequest pdHandle length accessFlags shmName) k).2 =
      (some call,.ok rsp)) :
    length ≤ call.size ↔ length ≤ openedLength events shmName length%2^32 := by
  have hrec := recorded_run events (fun _ => none) booted s
    (fun name _ => ⟨fun _ => rfl,fun sp hsp => absurd hsp (by simp [booted])⟩) hrun
  have hsize : call.size = openedLength events shmName length%2^32 := by
    obtain ⟨call',e,heq⟩ | ⟨sp,pd,mr,hsp,heq⟩ := ibvRegMr_cases s clientId
      (regMrRequest pdHandle length accessFlags shmName) k
    · simp [heq] at hok
    · obtain rfl := Option.some.inj (congrArg Prod.fst ((congrArg Prod.snd heq).symm.trans hok))
      exact findPiece_size _ s hrec clientId _ length rfl k sp hsp
  rw [hsize]

theorem named_registration_covers : 4096 ≤ (⟨1,some 8192,4096,1⟩ : RegMrCall).size :=
  (registered_length_iff [.other withPd] withPd rfl 7 0 4096 1 (some "buf") granted _
    ⟨3,5,5,"buf"⟩ rfl).mpr (by decide)

/-- One byte more than 4 GiB is registered as one byte, and a second, larger
registration under a name as the first. -/
theorem registered_short :
    (∃ s call rsp, run step booted [.other withPd] = some s ∧
      (ibvRegMr s 7 (ibvCmdRegMr 0 (2^32+1) 1) granted).2 = (some call,.ok rsp) ∧
      call.size = 1) ∧
    ∃ s call rsp,
      run step booted [.other withPd,.regMr 7 0 4096 1 (some "buf") granted] = some s ∧
      (ibvRegMr s 7 (ibvCmdRegMrFf 0 8192 1 (some "buf")) granted).2 = (some call,.ok rsp) ∧
      call.size = 4096 :=
  ⟨⟨_,_,_,rfl,rfl,rfl⟩,_,_,_,rfl,rfl,rfl⟩

/-- A name under which a piece could not be mapped is refused from then on. -/
theorem unmapped_name_refused (s : Tables) (events : List Event) (t : Tables)
    (hrun : run step s events = some t) (clientId : ℤ) (req : RegMrReq) (k : Answers)
    (hname : req.shmName ≠ "") (hnull : s.shmMap req.shmName = some none) :
    (ibvRegMr t clientId req k).2.2 = .error .noPiece := by
  have hkept : t.shmMap req.shmName = some none := by
    refine run_preserves step (fun s => s.shmMap req.shmName = some none) ?_ s events t hnull hrun
    intro s e u hs hu
    cases e with
    | other v =>
      obtain rfl := Option.some.inj hu
      exact hs
    | regMr =>
      obtain rfl := Option.some.inj hu
      rw [ibvRegMr_shmMap,findPiece_shmMap,if_neg (by simp [hs])]
      exact hs
  have hfound : (findPiece t clientId req k).2 = none := by
    simp [findPiece,hname,addNamedShmPiece,hkept]
  simp only [ibvRegMr,hfound]

end FreeFlow.RegistrationTables
