import FreeFlow.DecimalText
import FreeFlow.RegistrationTables

/-!
# Names of anonymous pieces

An `IBV_REG_MR` request without a name gets a piece named after the client, the size and
the number of pieces in the client's vector in `shm_pool`. The piece is pushed onto the
vector before it is opened, and nothing is ever taken out of it, so the number is another
one for each request of a client. A control slot is named `ctrlshm-` and a tag.

`header.client_id` is an `int`, `mem_size` a `uint32_t` that is passed as an `int`.
-/

set_option autoImplicit false

namespace FreeFlow.AnonymousNames

open DecimalText RegistrationTables Runs
open MachineIntegers (toInt)

/-- The tables and the names of the control slots. -/
structure System where
  tables : Tables
  slots : List String

inductive Event
  | regMr (clientId : BitVec 32) (req : RegMrReq) (k : Answers)
  | deregMr (handle : ℕ)
  | initCtrlShm (tag : String)

def ctrlName (tag : String) : String := "ctrlshm-"++tag

def step (s : System) : Event → Option System
  | .regMr clientId req k => some {s with tables := (ibvRegMr s.tables clientId.toInt req k).1}
  | .deregMr handle => (ibvDeregMr s.tables handle).map fun tables => {s with tables := tables}
  | .initCtrlShm tag =>
    some {s with
      tables := {s.tables with names := s.tables.names.shmOpen (ctrlName tag)}
      slots := ctrlName tag::s.slots}

/-- A router whose `shm_pool` is empty. -/
def started (s : Tables) : System := ⟨{s with shmPool := fun _ => []},[]⟩

/-- The pieces in the vectors of all clients. -/
def InPool (s : Tables) (p : Piece) : Prop := ∃ c : BitVec 32, p ∈ s.shmPool c.toInt

/-- A request of a client for an anonymous piece. -/
def anonymousFrom (clientId : BitVec 32) : Event → Bool
  | .regMr c req _ => c = clientId && req.shmName = ""
  | _ => false

/-! ## The texts -/

theorem toList_anonymousName (clientId memSize : ℤ) (count : ℕ) :
    (anonymousName clientId memSize count).toList =
      ['c','l','i','e','n','t','-']++(intText clientId ++ '-'::(['m','e','m','s','i','z','e','-']++
        (intText memSize ++ '-'::(['i','n','d','e','x','-']++natText count)))) := by
  simp only [anonymousName,String.toList_append,toList_toString_int,toList_toString_nat,
    List.append_assoc]
  rfl

/-- The name tells the client and the count. -/
theorem anonymousName_inj (c c' m m' : ℤ) (k k' : ℕ)
    (h : anonymousName c m k = anonymousName c' m' k') : c = c' ∧ k = k' := by
  have htext := congrArg String.toList h
  rw [toList_anonymousName,toList_anonymousName] at htext
  obtain ⟨hclient,hrest⟩ := intText_sep c c' '-' '-' _ _ (by decide) (by decide)
    (List.append_cancel_left htext)
  obtain ⟨-,hindex⟩ := intText_sep m m' '-' '-' _ _ (by decide) (by decide)
    (List.append_cancel_left (List.cons.inj hrest).2)
  exact ⟨hclient,natText_injective k k' (List.append_cancel_left (List.cons.inj hindex).2)⟩

theorem anonymousName_ne_ctrlName (c m : ℤ) (k : ℕ) (tag : String) :
    anonymousName c m k ≠ ctrlName tag := by
  intro h
  have htext := congrArg String.toList h
  rw [toList_anonymousName] at htext
  simp [ctrlName] at htext

/-- Three numbers of eleven, eleven and ten bytes and 23 bytes between them. -/
theorem utf8ByteSize_anonymousName (c m : ℤ) (k : ℕ) (hc : c.natAbs < 10^10) (hm : m.natAbs < 10^10)
    (hk : k < 10^10) : (anonymousName c m k).utf8ByteSize ≤ 55 := by
  have hclient := utf8ByteSize_int_le c 10 (by decide) hc
  have hsize := utf8ByteSize_int_le m 10 (by decide) hm
  have hcount := utf8ByteSize_nat_le k 10 (by decide) hk
  have h₁ : "client-".utf8ByteSize = 7 := rfl
  have h₂ : "-memsize-".utf8ByteSize = 9 := rfl
  have h₃ : "-index-".utf8ByteSize = 7 := rfl
  simp only [anonymousName,String.utf8ByteSize_append,h₁,h₂,h₃]
  omega

/-! ## The pool -/

/-- A request without a name pushes a piece with the generated name, any other leaves the
pool as it is. -/
theorem findPiece_shmPool (s : Tables) (clientId : ℤ) (req : RegMrReq) (k : Answers) :
    ∃ pieces : List Piece, (findPiece s clientId req k).1.shmPool =
        Function.update s.shmPool clientId (s.shmPool clientId++pieces) ∧
      pieces.map (fun p => p.name) = if req.shmName = "" then
        [anonymousName clientId (toInt req.memSize) (s.shmPool clientId).length] else [] := by
  by_cases hname : req.shmName = ""
  · rw [findPiece,if_pos hname,if_pos hname,addShmPiece]
    exact ⟨_,rfl,rfl⟩
  · refine ⟨[],?_,by rw [if_neg hname]; rfl⟩
    rw [List.append_nil,Function.update_eq_self,findPiece,if_neg hname,addNamedShmPiece]
    split <;> rfl

theorem ibvRegMr_shmPool (s : Tables) (clientId : ℤ) (req : RegMrReq) (k : Answers) :
    (ibvRegMr s clientId req k).1.shmPool = (findPiece s clientId req k).1.shmPool := by
  obtain ⟨call,e,heq⟩ | ⟨sp,pd,mr,-,heq⟩ := ibvRegMr_cases s clientId req k
  · rw [heq]
  · rw [heq]
    rfl

theorem ibvDeregMr_shmPool (s t : Tables) (handle : ℕ) (h : ibvDeregMr s handle = some t) :
    t.shmPool = s.shmPool := by
  obtain ⟨sp,-,rfl⟩ := Option.map_eq_some_iff.mp h
  rfl

/-- The number of pieces of a client grows by one with each of its anonymous requests. -/
theorem length_shmPool_regMr (s : Tables) (c c' : BitVec 32) (req : RegMrReq) (k : Answers) :
    ((ibvRegMr s c.toInt req k).1.shmPool c'.toInt).length =
      (s.shmPool c'.toInt).length+(if anonymousFrom c' (.regMr c req k) then 1 else 0) := by
  obtain ⟨pieces,hpool,hnames⟩ := findPiece_shmPool s c.toInt req k
  have hlen : pieces.length = if req.shmName = "" then 1 else 0 := by
    rw [← List.length_map,hnames]
    split <;> rfl
  rw [ibvRegMr_shmPool,hpool]
  by_cases hc : c = c'
  · subst hc
    simp [anonymousFrom,hlen]
  · have hne : c'.toInt ≠ c.toInt := fun heq => hc (BitVec.eq_of_toInt_eq heq.symm)
    simp [anonymousFrom,hc,hne]

theorem length_shmPool_step (s t : System) (e : Event) (ht : step s e = some t) (c : BitVec 32) :
    (t.tables.shmPool c.toInt).length =
      (s.tables.shmPool c.toInt).length+(if anonymousFrom c e then 1 else 0) := by
  cases e with
  | regMr c' req k =>
    obtain rfl := Option.some.inj ht
    exact length_shmPool_regMr s.tables c' c req k
  | deregMr handle =>
    obtain ⟨tables,htables,rfl⟩ := Option.map_eq_some_iff.mp ht
    simp [ibvDeregMr_shmPool s.tables tables handle htables,anonymousFrom]
  | initCtrlShm tag =>
    obtain rfl := Option.some.inj ht
    simp [anonymousFrom]

theorem length_shmPool_run (s t : System) (events : List Event) (hrun : run step s events = some t)
    (c : BitVec 32) :
    (t.tables.shmPool c.toInt).length =
      (s.tables.shmPool c.toInt).length+events.countP (anonymousFrom c) := by
  induction events generalizing s with
  | nil =>
    obtain rfl := Option.some.inj hrun
    rfl
  | cons e events ih =>
    obtain ⟨u,hu,hrest⟩ := (run_cons step s e events t).mp hrun
    rw [ih u hrest,length_shmPool_step s u e hu c,List.countP_cons]
    omega

/-- Each piece carries its client and its place in the client's vector in its name. -/
structure Numbered (s : System) : Prop where
  pieces : ∀ (c : BitVec 32) (i : ℕ) (p : Piece), (s.tables.shmPool c.toInt)[i]? = some p →
    ∃ memSize : ℕ, p.name = anonymousName c.toInt (toInt memSize) i
  slots : ∀ name ∈ s.slots, ∃ tag, name = ctrlName tag

theorem numbered_regMr (s : System) (c : BitVec 32) (req : RegMrReq) (k : Answers) (hs : Numbered s) :
    Numbered {s with tables := (ibvRegMr s.tables c.toInt req k).1} := by
  obtain ⟨pieces,hpool,hnames⟩ := findPiece_shmPool s.tables c.toInt req k
  refine ⟨fun c' i p hp => ?_,hs.slots⟩
  simp only [ibvRegMr_shmPool,hpool] at hp
  by_cases hc : c'.toInt = c.toInt
  · rw [hc,Function.update_self] at hp
    by_cases hi : i < (s.tables.shmPool c.toInt).length
    · rw [List.getElem?_append_left hi,← hc] at hp
      exact hs.pieces c' i p hp
    · -- the piece is the new one, at the end of the vector
      rw [List.getElem?_append_right (by omega)] at hp
      have hname := congrArg (fun l => l[i-(s.tables.shmPool c.toInt).length]?) hnames
      simp only [List.getElem?_map,hp,Option.map_some] at hname
      split at hname
      · obtain ⟨hzero,hname⟩ : i-(s.tables.shmPool c.toInt).length = 0 ∧ _ := by
          simpa [List.getElem?_singleton] using hname.symm
        have hend : i = (s.tables.shmPool c.toInt).length := by omega
        exact ⟨req.memSize,by rw [← hname,hc,hend]⟩
      · simp at hname
  · rw [Function.update_of_ne hc] at hp
    exact hs.pieces c' i p hp

theorem numbered_step (s : System) (e : Event) (t : System) (hs : Numbered s)
    (ht : step s e = some t) : Numbered t := by
  cases e with
  | regMr c req k =>
    obtain rfl := Option.some.inj ht
    exact numbered_regMr s c req k hs
  | deregMr handle =>
    obtain ⟨tables,htables,rfl⟩ := Option.map_eq_some_iff.mp ht
    refine ⟨?_,hs.slots⟩
    rw [ibvDeregMr_shmPool s.tables tables handle htables]
    exact hs.pieces
  | initCtrlShm tag =>
    obtain rfl := Option.some.inj ht
    refine ⟨hs.pieces,?_⟩
    intro name hmem
    rcases List.mem_cons.mp hmem with rfl | hmem
    · exact ⟨tag,rfl⟩
    · exact hs.slots name hmem

theorem toInt_natAbs_lt (n : ℕ) : (toInt n).natAbs < 10^10 := by
  unfold toInt
  omega

theorem bitVec_natAbs_lt (c : BitVec 32) : c.toInt.natAbs < 10^10 := by
  have hlt := BitVec.toInt_lt (x := c)
  have hle := BitVec.le_toInt c
  omega

/-- Pieces with one name are one piece. -/
theorem Numbered.eq_of_name {t : System} (ht : Numbered t) (c c' : BitVec 32) (i j : ℕ) (p q : Piece)
    (hp : (t.tables.shmPool c.toInt)[i]? = some p) (hq : (t.tables.shmPool c'.toInt)[j]? = some q)
    (hname : p.name = q.name) : c = c' ∧ i = j := by
  obtain ⟨m,hm⟩ := ht.pieces c i p hp
  obtain ⟨m',hm'⟩ := ht.pieces c' j q hq
  obtain ⟨hclient,hcount⟩ := anonymousName_inj _ _ _ _ _ _ (hm.symm.trans (hname.trans hm'))
  exact ⟨BitVec.eq_of_toInt_eq hclient,hcount⟩

/-- A name is no name of a control slot, and it is short as long as the client has few pieces. -/
theorem Numbered.name_fits {t : System} (ht : Numbered t) (c : BitVec 32) (i : ℕ) (p : Piece)
    (hp : (t.tables.shmPool c.toInt)[i]? = some p) (hi : i < 2^31) :
    p.name ∉ t.slots ∧ p.name.utf8ByteSize+1 ≤ 100 := by
  obtain ⟨m,hm⟩ := ht.pieces c i p hp
  rw [hm]
  constructor
  · intro hslot
    obtain ⟨tag,htag⟩ := ht.slots _ hslot
    exact anonymousName_ne_ctrlName _ _ _ tag htag
  · have hbytes := utf8ByteSize_anonymousName c.toInt (toInt m) i (bitVec_natAbs_lt c)
      (toInt_natAbs_lt m) (by omega)
    omega

/-- In every run from an empty pool, with requests of any clients for any sizes, any results
of the system calls and of the driver, deregistrations and control slots, and with fewer
than 2^31 anonymous requests of each client: `shm_pool` has one piece for each of them, any
two pieces in it have different names, and every name is different from the names of control
slots and fits a field of 100 bytes with its terminator. -/
theorem anonymous_names_distinct (s : Tables) (events : List Event) (t : System)
    (hrun : run step (started s) events = some t)
    (hfew : ∀ c, events.countP (anonymousFrom c) < 2^31) :
    (∀ c : BitVec 32, (t.tables.shmPool c.toInt).length = events.countP (anonymousFrom c)) ∧
    (∀ (c c' : BitVec 32) (i j : ℕ) (p q : Piece), (t.tables.shmPool c.toInt)[i]? = some p →
      (t.tables.shmPool c'.toInt)[j]? = some q → p.name = q.name → c = c' ∧ i = j) ∧
    ∀ p, InPool t.tables p → p.name ∉ t.slots ∧ p.name.utf8ByteSize+1 ≤ 100 := by
  have hempty : Numbered (started s) := ⟨by simp [started],by simp [started]⟩
  have ht : Numbered t := run_preserves step Numbered numbered_step (started s) events t hempty hrun
  have hlength : ∀ c : BitVec 32,
      (t.tables.shmPool c.toInt).length = events.countP (anonymousFrom c) := fun c =>
    (length_shmPool_run (started s) t events hrun c).trans (Nat.zero_add _)
  refine ⟨hlength,ht.eq_of_name,?_⟩
  rintro p ⟨c,hp⟩
  obtain ⟨i,hi⟩ := List.getElem?_of_mem hp
  have hlt := (List.getElem?_eq_some_iff.mp hi).1
  rw [hlength c] at hlt
  exact ht.name_fits c i p hi (hlt.trans (hfew c))

/-- Two requests of one client, the first of which could not be mapped, and one of a client
with a negative id. -/
def threeRequests : List Event :=
  [.regMr 7 ⟨0,4096,1,""⟩ unmapped,.initCtrlShm "qp3",.regMr 7 ⟨0,4096,1,""⟩ granted,
    .regMr 0xffffffff ⟨0,4096,1,""⟩ granted]

theorem three_requests_distinct : ∃ t p q o, run step (started withPd) threeRequests = some t ∧
    t.tables.shmPool 7 = [p,q] ∧ t.tables.shmPool (-1) = [o] ∧
    p.name ≠ q.name ∧ p.name ≠ o.name ∧ q.name ≠ o.name ∧
    p.name ∉ t.slots ∧ q.name ∉ t.slots ∧ o.name ∉ t.slots := by
  obtain ⟨-,hdistinct,hslots⟩ := anonymous_names_distinct withPd threeRequests _ rfl fun c =>
    Nat.lt_of_le_of_lt List.countP_le_length (by decide)
  refine ⟨_,_,_,_,rfl,rfl,rfl,?_,?_,?_,?_,?_,?_⟩
  · exact fun h => absurd (hdistinct 7 7 0 1 _ _ rfl rfl h).2 (by decide)
  · exact fun h => absurd (hdistinct 7 0xffffffff 0 0 _ _ rfl rfl h).1 (by decide)
  · exact fun h => absurd (hdistinct 7 0xffffffff 1 0 _ _ rfl rfl h).1 (by decide)
  · exact (hslots _ ⟨7,List.mem_of_getElem? (i := 0) rfl⟩).1
  · exact (hslots _ ⟨7,List.mem_of_getElem? (i := 1) rfl⟩).1
  · exact (hslots _ ⟨0xffffffff,List.mem_of_getElem? (i := 0) rfl⟩).1

end FreeFlow.AnonymousNames
