import FreeFlow.CellRecords
import FreeFlow.RegisteredMemory
import FreeFlow.RemoteMapping
import FreeFlow.TokenBucket

/-!
# Send requests from the client to the driver

`ibv_cmd_post_send` writes a command, an array of work requests, an array of
sges and, for a UD queue pair, an array of address handles, one after the
other. The control loop and `HandleRequest` both walk the three arrays with
running pointers, repair the pointers in place and translate addresses and
keys. The driver gets the first work request and follows `next` and `sg_list`.

Offsets of the fields used here. `ibv_post_send` (32 bytes): `qp_handle` 16,
`wr_count` 20, `sge_count` 24. `ibv_send_wr` (128 bytes): `next` 8, `sg_list` 16,
`num_sge` 24, `opcode` 28, `wr.rdma.remote_addr` and `wr.ud.ah` 40,
`wr.rdma.rkey` 48. `ibv_sge` (16 bytes): `addr` 0, `length` 8, `lkey` 12.
-/

set_option autoImplicit false

namespace FreeFlow.PostSend

open CellRecords
open RegisteredMemory (Sge)

def sgeCells (g : Sge) : ℕ → ℕ := fun k =>
  if k = 0 then g.addr else if k = 8 then g.length else if k = 12 then g.lkey else 0

/-- A work request of the application: the fields of the struct, the sges at
its `sg_list` and the handle of its address handle. -/
structure SendWr where
  cells : ℕ → ℕ
  sges : List Sge
  ahHandle : ℕ
  num_sge : cells 24 = sges.length

/-- The sge as it leaves the client: an offset into the MR. -/
def clientSge (mr : ℕ → ℕ) (g : Sge) : Sge := {g with addr := (g.addr+2^64-mr g.lkey)%2^64}

-- Stated for any address: reducing the wrapped one is far out of reach.
theorem length_mk (addr length lkey : ℕ) : (Sge.mk addr length lkey).length = length := rfl

theorem clientSge_length (mr : ℕ → ℕ) (g : Sge) : (clientSge mr g).length = g.length :=
  length_mk _ _ _

structure ClientCursor where
  mem : ℕ → ℕ
  wr : ℕ
  sge : ℕ
  ah : ℕ

/-- One round of the copy loop; `mr` is `map_lkey_to_mrshm`. -/
def copyWr (ud : Bool) (mr : ℕ → ℕ) (c : ClientCursor) (w : SendWr) : ClientCursor :=
  let mem := blit c.mem c.wr 128 w.cells
  let mem := if ud then Function.update mem c.ah w.ahHandle else mem
  { mem := blitAll 16 mem c.sge (w.sges.map fun g => sgeCells (clientSge mr g))
    wr := c.wr+128
    sge := c.sge+16*w.sges.length
    ah := if ud then c.ah+4 else c.ah }

def sgeCount (ws : List SendWr) : ℕ := (ws.map fun w => w.sges.length).sum

def ibvCmdPostSend (ud : Bool) (mr : ℕ → ℕ) (mem : ℕ → ℕ) (handle : ℕ) (ws : List SendWr) :
    ℕ → ℕ :=
  let mem := Function.update mem 16 handle
  let mem := Function.update mem 20 ws.length
  let mem := Function.update mem 24 (sgeCount ws)
  let s := 32+128*ws.length
  (ws.foldl (copyWr ud mr) ⟨mem,32,s,s+16*sgeCount ws⟩).mem

structure Buffer where
  addr : ℕ
  nonnull : 0 < addr

/-- The tables of the router that the two paths read. -/
structure Router where
  ud : ℕ → Bool
  rkeyMrShm : ℕ → Option RemoteMapping.MrShm
  lkeyPtr : ℕ → ℕ
  ahMap : ℕ → ℕ
  tokenbucket : ℕ → TokenBucket.Bucket

/-- `IBV_WR_RDMA_WRITE`, `IBV_WR_RDMA_WRITE_WITH_IMM` and `IBV_WR_RDMA_READ`. -/
def OneSided (opcode : ℕ) : Prop := opcode = 0 ∨ opcode = 1 ∨ opcode = 4

instance (opcode : ℕ) : Decidable (OneSided opcode) := inferInstanceAs (Decidable (_ ∨ _))

variable (r : Router)

def remoteAddr (rkey addr : ℕ) : ℕ :=
  (RemoteMapping.translate r.rkeyMrShm rkey (BitVec.ofNat 64 addr)).toNat

def fixRemote (mem : ℕ → ℕ) (wr : ℕ) : ℕ → ℕ :=
  if OneSided (mem (wr+28)) then
    Function.update mem (wr+40) (remoteAddr r (mem (wr+48)) (mem (wr+40)))
  else mem

def nextPtr (b : Buffer) (count i : ℕ) : ℕ :=
  if count-1 ≤ i then 0 else b.addr+(32+128*(i+1))

def fixSge (mem : ℕ → ℕ) (p : ℕ) : ℕ → ℕ :=
  Function.update mem p ((r.lkeyPtr (mem (p+12))+mem p)%2^64)

/-- An attempt to consume tokens: the clock and the content of `time_`. -/
structure Attempt where
  now : ℕ
  time : ℕ

/-- The wait for the tokens of one sge. -/
abbrev Wait := ℕ → List Attempt → Option (List Attempt)

def noWait : Wait := fun _ attempts => some attempts

/-- `HandleRequest` tries until the bucket grants the tokens. -/
def waitTokens (b : TokenBucket.Bucket) : Wait
  | _, [] => none
  | tokens, a::attempts =>
    if (TokenBucket.consume b a.now a.time tokens).isSome then some attempts
    else waitTokens b tokens attempts

def fixSges (wait : Wait) : ℕ → (ℕ → ℕ) → ℕ → List Attempt → Option ((ℕ → ℕ) × List Attempt)
  | 0, mem, _, attempts => some (mem,attempts)
  | n+1, mem, p, attempts =>
    (wait (mem (p+8)) attempts).bind fun attempts =>
      fixSges wait n (fixSge r mem p) (p+16) attempts

structure Cursor where
  mem : ℕ → ℕ
  sge : ℕ
  ah : ℕ
  attempts : List Attempt

/-- The pointers of a request. -/
def linkWr (b : Buffer) (count i sge : ℕ) (mem : ℕ → ℕ) : ℕ → ℕ :=
  let wr := 32+128*i
  let mem := Function.update mem (wr+8) (nextPtr b count i)
  Function.update mem (wr+16) (if 0 < mem (wr+24) then b.addr+sge else 0)

def prepareWr (b : Buffer) (count i sge : ℕ) (mem : ℕ → ℕ) : ℕ → ℕ :=
  linkWr b count i sge (fixRemote r mem (32+128*i))

/-- A round from the sges on; `mem` is the memory with the request linked. -/
def finishWr (wait : Wait) (ahStep : ℕ) (ud : Bool) (i : ℕ) (c : Cursor) (mem : ℕ → ℕ) :
    Option Cursor :=
  let wr := 32+128*i
  let num := mem (wr+24)
  (fixSges r wait num mem c.sge c.attempts).map fun done =>
    { mem := if ud then Function.update done.1 (wr+40) (r.ahMap (done.1 c.ah)) else done.1
      sge := c.sge+16*num
      ah := if ud then c.ah+ahStep else c.ah
      attempts := done.2 }

/-- One round of the loop over the work requests. The two paths differ in
the wait and in `ahStep`, the distance by which `ah` advances. -/
def fixWr (wait : Wait) (ahStep : ℕ) (b : Buffer) (ud : Bool) (count i : ℕ) (c : Cursor) :
    Option Cursor := finishWr r wait ahStep ud i c (prepareWr r b count i c.sge c.mem)

def fixWrs (wait : Wait) (ahStep : ℕ) (b : Buffer) (ud : Bool) (count : ℕ) :
    ℕ → ℕ → Cursor → Option Cursor
  | 0, _, c => some c
  | n+1, i, c => (fixWr r wait ahStep b ud count i c).bind
      fun c => fixWrs wait ahStep b ud count n (i+1) c

def readSges (mem : ℕ → ℕ) : ℕ → ℕ → List Sge
  | 0, _ => []
  | n+1, p => ⟨mem p,mem (p+8),mem (p+12)⟩::readSges mem n (p+16)

structure PostedWr where
  scalars : List ℕ
  sges : List Sge
  deriving DecidableEq

/-- Every field of `ibv_send_wr` but `next` and `sg_list`. -/
def scalarFields : List ℕ := [0,24,28,32,36,40,48,52,56,64,72,80,88,96,104,112,120]

def readWr (b : Buffer) (mem : ℕ → ℕ) (wr : ℕ) : PostedWr :=
  ⟨scalarFields.map fun k => mem (wr+k),readSges mem (mem (wr+24)) (mem (wr+16)-b.addr)⟩

def chain (b : Buffer) (mem : ℕ → ℕ) : ℕ → ℕ → Option (List PostedWr)
  | 0, _ => none
  | fuel+1, p =>
    if p = 0 then some []
    else (chain b mem fuel (mem (p-b.addr+8))).map (readWr b mem (p-b.addr)::·)

/-- What a path hands to `ibv_post_send` for the body `mem`. -/
def handed (wait : ℕ → Wait) (ahStep : ℕ) (b : Buffer) (mem : ℕ → ℕ) (attempts : List Attempt) :
    Option (List PostedWr) :=
  let qpHandle := mem 16
  let count := mem 20
  let s := 32+128*count
  (fixWrs r (wait qpHandle) ahStep b (r.ud qpHandle) count count 0
    ⟨mem,s,s+16*mem 24,attempts⟩).bind fun c => chain b c.mem (count+1) (b.addr+32)

/-- `CtrlChannelLoop`. -/
def fastPath (b : Buffer) (mem : ℕ → ℕ) : Option (List PostedWr) :=
  handed r (fun _ => noWait) 0 b mem []

/-- `HandleRequest`. -/
def slowPath (b : Buffer) (mem : ℕ → ℕ) (attempts : List Attempt) : Option (List PostedWr) :=
  handed r (fun qp => waitTokens (r.tokenbucket qp)) 4 b mem attempts

section Client

variable {ud : Bool} {mr : ℕ → ℕ}

structure Written (ud : Bool) (mr : ℕ → ℕ) (c : ClientCursor) (ws : List SendWr) (mem : ℕ → ℕ) :
    Prop where
  wrs : Records 128 mem c.wr (ws.map SendWr.cells)
  sges : Records 16 mem c.sge (ws.flatMap fun w => w.sges.map fun g => sgeCells (clientSge mr g))
  ahs : ud = true → ∀ (i : ℕ) (w : SendWr), ws[i]? = some w → mem (c.ah+4*i) = w.ahHandle
  frame : ∀ a, (a < c.wr ∨ c.wr+128*ws.length ≤ a) →
    (a < c.sge ∨ c.sge+16*sgeCount ws ≤ a) → a < c.ah → mem a = c.mem a

theorem copyWr_frame (c : ClientCursor) (w : SendWr) (a : ℕ) (hwr : a < c.wr ∨ c.wr+128 ≤ a)
    (hsge : a < c.sge ∨ c.sge+16*w.sges.length ≤ a) (hah : ud = true → a ≠ c.ah) :
    (copyWr ud mr c w).mem a = c.mem a := by
  simp only [copyWr]
  rw [blitAll_of_not _ _ _ (by simpa using hsge)]
  cases ud with
  | true => rw [if_pos rfl,Function.update_of_ne (hah rfl),blit_of_not _ _ _ _ hwr]
  | false => exact blit_of_not _ _ _ _ hwr

theorem copyWr_record (ud : Bool) (mr : ℕ → ℕ) (c : ClientCursor) (w : SendWr)
    (hsge : c.wr+128 ≤ c.sge) (hah : c.wr+128 ≤ c.ah) : Record 128 (copyWr ud mr c w).mem c.wr w.cells := by
  apply (blit_record c.mem c.wr 128 w.cells).congr
  intro a hlo hhi
  simp only [copyWr]
  rw [blitAll_of_not _ _ _ (Or.inl (by omega))]
  cases ud with
  | true => rw [if_pos rfl,Function.update_of_ne (by omega)]
  | false => rfl

theorem copyWr_ah (c : ClientCursor) (w : SendWr) (hah : c.sge+16*w.sges.length ≤ c.ah) :
    (copyWr true mr c w).mem c.ah = w.ahHandle := by
  simp only [copyWr,if_true]
  rw [blitAll_of_not _ _ _ (Or.inr (by simpa using hah)),Function.update_self]

theorem sgeCount_cons (w : SendWr) (ws : List SendWr) :
    sgeCount (w::ws) = w.sges.length+sgeCount ws := by simp [sgeCount]

theorem copyWr_ah_le (ud : Bool) (mr : ℕ → ℕ) (c : ClientCursor) (w : SendWr) :
    c.ah ≤ (copyWr ud mr c w).ah := by
  simp only [copyWr]
  split <;> omega

/-- One round before the rounds for `ws`, which end in `mem`. -/
theorem Written.cons {c : ClientCursor} {w : SendWr} {ws : List SendWr} {mem : ℕ → ℕ}
    (hsge : c.wr+128*ws.length+128 ≤ c.sge)
    (hah : c.sge+(16*w.sges.length+16*sgeCount ws) ≤ c.ah)
    (hrest : Written ud mr (copyWr ud mr c w) ws mem) : Written ud mr c (w::ws) mem := by
  have hnext := copyWr_ah_le ud mr c w
  -- what the first round wrote, the later rounds leave alone
  have hkept : ∀ a, (a < c.wr+128 ∨ c.wr+128+128*ws.length ≤ a) →
      (a < c.sge+16*w.sges.length ∨ c.sge+16*w.sges.length+16*sgeCount ws ≤ a) →
      a < (copyWr ud mr c w).ah → mem a = (copyWr ud mr c w).mem a := hrest.frame
  constructor
  · refine ⟨?_,hrest.wrs⟩
    apply (copyWr_record ud mr c w (by omega) (by omega)).congr
    intro a hlo hhi
    exact hkept a (by omega) (by omega) (by omega)
  · rw [List.flatMap_cons,records_append,List.length_map]
    refine ⟨?_,hrest.sges⟩
    apply (blitAll_records _ c.sge _).congr
    intro a hlo hhi
    rw [List.length_map] at hhi
    exact hkept a (by omega) (by omega) (by omega)
  · rintro rfl i v hv
    cases i with
    | zero =>
      obtain rfl : w = v := by simpa using hv
      have hah' : c.ah < (copyWr true mr c w).ah := Nat.lt_add_of_pos_right (by decide)
      exact (hkept c.ah (by omega) (by omega) hah').trans (copyWr_ah c w (by omega))
    | succ i =>
      have hcell := hrest.ahs rfl i v (by simpa using hv)
      have haddr : (copyWr true mr c w).ah+4*i = c.ah+4*(i+1) := by
        show c.ah+4+4*i = _
        omega
      rwa [haddr] at hcell
  · intro a hwr hsge' hlt
    rw [List.length_cons,Nat.mul_succ] at hwr
    rw [sgeCount_cons,Nat.mul_add] at hsge'
    exact (hkept a (by omega) (by omega) (by omega)).trans
      (copyWr_frame c w a (by omega) (by omega) fun _ => by omega)

/-- The copy loop writes the three arrays and nothing else below the address
handles. -/
theorem written_copyWrs (ud : Bool) (mr : ℕ → ℕ) (ws : List SendWr) (c : ClientCursor)
    (hsge : c.wr+128*ws.length ≤ c.sge) (hah : c.sge+16*sgeCount ws ≤ c.ah) :
    Written ud mr c ws (ws.foldl (copyWr ud mr) c).mem := by
  induction ws generalizing c with
  | nil => exact ⟨trivial,trivial,by simp,fun _ _ _ _ => rfl⟩
  | cons w ws ih =>
    rw [List.length_cons,Nat.mul_succ] at hsge
    rw [sgeCount_cons,Nat.mul_add] at hah
    rw [List.foldl_cons]
    apply Written.cons (by omega) hah
    apply ih
    · simp only [copyWr]
      omega
    · refine le_trans ?_ (copyWr_ah_le ud mr c w)
      simp only [copyWr]
      omega

end Client

section Sges

def routerSge (g : Sge) : Sge := {g with addr := (r.lkeyPtr g.lkey+g.addr)%2^64}

variable {r}

theorem fixSge_record {mem : ℕ → ℕ} {p : ℕ} {g : Sge} (h : Record 16 mem p (sgeCells g)) :
    Record 16 (fixSge r mem p) p (sgeCells (routerSge r g)) := by
  have haddr : mem p = g.addr := h 0 (by decide)
  have hlkey : mem (p+12) = g.lkey := h 12 (by decide)
  have hcells : sgeCells (routerSge r g) =
      Function.update (sgeCells g) 0 ((r.lkeyPtr (mem (p+12))+mem p)%2^64) := by
    funext k
    by_cases hk : k = 0
    · simp [hk,sgeCells,routerSge,haddr,hlkey]
    · simp [hk,sgeCells,routerSge]
  rw [hcells]
  exact h.update 0 _

theorem fixSges_records {wait : Wait} (gs : List Sge) (mem : ℕ → ℕ) (p : ℕ)
    (attempts : List Attempt) (done : (ℕ → ℕ) × List Attempt)
    (h : Records 16 mem p (gs.map sgeCells))
    (hdone : fixSges r wait gs.length mem p attempts = some done) :
    Records 16 done.1 p (gs.map fun g => sgeCells (routerSge r g)) ∧
    ∀ a, (a < p ∨ p+16*gs.length ≤ a) → done.1 a = mem a := by
  induction gs generalizing mem p attempts with
  | nil =>
    obtain rfl := Option.some.inj hdone
    exact ⟨trivial,fun _ _ => rfl⟩
  | cons g gs ih =>
    obtain ⟨rest,-,hrest⟩ := Option.bind_eq_some_iff.mp hdone
    have hout : ∀ a, a ≠ p → fixSge r mem p a = mem a :=
      fun a ha => Function.update_of_ne ha _ _
    have htail : Records 16 (fixSge r mem p) (p+16) (gs.map sgeCells) :=
      h.2.congr fun a hlo _ => hout a (by omega)
    obtain ⟨hrecords,hframe⟩ := ih (fixSge r mem p) (p+16) rest htail hrest
    constructor
    · refine ⟨(fixSge_record h.1).congr fun a _ hhi => hframe a (Or.inl hhi),hrecords⟩
    · intro a ha
      rw [List.length_cons,Nat.mul_succ] at ha
      rw [hframe a (by omega),hout a (by omega)]

theorem readSges_records (mem : ℕ → ℕ) (gs : List Sge) (p : ℕ)
    (h : Records 16 mem p (gs.map sgeCells)) : readSges mem gs.length p = gs := by
  induction gs generalizing p with
  | nil => rfl
  | cons g gs ih =>
    have haddr : mem p = g.addr := h.1 0 (by decide)
    have hlength : mem (p+8) = g.length := h.1 8 (by decide)
    have hlkey : mem (p+12) = g.lkey := h.1 12 (by decide)
    rw [List.length_cons,readSges,ih (p+16) h.2,haddr,hlength,hlkey]

end Sges

section Requests

def preparedCells (cells : ℕ → ℕ) (next sgList : ℕ) : ℕ → ℕ :=
  let f := if OneSided (cells 28) then
    Function.update cells 40 (remoteAddr r (cells 48) (cells 40)) else cells
  Function.update (Function.update f 8 next) 16 sgList

def fixedCells (ud : Bool) (cells : ℕ → ℕ) (next sgList ah : ℕ) : ℕ → ℕ :=
  if ud then Function.update (preparedCells r cells next sgList) 40 ah
  else preparedCells r cells next sgList

variable {r} {wait : Wait} {ahStep : ℕ} {b : Buffer} {ud : Bool} {count : ℕ}

theorem fixRemote_record {mem : ℕ → ℕ} {wr : ℕ} {cells : ℕ → ℕ} (h : Record 128 mem wr cells) :
    Record 128 (fixRemote r mem wr) wr (if OneSided (cells 28) then
      Function.update cells 40 (remoteAddr r (cells 48) (cells 40)) else cells) := by
  rw [fixRemote,h 28 (by decide),h 48 (by decide),h 40 (by decide)]
  split
  · exact h.update 40 _
  · exact h

theorem fixRemote_of_not (mem : ℕ → ℕ) (wr a : ℕ) (ha : a ≠ wr+40) :
    fixRemote r mem wr a = mem a := by
  rw [fixRemote]
  split
  · exact Function.update_of_ne ha _ _
  · rfl

def sgList (b : Buffer) (sge : ℕ) (w : SendWr) : ℕ :=
  if 0 < w.sges.length then b.addr+sge else 0

theorem prepareWr_num {mem : ℕ → ℕ} {i : ℕ} (sge : ℕ) {w : SendWr}
    (h : Record 128 mem (32+128*i) w.cells) :
    prepareWr r b count i sge mem (32+128*i+24) = w.sges.length := by
  simp only [prepareWr,linkWr]
  rw [Function.update_of_ne (by omega),Function.update_of_ne (by omega),
    fixRemote_of_not _ _ _ (by omega),h 24 (by decide),w.num_sge]

theorem prepareWr_record {mem : ℕ → ℕ} {i : ℕ} (sge : ℕ) {w : SendWr}
    (h : Record 128 mem (32+128*i) w.cells) :
    Record 128 (prepareWr r b count i sge mem) (32+128*i)
      (preparedCells r w.cells (nextPtr b count i) (sgList b sge w)) := by
  have hnum : prepareWr r b count i sge mem (32+128*i+24) = w.sges.length := prepareWr_num sge h
  have hnexted := (fixRemote_record (r := r) h).update 8 (nextPtr b count i)
  simp only [prepareWr,linkWr] at hnum ⊢
  rw [Function.update_of_ne (by omega)] at hnum
  rw [hnum]
  exact hnexted.update 16 _

theorem prepareWr_of_not (mem : ℕ → ℕ) (i sge a : ℕ) (ha : a < 32+128*i ∨ 32+128*i+128 ≤ a) :
    prepareWr r b count i sge mem a = mem a := by
  simp only [prepareWr,linkWr]
  rw [Function.update_of_ne (by omega),Function.update_of_ne (by omega),
    fixRemote_of_not _ _ _ (by omega)]

/-- The cursor stands before request number `i` of `count`; the requests from
there on are `ws`. -/
structure Layout (count i : ℕ) (c : Cursor) (ws : List SendWr) : Prop where
  total : i+ws.length = count
  wrs : Records 128 c.mem (32+128*i) (ws.map SendWr.cells)
  sges : Records 16 c.mem c.sge (ws.flatMap fun w => w.sges.map sgeCells)
  wr_end : 32+128*count ≤ c.sge
  sge_end : c.sge+16*sgeCount ws ≤ c.ah

theorem Layout.head {i : ℕ} {c : Cursor} {w : SendWr} {ws : List SendWr}
    (h : Layout count i c (w::ws)) : Records 16 c.mem c.sge (w.sges.map sgeCells) := by
  have hsges := h.sges
  rw [List.flatMap_cons,records_append] at hsges
  exact hsges.1

theorem Layout.bounds {i : ℕ} {c : Cursor} {w : SendWr} {ws : List SendWr}
    (h : Layout count i c (w::ws)) : i+ws.length+1 = count ∧
      c.sge+16*w.sges.length+16*sgeCount ws ≤ c.ah := by
  have hcount := h.total
  have hend := h.sge_end
  rw [List.length_cons] at hcount
  rw [sgeCount_cons] at hend
  omega

structure Fixed (r : Router) (ahStep : ℕ) (b : Buffer) (ud : Bool) (count i : ℕ) (c : Cursor)
    (w : SendWr) (c' : Cursor) : Prop where
  record : Record 128 c'.mem (32+128*i) (fixedCells r ud w.cells (nextPtr b count i)
    (sgList b c.sge w) (r.ahMap (c.mem c.ah)))
  sges : Records 16 c'.mem c.sge (w.sges.map fun g => sgeCells (routerSge r g))
  frame : ∀ a, (a < 32+128*i ∨ 32+128*i+128 ≤ a) →
    (a < c.sge ∨ c.sge+16*w.sges.length ≤ a) → c'.mem a = c.mem a
  sge : c'.sge = c.sge+16*w.sges.length
  ah : c'.ah = if ud then c.ah+ahStep else c.ah

theorem fixWr_fixed (i : ℕ) (c c' : Cursor) (w : SendWr) (ws : List SendWr)
    (hlayout : Layout count i c (w::ws)) (h : fixWr r wait ahStep b ud count i c = some c') :
    Fixed r ahStep b ud count i c w c' := by
  obtain ⟨done,hdone,rfl⟩ := Option.map_eq_some_iff.mp h
  obtain ⟨hrecord,-⟩ := hlayout.wrs
  obtain ⟨hcount,hend⟩ := hlayout.bounds
  have hwr := hlayout.wr_end
  have hnum : prepareWr r b count i c.sge c.mem (32+128*i+24) = w.sges.length :=
    prepareWr_num c.sge hrecord
  rw [hnum] at hdone
  obtain ⟨hdoneSges,hframe⟩ := fixSges_records w.sges _ c.sge c.attempts done
    (hlayout.head.congr fun a hlo _ => prepareWr_of_not c.mem i c.sge a (by omega)) hdone
  have hdoneRecord := (prepareWr_record c.sge hrecord).congr
    fun a _ hhi => hframe a (Or.inl (by omega))
  have hcell : done.1 c.ah = c.mem c.ah := by
    rw [hframe c.ah (Or.inr (by omega)),prepareWr_of_not c.mem i c.sge c.ah (by omega)]
  refine ⟨?_,?_,?_,by rw [hnum],rfl⟩
  · cases ud with
    | true =>
      simp only [fixedCells,if_true,hcell]
      exact hdoneRecord.update 40 _
    | false => exact hdoneRecord
  · refine hdoneSges.congr fun a hlo _ => ?_
    cases ud with
    | true => exact Function.update_of_ne (by omega) _ _
    | false => rfl
  · intro a hwr' hsge
    have hkept : done.1 a = c.mem a :=
      (hframe a hsge).trans (prepareWr_of_not c.mem i c.sge a hwr')
    cases ud with
    | true => exact (Function.update_of_ne (by omega) _ _).trans hkept
    | false => exact hkept

theorem Fixed.tail {i : ℕ} {c mid : Cursor} {w : SendWr} {ws : List SendWr}
    (h : Fixed r ahStep b ud count i c w mid) (hlayout : Layout count i c (w::ws)) :
    Layout count (i+1) mid ws := by
  obtain ⟨hcount,hend⟩ := hlayout.bounds
  have hwr := hlayout.wr_end
  have hsges := hlayout.sges
  rw [List.flatMap_cons,records_append,List.length_map] at hsges
  constructor
  · omega
  · apply hlayout.wrs.2.congr
    intro a hlo hhi
    rw [List.length_map] at hhi
    exact h.frame a (by omega) (by omega)
  · rw [h.sge]
    exact hsges.2.congr fun a hlo _ => h.frame a (by omega) (by omega)
  · rw [h.sge]
    omega
  · rw [h.sge,h.ah]
    split <;> omega

variable (r) in
/-- A request as the driver gets it when the handle `ah` is looked up for it. -/
def postedWr (ud : Bool) (w : SendWr) (ah : ℕ) : PostedWr :=
  ⟨scalarFields.map (fixedCells r ud w.cells 0 0 (r.ahMap ah)),w.sges.map (routerSge r)⟩

variable (r) in
/-- The requests with the handles found at `ah`, `ah+ahStep`, and so on. -/
def postedWrs (ud : Bool) (ahStep : ℕ) (mem : ℕ → ℕ) : ℕ → List SendWr → List PostedWr
  | _, [] => []
  | ah, w::ws =>
    postedWr r ud w (mem ah)::postedWrs ud ahStep mem (if ud then ah+ahStep else ah) ws

theorem postedWrs_congr (ws : List SendWr) (mem mem' : ℕ → ℕ) (ah : ℕ)
    (h : ∀ a, ah ≤ a → mem' a = mem a) :
    postedWrs r ud ahStep mem' ah ws = postedWrs r ud ahStep mem ah ws := by
  induction ws generalizing ah with
  | nil => rfl
  | cons w ws ih =>
    rw [postedWrs,postedWrs,h ah (le_refl ah),ih]
    intro a ha
    apply h a
    split at ha <;> omega

theorem fixedCells_scalar (cells : ℕ → ℕ) (next sgList ah k : ℕ) (hnext : k ≠ 8) (hlist : k ≠ 16) :
    fixedCells r ud cells next sgList ah k = fixedCells r ud cells 0 0 ah k := by
  cases ud <;> simp [fixedCells,preparedCells,Function.update_apply,hnext,hlist]

theorem fixedCells_other (cells : ℕ → ℕ) (next sgList ah k : ℕ) (hnext : k ≠ 8) (hlist : k ≠ 16)
    (haddr : k ≠ 40) : fixedCells r ud cells next sgList ah k = cells k := by
  by_cases hop : OneSided (cells 28) <;> cases ud <;>
    simp [fixedCells,preparedCells,hnext,hlist,haddr,hop]

theorem readWr_fixed (mem : ℕ → ℕ) (wr sge next ah : ℕ) (w : SendWr)
    (hrecord : Record 128 mem wr (fixedCells r ud w.cells next (sgList b sge w) (r.ahMap ah)))
    (hsges : Records 16 mem sge (w.sges.map fun g => sgeCells (routerSge r g))) :
    readWr b mem wr = postedWr r ud w ah := by
  have hnum : mem (wr+24) = w.sges.length := by
    rw [hrecord 24 (by decide),fixedCells_other _ _ _ _ 24 (by decide) (by decide) (by decide),
      w.num_sge]
  have hlist : mem (wr+16) = sgList b sge w := by
    rw [hrecord 16 (by decide)]
    cases ud <;> simp [fixedCells,preparedCells]
  rw [readWr,postedWr,hnum,hlist]
  congr 1
  · apply List.map_congr_left
    intro k hk
    have hbound : k < 128 ∧ k ≠ 8 ∧ k ≠ 16 := by
      revert k
      decide
    rw [hrecord k hbound.1,fixedCells_scalar _ _ _ _ k hbound.2.1 hbound.2.2]
  · by_cases hpos : 0 < w.sges.length
    · rw [sgList,if_pos hpos,Nat.add_sub_cancel_left]
      have hread := readSges_records mem (w.sges.map (routerSge r)) sge
        (by rw [List.map_map]; exact hsges)
      rwa [List.length_map] at hread
    · have hnil : w.sges = [] := List.length_eq_zero_iff.mp (by omega)
      simp [hnil,readSges]

theorem nextPtr_eq (b : Buffer) (i n : ℕ) (hcount : i+n+1 = count) :
    nextPtr b count i = if n = 0 then 0 else b.addr+(32+128*(i+1)) := by
  rw [nextPtr]
  by_cases hlast : n = 0
  · rw [if_pos hlast,if_pos (by omega)]
  · rw [if_neg hlast,if_neg (by omega)]

/-- The driver finds a repaired request in any memory that keeps its record
and its sges. -/
theorem Fixed.read {i : ℕ} {c mid : Cursor} {w : SendWr} {mem : ℕ → ℕ}
    (h : Fixed r ahStep b ud count i c w mid)
    (hwr : ∀ a, 32+128*i ≤ a → a < 32+128*i+128 → mem a = mid.mem a)
    (hsge : ∀ a, c.sge ≤ a → a < c.sge+16*w.sges.length → mem a = mid.mem a) :
    readWr b mem (32+128*i) = postedWr r ud w (c.mem c.ah) ∧
      mem (32+128*i+8) = nextPtr b count i := by
  constructor
  · apply readWr_fixed mem (32+128*i) c.sge
    · exact h.record.congr hwr
    · exact h.sges.congr fun a hlo hhi => hsge a hlo (by simpa using hhi)
  · rw [hwr _ (by omega) (by omega),h.record 8 (by decide)]
    cases ud <;> simp [fixedCells,preparedCells]

/-- The loop leaves a chain of the requests in order, each with its own sges
and with the handle that `ah` points at in its round. -/
theorem chain_fixWrs (ws : List SendWr) (i : ℕ) (c c' : Cursor) (hlayout : Layout count i c ws)
    (h : fixWrs r wait ahStep b ud count ws.length i c = some c') :
    (∀ a, (a < 32+128*i ∨ 32+128*count ≤ a) → (a < c.sge ∨ c.sge+16*sgeCount ws ≤ a) →
      c'.mem a = c.mem a) ∧
    chain b c'.mem (ws.length+1) (if ws.length = 0 then 0 else b.addr+(32+128*i)) =
      some (postedWrs r ud ahStep c.mem c.ah ws) := by
  induction ws generalizing i c with
  | nil =>
    obtain rfl := Option.some.inj h
    exact ⟨fun _ _ _ => rfl,rfl⟩
  | cons w ws ih =>
    obtain ⟨mid,hmid,hrest⟩ := Option.bind_eq_some_iff.mp h
    obtain ⟨hcount,hend⟩ := hlayout.bounds
    have hwr := hlayout.wr_end
    have hfixed := fixWr_fixed i c mid w ws hlayout hmid
    obtain ⟨hframe,hchain⟩ := ih (i+1) mid (hfixed.tail hlayout) hrest
    rw [hfixed.sge] at hframe
    obtain ⟨hread,hnext⟩ := hfixed.read (fun a hlo hhi => hframe a (by omega) (by omega))
      (fun a hlo hhi => hframe a (by omega) (by omega))
    constructor
    · intro a hwr' hsge
      rw [sgeCount_cons,Nat.mul_add] at hsge
      rw [hframe a (by omega) (by omega),hfixed.frame a (by omega) (by omega)]
    · -- the rounds so far have not touched the handles still to be read
      have hposted : postedWrs r ud ahStep mid.mem mid.ah ws =
          postedWrs r ud ahStep c.mem (if ud then c.ah+ahStep else c.ah) ws := by
        rw [← hfixed.ah]
        have hahle : c.ah ≤ mid.ah := by
          rw [hfixed.ah]
          split <;> omega
        exact postedWrs_congr ws c.mem mid.mem mid.ah fun a ha =>
          hfixed.frame a (by omega) (by omega)
      have hptr : b.addr+(32+128*i) ≠ 0 := by
        have := b.nonnull
        omega
      rw [List.length_cons,if_neg (Nat.succ_ne_zero _),chain,if_neg hptr,Nat.add_sub_cancel_left,
        hnext,nextPtr_eq b i ws.length hcount,hchain,Option.map_some,hread,hposted]
      rfl

theorem postedWr_ah_iff (w : SendWr) (ah ah' : ℕ) :
    postedWr r ud w ah = postedWr r ud w ah' ↔ (ud = true → r.ahMap ah = r.ahMap ah') := by
  cases ud with
  | false => simp [postedWr,fixedCells]
  | true =>
    constructor
    · intro h _
      have hscalars := congrArg PostedWr.scalars h
      have hcell := List.map_inj_left.mp hscalars 40 (by decide)
      simpa [fixedCells] using hcell
    · intro h
      rw [postedWr,postedWr,h rfl]

theorem postedWrs_advancing (ws : List SendWr) (mem : ℕ → ℕ) (ah : ℕ)
    (h : ud = true → ∀ (i : ℕ) (w : SendWr), ws[i]? = some w → mem (ah+4*i) = w.ahHandle) :
    postedWrs r ud 4 mem ah ws = ws.map fun w => postedWr r ud w w.ahHandle := by
  induction ws generalizing ah with
  | nil => rfl
  | cons w ws ih =>
    have hfirst : postedWr r ud w (mem ah) = postedWr r ud w w.ahHandle := by
      apply (postedWr_ah_iff w _ _).mpr
      intro hud
      rw [← h hud 0 w rfl,Nat.mul_zero,Nat.add_zero]
    rw [postedWrs,hfirst,List.map_cons,ih]
    intro hud i v hv
    rw [if_pos hud,← h hud (i+1) v (by simpa using hv)]
    congr 1
    omega

end Requests

section Waiting

variable {r} {wait : Wait} {ahStep : ℕ} {b : Buffer} {ud : Bool} {count : ℕ}

def Granted (wait : Wait) (feed : ℕ → List Attempt) (gs : List Sge) : Prop :=
  ∀ g ∈ gs, ∀ rest, wait g.length (feed g.length++rest) = some rest

def feeds (feed : ℕ → List Attempt) (gs : List Sge) : List Attempt :=
  gs.flatMap fun g => feed g.length

theorem fixSges_granted (feed : ℕ → List Attempt) (gs : List Sge) (hgrant : Granted wait feed gs)
    (mem : ℕ → ℕ) (p : ℕ) (h : Records 16 mem p (gs.map sgeCells)) (rest : List Attempt) :
    ∃ mem', fixSges r wait gs.length mem p (feeds feed gs++rest) = some (mem',rest) := by
  induction gs generalizing mem p with
  | nil => exact ⟨mem,rfl⟩
  | cons g gs ih =>
    have hlength : mem (p+8) = g.length := h.1 8 (by decide)
    have htail : Records 16 (fixSge r mem p) (p+16) (gs.map sgeCells) :=
      h.2.congr fun a hlo _ => Function.update_of_ne (by omega) _ _
    obtain ⟨mem',hdone⟩ := ih (fun g hg => hgrant g (List.mem_cons_of_mem _ hg)) _ _ htail
    refine ⟨mem',?_⟩
    rw [List.length_cons,fixSges,feeds,List.flatMap_cons,List.append_assoc,hlength,
      hgrant g List.mem_cons_self]
    exact hdone

theorem fixWr_granted (feed : ℕ → List Attempt) (i : ℕ) (c : Cursor) (w : SendWr)
    (ws : List SendWr) (hgrant : Granted wait feed w.sges) (hlayout : Layout count i c (w::ws))
    (rest : List Attempt) (hattempts : c.attempts = feeds feed w.sges++rest) :
    ∃ c', fixWr r wait ahStep b ud count i c = some c' ∧ c'.attempts = rest := by
  obtain ⟨hcount,-⟩ := hlayout.bounds
  have hwr := hlayout.wr_end
  have hnum : prepareWr r b count i c.sge c.mem (32+128*i+24) = w.sges.length :=
    prepareWr_num c.sge hlayout.wrs.1
  obtain ⟨mem',hdone⟩ := fixSges_granted (r := r) feed w.sges hgrant
    (prepareWr r b count i c.sge c.mem) c.sge
    (hlayout.head.congr fun a hlo _ => prepareWr_of_not c.mem i c.sge a (by omega)) rest
  rw [← hattempts] at hdone
  simp only [fixWr,finishWr]
  rw [hnum,hdone]
  exact ⟨_,rfl,rfl⟩

theorem fixWrs_granted (feed : ℕ → List Attempt) (ws : List SendWr)
    (hgrant : ∀ w ∈ ws, Granted wait feed w.sges) (i : ℕ) (c : Cursor)
    (hlayout : Layout count i c ws)
    (hattempts : c.attempts = ws.flatMap fun w => feeds feed w.sges) :
    ∃ c', fixWrs r wait ahStep b ud count ws.length i c = some c' := by
  induction ws generalizing i c with
  | nil => exact ⟨c,rfl⟩
  | cons w ws ih =>
    have hround : ∃ mid, fixWr r wait ahStep b ud count i c = some mid ∧
        mid.attempts = ws.flatMap fun w => feeds feed w.sges :=
      fixWr_granted feed i c w ws (hgrant w List.mem_cons_self) hlayout _ hattempts
    obtain ⟨mid,hmid,hleft⟩ := hround
    obtain ⟨c',hrest⟩ := ih (fun w hw => hgrant w (List.mem_cons_of_mem _ hw)) (i+1) mid
      ((fixWr_fixed i c mid w ws hlayout hmid).tail hlayout) hleft
    exact ⟨c',by rw [List.length_cons,fixWrs,hmid,Option.bind_some,hrest]⟩

end Waiting

section Paths

def sentWr (mr : ℕ → ℕ) (w : SendWr) : SendWr :=
  ⟨w.cells,w.sges.map (clientSge mr),w.ahHandle,by rw [List.length_map,w.num_sge]⟩

theorem sgeCount_sent (mr : ℕ → ℕ) (ws : List SendWr) :
    sgeCount (ws.map (sentWr mr)) = sgeCount ws := by
  simp [sgeCount,sentWr,Function.comp_def]

variable {r} {mr : ℕ → ℕ}

/-- The body of a request: its counts and its three arrays. -/
structure Body (mr : ℕ → ℕ) (ud : Bool) (handle : ℕ) (ws : List SendWr) (mem : ℕ → ℕ) :
    Prop where
  handle : mem 16 = handle
  wr_count : mem 20 = ws.length
  sge_count : mem 24 = sgeCount ws
  wrs : Records 128 mem 32 ((ws.map (sentWr mr)).map SendWr.cells)
  sges : Records 16 mem (32+128*ws.length)
    ((ws.map (sentWr mr)).flatMap fun w => w.sges.map sgeCells)
  ahs : ud = true → ∀ (i : ℕ) (w : SendWr), (ws.map (sentWr mr))[i]? = some w →
    mem (32+128*ws.length+16*sgeCount ws+4*i) = w.ahHandle

theorem body_ibvCmdPostSend (mr : ℕ → ℕ) (ud : Bool) (mem : ℕ → ℕ) (handle : ℕ)
    (ws : List SendWr) : Body mr ud handle ws (ibvCmdPostSend ud mr mem handle ws) := by
  have hwritten := written_copyWrs ud mr ws
    ⟨Function.update (Function.update (Function.update mem 16 handle) 20 ws.length) 24
      (sgeCount ws),32,32+128*ws.length,32+128*ws.length+16*sgeCount ws⟩ (le_refl _) (le_refl _)
  have hheader : ∀ a < 32, ibvCmdPostSend ud mr mem handle ws a =
      Function.update (Function.update (Function.update mem 16 handle) 20 ws.length) 24
        (sgeCount ws) a := by
    intro a ha
    exact hwritten.frame a (Or.inl ha) (Or.inl (by show a < 32+128*ws.length; omega))
      (by show a < 32+128*ws.length+16*sgeCount ws; omega)
  constructor
  · rw [hheader 16 (by decide)]
    rfl
  · rw [hheader 20 (by decide)]
    rfl
  · rw [hheader 24 (by decide)]
    rfl
  · rw [List.map_map]
    exact hwritten.wrs
  · have hcells : (ws.map (sentWr mr)).flatMap (fun w => w.sges.map sgeCells) =
        ws.flatMap fun w => w.sges.map fun g => sgeCells (clientSge mr g) := by
      simp only [List.flatMap_map,sentWr,List.map_map]
      rfl
    rw [hcells]
    exact hwritten.sges
  · intro hud i w hw
    rw [List.getElem?_map,Option.map_eq_some_iff] at hw
    obtain ⟨v,hv,rfl⟩ := hw
    exact hwritten.ahs hud i v hv

variable {handle : ℕ} {ws : List SendWr} {body : ℕ → ℕ} {wait : ℕ → Wait} {ahStep : ℕ} {b : Buffer}

theorem Body.layout {ud : Bool} (h : Body mr ud handle ws body) (attempts : List Attempt) :
    Layout ws.length 0 ⟨body,32+128*ws.length,32+128*ws.length+16*sgeCount ws,attempts⟩
      (ws.map (sentWr mr)) :=
  ⟨by rw [List.length_map,Nat.zero_add],h.wrs,h.sges,le_refl _,by rw [sgeCount_sent]⟩

theorem handed_chain (hbody : Body mr (r.ud handle) handle ws body) (hne : ws ≠ [])
    (attempts : List Attempt) (posted : List PostedWr)
    (h : handed r wait ahStep b body attempts = some posted) :
    posted = postedWrs r (r.ud handle) ahStep body (32+128*ws.length+16*sgeCount ws)
      (ws.map (sentWr mr)) := by
  simp only [handed,hbody.handle,hbody.wr_count,hbody.sge_count] at h
  obtain ⟨c,hfix,hchain⟩ := Option.bind_eq_some_iff.mp h
  have hlength : (ws.map (sentWr mr)).length = ws.length := List.length_map _
  obtain ⟨-,hposted⟩ := chain_fixWrs (ws.map (sentWr mr)) 0
    ⟨body,32+128*ws.length,32+128*ws.length+16*sgeCount ws,attempts⟩ c (hbody.layout attempts)
    (by rwa [hlength])
  rw [hlength,if_neg (by simpa using hne)] at hposted
  exact Option.some.inj (hchain.symm.trans hposted)

theorem handed_granted (wait : ℕ → Wait) (ahStep : ℕ) (b : Buffer)
    (hbody : Body mr (r.ud handle) handle ws body) (hne : ws ≠ []) (feed : ℕ → List Attempt)
    (hgrant : ∀ w ∈ ws, Granted (wait handle) feed w.sges) :
    ∃ posted, handed r wait ahStep b body (ws.flatMap fun w => feeds feed w.sges) =
      some posted := by
  have hlength : (ws.map (sentWr mr)).length = ws.length := List.length_map _
  have hfeeds : ∀ w, feeds feed (sentWr mr w).sges = feeds feed w.sges := by
    intro w
    simp only [feeds,sentWr,List.flatMap_map,clientSge_length]
  have hfix : ∃ c, fixWrs r (wait handle) ahStep b (r.ud handle) ws.length
      (ws.map (sentWr mr)).length 0 ⟨body,32+128*ws.length,32+128*ws.length+16*sgeCount ws,
        ws.flatMap fun w => feeds feed w.sges⟩ = some c := by
    apply fixWrs_granted feed
    · intro v hv
      obtain ⟨w,hw,rfl⟩ := List.mem_map.mp hv
      intro g hg
      obtain ⟨g',hg',rfl⟩ := List.mem_map.mp hg
      rw [clientSge_length]
      exact hgrant w hw g' hg'
    · exact hbody.layout _
    · simp only [List.flatMap_map,hfeeds]
  obtain ⟨c,hc⟩ := hfix
  obtain ⟨-,hposted⟩ := chain_fixWrs _ 0 _ c (hbody.layout _) hc
  rw [hlength] at hc hposted
  rw [if_neg (by simpa using hne),Nat.mul_zero,Nat.add_zero] at hposted
  have hhanded : handed r wait ahStep b body (ws.flatMap fun w => feeds feed w.sges) =
      chain b c.mem (ws.length+1) (b.addr+32) := by
    simp only [handed,hbody.handle,hbody.wr_count,hbody.sge_count]
    rw [hc,Option.bind_some]
  exact ⟨_,hhanded.trans hposted⟩

/-- The attempts of a client alone on its bucket, one for each sge. -/
def burst (b : TokenBucket.Bucket) : ℕ → List Attempt := fun _ => [⟨b.timePerBurst,0⟩]

theorem granted_waitTokens (bucket : TokenBucket.Bucket) (gs : List Sge)
    (h : ∀ g ∈ gs, g.length*bucket.timePerToken ≤ bucket.timePerBurst) :
    Granted (waitTokens bucket) (burst bucket) gs := by
  intro g hg rest
  simp [burst,waitTokens,TokenBucket.consume_burst bucket g.length (h g hg)]

theorem slowPath_eq (hbody : Body mr (r.ud handle) handle ws body) (hne : ws ≠ [])
    (attempts : List Attempt) (posted : List PostedWr)
    (h : slowPath r b body attempts = some posted) :
    posted = (ws.map (sentWr mr)).map fun v => postedWr r (r.ud handle) v v.ahHandle := by
  rw [handed_chain hbody hne attempts posted h]
  exact postedWrs_advancing _ body _ hbody.ahs

end Paths

/-- QP 0 is RC, QP 1 is UD; every handle denotes itself. -/
def demoRouter : Router where
  ud := fun handle => handle == 1
  rkeyMrShm := fun _ => none
  lkeyPtr := fun _ => 4096
  ahMap := id
  tokenbucket := fun _ =>
    TokenBucket.create TokenBucket.maxQpRateLimit TokenBucket.burstPerQp

/-- The same with one entry for every rkey. -/
def mappedRouter (e : RemoteMapping.MrShm) : Router := {demoRouter with rkeyMrShm := fun _ => some e}

def demoBuffer : Buffer := ⟨8192,by decide⟩

def oneSge : SendWr where
  cells := fun k => if k = 24 then 1 else if k = 28 then 2 else 0
  sges := [⟨64,8,5⟩]
  ahHandle := 0
  num_sge := rfl

def datagram (ahHandle : ℕ) : SendWr where
  cells := fun k => if k = 28 then 2 else 0
  sges := []
  ahHandle := ahHandle
  num_sge := rfl

end FreeFlow.PostSend
