import FreeFlow.PostSend

/-!
# Work-request lists from the client to `HandleRequest`

`ibv_cmd_post_recv` and `ibv_cmd_post_srq_recv` lay out a command, an array of
receive requests and an array of sges. The router repairs the pointers in place
and hands the first request over. The branches for receives differ in one
point: `HandleRequest` leaves the `sg_list` of an SRQ receive without sges as
the client wrote it.

Offsets. `ibv_post_recv` and `ibv_post_srq_recv` (32 bytes): handle 16,
`wr_count` 20, `sge_count` 24. `ibv_recv_wr` (32 bytes): `wr_id` 0, `next` 8,
`sg_list` 16, `num_sge` 24.
-/

set_option autoImplicit false

namespace FreeFlow.PostRecv

open CellRecords PostSend
open RegisteredMemory (Sge)

structure RecvWr where
  cells : ℕ → ℕ
  sges : List Sge
  num_sge : cells 24 = sges.length

structure RecvCursor where
  mem : ℕ → ℕ
  wr : ℕ
  sge : ℕ

/-- One round of the copy loop; `slot` is where the client has mapped the
command. -/
def copyRecvWr (mr : ℕ → ℕ) (slot : ℕ) (c : RecvCursor) (w : RecvWr) : RecvCursor :=
  let mem := blit c.mem c.wr 32 w.cells
  let mem := if w.sges.length ≠ 0 then Function.update mem (c.wr+16) (slot+c.sge) else mem
  { mem := blitAll 16 mem c.sge (w.sges.map fun g => sgeCells (clientSge mr g))
    wr := c.wr+32
    sge := c.sge+16*w.sges.length }

def recvSgeCount (ws : List RecvWr) : ℕ := (ws.map fun w => w.sges.length).sum

/-- The command of a receive; `handle` is the handle of the QP or the SRQ. -/
def layRecv (mr : ℕ → ℕ) (slot : ℕ) (mem : ℕ → ℕ) (handle : ℕ) (ws : List RecvWr) : ℕ → ℕ :=
  let mem := Function.update mem 16 handle
  let mem := Function.update mem 20 ws.length
  let mem := Function.update mem 24 (recvSgeCount ws)
  (ws.foldl (copyRecvWr mr slot) ⟨mem,32,32+32*ws.length⟩).mem

def ibvCmdPostRecv (mr : ℕ → ℕ) (slot : ℕ) (mem : ℕ → ℕ) (qpHandle : ℕ) (ws : List RecvWr) :
    ℕ → ℕ := layRecv mr slot mem qpHandle ws

def ibvCmdPostSrqRecv (mr : ℕ → ℕ) (slot : ℕ) (mem : ℕ → ℕ) (srqHandle : ℕ) (ws : List RecvWr) :
    ℕ → ℕ := layRecv mr slot mem srqHandle ws

section Router

variable (r : Router)

def fixRecvSges : ℕ → (ℕ → ℕ) → ℕ → ℕ → ℕ
  | 0, mem, _ => mem
  | n+1, mem, p => fixRecvSges n (fixSge r mem p) (p+16)

def recvNextPtr (b : Buffer) (count i : ℕ) : ℕ :=
  if count-1 ≤ i then 0 else b.addr+(32+32*(i+1))

structure FixCursor where
  mem : ℕ → ℕ
  sge : ℕ

/-- One round of the loop over the receive requests; `clears` tells whether
the branch has the `else` that stores NULL in `sg_list`. -/
def fixRecvWr (clears : Bool) (b : Buffer) (count i : ℕ) (c : FixCursor) : FixCursor :=
  let wr := 32+32*i
  let mem := Function.update c.mem (wr+8) (recvNextPtr b count i)
  let num := mem (wr+24)
  if 0 < num then
    ⟨fixRecvSges r num (Function.update mem (wr+16) (b.addr+c.sge)) c.sge,c.sge+16*num⟩
  else ⟨if clears then Function.update mem (wr+16) 0 else mem,c.sge⟩

def fixRecvWrs (clears : Bool) (b : Buffer) (count : ℕ) : ℕ → ℕ → FixCursor → FixCursor
  | 0, _, c => c
  | n+1, i, c => fixRecvWrs clears b count n (i+1) (fixRecvWr r clears b count i c)

def fixRecv (clears : Bool) (b : Buffer) (mem : ℕ → ℕ) : ℕ → ℕ :=
  (fixRecvWrs r clears b (mem 20) (mem 20) 0 ⟨mem,32+32*mem 20⟩).mem

def readRecvWr (b : Buffer) (mem : ℕ → ℕ) (wr : ℕ) : PostedWr :=
  ⟨[mem wr,mem (wr+24)],readSges mem (mem (wr+24)) (mem (wr+16)-b.addr)⟩

/-- The driver follows `next` from the request at `p`. -/
def recvChain (b : Buffer) (mem : ℕ → ℕ) (fuel p : ℕ) : Option (List PostedWr) :=
  (walk (fun p => mem (p-b.addr+8)) fuel p).map (List.map fun p => readRecvWr b mem (p-b.addr))

def handedRecv (clears : Bool) (b : Buffer) (mem : ℕ → ℕ) : Option (List PostedWr) :=
  recvChain b (fixRecv r clears b mem) (mem 20+1) (b.addr+32)

/-- What `HandleRequest` hands to `ibv_post_recv`. -/
def postRecv (b : Buffer) (mem : ℕ → ℕ) : Option (List PostedWr) := handedRecv r true b mem

/-- What `HandleRequest` hands to `ibv_post_srq_recv`. -/
def postSrqRecv (b : Buffer) (mem : ℕ → ℕ) : Option (List PostedWr) := handedRecv r false b mem

end Router

section Client

variable {mr : ℕ → ℕ} {slot : ℕ}

theorem recvSgeCount_cons (w : RecvWr) (ws : List RecvWr) :
    recvSgeCount (w::ws) = w.sges.length+recvSgeCount ws := by simp [recvSgeCount]

/-- The cells of a request as the client leaves them: `sg_list` is the
client's own pointer where there are sges. -/
def laidCells (slot sge : ℕ) (w : RecvWr) : ℕ → ℕ :=
  if w.sges.length ≠ 0 then Function.update w.cells 16 (slot+sge) else w.cells

theorem laidCells_other (slot sge : ℕ) (w : RecvWr) (k : ℕ) (hk : k ≠ 16) :
    laidCells slot sge w k = w.cells k := by
  unfold laidCells
  split
  · exact Function.update_of_ne hk _ _
  · rfl

def laidWrs (slot : ℕ) : ℕ → List RecvWr → List (ℕ → ℕ)
  | _, [] => []
  | sge, w::ws => laidCells slot sge w::laidWrs slot (sge+16*w.sges.length) ws

theorem laidWrs_length (sge : ℕ) (ws : List RecvWr) : (laidWrs slot sge ws).length = ws.length := by
  induction ws generalizing sge with
  | nil => rfl
  | cons w ws ih => rw [laidWrs,List.length_cons,List.length_cons,ih]

theorem copyRecvWr_mem (c : RecvCursor) (w : RecvWr) :
    (copyRecvWr mr slot c w).mem = blitAll 16 (blit c.mem c.wr 32 (laidCells slot c.sge w)) c.sge
      (w.sges.map fun g => sgeCells (clientSge mr g)) := by
  simp only [copyRecvWr,laidCells]
  split
  · congr 1
    funext a
    by_cases ha : a = c.wr+16
    · rw [ha,Function.update_self,blit,if_pos ⟨by omega,by omega⟩,Nat.add_sub_cancel_left,
        Function.update_self]
    · rw [Function.update_of_ne ha,blit,blit]
      split
      · rw [Function.update_of_ne (by omega)]
      · rfl
  · rfl

structure Laid (mr : ℕ → ℕ) (slot : ℕ) (c : RecvCursor) (ws : List RecvWr) (mem : ℕ → ℕ) :
    Prop where
  wrs : Records 32 mem c.wr (laidWrs slot c.sge ws)
  sges : Records 16 mem c.sge (ws.flatMap fun w => w.sges.map fun g => sgeCells (clientSge mr g))
  frame : ∀ a, (a < c.wr ∨ c.wr+32*ws.length ≤ a) →
    (a < c.sge ∨ c.sge+16*recvSgeCount ws ≤ a) → mem a = c.mem a

theorem laid_copyRecvWrs (mr : ℕ → ℕ) (slot : ℕ) (ws : List RecvWr) (c : RecvCursor)
    (hsge : c.wr+32*ws.length ≤ c.sge) :
    Laid mr slot c ws (ws.foldl (copyRecvWr mr slot) c).mem := by
  induction ws generalizing c with
  | nil => exact ⟨trivial,trivial,fun _ _ _ => rfl⟩
  | cons w ws ih =>
    rw [List.length_cons,Nat.mul_succ] at hsge
    rw [List.foldl_cons]
    have hrest := ih (copyRecvWr mr slot c w) (by simp only [copyRecvWr]; omega)
    generalize ws.foldl (copyRecvWr mr slot) (copyRecvWr mr slot c w) = done at hrest ⊢
    -- what the first round wrote, the later rounds leave alone
    have hkept : ∀ a, (a < c.wr+32 ∨ c.wr+32+32*ws.length ≤ a) →
        (a < c.sge+16*w.sges.length ∨ c.sge+16*w.sges.length+16*recvSgeCount ws ≤ a) →
        done.mem a = (copyRecvWr mr slot c w).mem a := hrest.frame
    rw [copyRecvWr_mem] at hkept
    constructor
    · refine ⟨?_,hrest.wrs⟩
      apply (blit_record c.mem c.wr 32 (laidCells slot c.sge w)).congr
      intro a hlo hhi
      rw [hkept a (by omega) (by omega),blitAll_of_not _ _ _ (Or.inl (by omega))]
    · rw [List.flatMap_cons,records_append,List.length_map]
      refine ⟨?_,hrest.sges⟩
      apply (blitAll_records _ c.sge _).congr
      intro a hlo hhi
      rw [List.length_map] at hhi
      exact hkept a (by omega) (by omega)
    · intro a hwr hsge'
      rw [List.length_cons,Nat.mul_succ] at hwr
      rw [recvSgeCount_cons,Nat.mul_add] at hsge'
      rw [hkept a (by omega) (by omega),
        blitAll_of_not _ _ _ (by rw [List.length_map]; omega),blit_of_not _ _ _ _ (by omega)]

end Client

section Requests

variable {r : Router} {b : Buffer} {count : ℕ}

theorem fixSges_noWait (n : ℕ) (mem : ℕ → ℕ) (p : ℕ) (attempts : List Attempt) :
    fixSges r noWait n mem p attempts = some (fixRecvSges r n mem p,attempts) := by
  induction n generalizing mem p with
  | zero => rfl
  | succ n ih =>
    rw [fixSges,fixRecvSges,noWait,Option.bind_some]
    exact ih _ _

/-- What a memory holds for request number `i` when its sges stand at `sge`. -/
structure Repaired (r : Router) (b : Buffer) (count i sge : ℕ) (w : RecvWr) (mem : ℕ → ℕ) :
    Prop where
  wr_id : mem (32+32*i) = w.cells 0
  next : mem (32+32*i+8) = recvNextPtr b count i
  num_sge : mem (32+32*i+24) = w.sges.length
  sg_list : w.sges ≠ [] → mem (32+32*i+16) = b.addr+sge
  sges : Records 16 mem sge (w.sges.map fun g => sgeCells (routerSge r g))

theorem Repaired.congr {i sge : ℕ} {w : RecvWr} {mem mem' : ℕ → ℕ}
    (h : Repaired r b count i sge w mem)
    (hwr : ∀ a, 32+32*i ≤ a → a < 32+32*i+32 → mem' a = mem a)
    (hsge : ∀ a, sge ≤ a → a < sge+16*w.sges.length → mem' a = mem a) :
    Repaired r b count i sge w mem' := by
  constructor
  · rw [hwr _ (by omega) (by omega),h.wr_id]
  · rw [hwr _ (by omega) (by omega),h.next]
  · rw [hwr _ (by omega) (by omega),h.num_sge]
  · intro hne
    rw [hwr _ (by omega) (by omega),h.sg_list hne]
  · exact h.sges.congr fun a hlo hhi => hsge a hlo (by simpa using hhi)

def postedRecv (r : Router) (w : RecvWr) : PostedWr :=
  ⟨[w.cells 0,w.sges.length],w.sges.map (routerSge r)⟩

theorem Repaired.read {i sge : ℕ} {w : RecvWr} {mem : ℕ → ℕ}
    (h : Repaired r b count i sge w mem) : readRecvWr b mem (32+32*i) = postedRecv r w := by
  rw [readRecvWr,postedRecv,h.wr_id,h.num_sge]
  congr 1
  by_cases hne : w.sges = []
  · simp [hne,readSges]
  · have hread := readSges_records mem (w.sges.map (routerSge r)) sge
      (by rw [List.map_map]; exact h.sges)
    rwa [List.length_map,← Nat.add_sub_cancel_left b.addr sge,← h.sg_list hne] at hread

/-- The cursor stands before request number `i` of `count`; the requests from
there on are `ws`. -/
structure RecvLayout (slot count i : ℕ) (c : FixCursor) (ws : List RecvWr) : Prop where
  total : i+ws.length = count
  wrs : Records 32 c.mem (32+32*i) (laidWrs slot c.sge ws)
  sges : Records 16 c.mem c.sge (ws.flatMap fun w => w.sges.map sgeCells)
  wr_end : 32+32*count ≤ c.sge

structure FixedRecv (r : Router) (b : Buffer) (count i : ℕ) (c : FixCursor) (w : RecvWr)
    (c' : FixCursor) : Prop where
  repaired : Repaired r b count i c.sge w c'.mem
  frame : ∀ a, (a < 32+32*i ∨ 32+32*i+32 ≤ a) →
    (a < c.sge ∨ c.sge+16*w.sges.length ≤ a) → c'.mem a = c.mem a
  sge : c'.sge = c.sge+16*w.sges.length

/-- The request after its `next` is written. -/
structure Linked (b : Buffer) (count i : ℕ) (c : FixCursor) (w : RecvWr) (mem : ℕ → ℕ) : Prop where
  wr_id : mem (32+32*i) = w.cells 0
  next : mem (32+32*i+8) = recvNextPtr b count i
  num_sge : mem (32+32*i+24) = w.sges.length
  frame : ∀ a, (a < 32+32*i ∨ 32+32*i+32 ≤ a) → mem a = c.mem a
  sges : Records 16 mem c.sge (w.sges.map sgeCells)
  wr_end : 32+32*i+32 ≤ c.sge

theorem RecvLayout.linked {slot i : ℕ} {c : FixCursor} {w : RecvWr} {ws : List RecvWr}
    (h : RecvLayout slot count i c (w::ws)) :
    Linked b count i c w (Function.update c.mem (32+32*i+8) (recvNextPtr b count i)) := by
  have hcount := h.total
  have hwr := h.wr_end
  rw [List.length_cons] at hcount
  obtain ⟨hrecord,-⟩ := h.wrs
  have hsges := h.sges
  rw [List.flatMap_cons,records_append] at hsges
  have hcell : ∀ k, k < 32 → k ≠ 8 → k ≠ 16 →
      Function.update c.mem (32+32*i+8) (recvNextPtr b count i) (32+32*i+k) = w.cells k := by
    intro k hk hnext hlist
    rw [Function.update_of_ne (by omega),hrecord k hk,laidCells_other slot c.sge w k hlist]
  have hframe : ∀ a, (a < 32+32*i ∨ 32+32*i+32 ≤ a) →
      Function.update c.mem (32+32*i+8) (recvNextPtr b count i) a = c.mem a :=
    fun a ha => Function.update_of_ne (by omega) _ _
  exact ⟨hcell 0 (by decide) (by decide) (by decide),Function.update_self _ _ _,
    (hcell 24 (by decide) (by decide) (by decide)).trans w.num_sge,hframe,
    hsges.1.congr fun a hlo _ => hframe a (by omega),by omega⟩

theorem Linked.fixed_sges {i : ℕ} {c : FixCursor} {w : RecvWr} {mem : ℕ → ℕ}
    (h : Linked b count i c w mem) :
    FixedRecv r b count i c w
      ⟨fixRecvSges r w.sges.length (Function.update mem (32+32*i+16) (b.addr+c.sge)) c.sge,
        c.sge+16*w.sges.length⟩ := by
  have hwr := h.wr_end
  have hother : ∀ a, a ≠ 32+32*i+16 →
      Function.update mem (32+32*i+16) (b.addr+c.sge) a = mem a :=
    fun a ha => Function.update_of_ne ha _ _
  obtain ⟨hrecords,hframe⟩ := fixSges_records w.sges
    (Function.update mem (32+32*i+16) (b.addr+c.sge)) c.sge []
    (fixRecvSges r w.sges.length (Function.update mem (32+32*i+16) (b.addr+c.sge)) c.sge,[])
    (h.sges.congr fun a hlo _ => hother a (by omega)) (fixSges_noWait w.sges.length _ c.sge [])
  have hkept : ∀ a, a < c.sge → a ≠ 32+32*i+16 → fixRecvSges r w.sges.length
      (Function.update mem (32+32*i+16) (b.addr+c.sge)) c.sge a = mem a :=
    fun a ha hne => (hframe a (Or.inl ha)).trans (hother a hne)
  refine ⟨⟨?_,?_,?_,?_,hrecords⟩,?_,rfl⟩
  · exact (hkept _ (by omega) (by omega)).trans h.wr_id
  · exact (hkept _ (by omega) (by omega)).trans h.next
  · exact (hkept _ (by omega) (by omega)).trans h.num_sge
  · intro _
    exact (hframe _ (Or.inl (by omega))).trans (Function.update_self _ _ _)
  · intro a hout hsge
    exact (hframe a hsge).trans ((hother a (by omega)).trans (h.frame a hout))

theorem Linked.fixed_empty {i : ℕ} {c : FixCursor} {w : RecvWr} {mem mem' : ℕ → ℕ}
    (h : Linked b count i c w mem) (hnil : w.sges = [])
    (hother : ∀ a, a ≠ 32+32*i+16 → mem' a = mem a) :
    FixedRecv r b count i c w ⟨mem',c.sge⟩ := by
  refine ⟨⟨?_,?_,?_,fun hne => absurd hnil hne,?_⟩,?_,?_⟩
  · exact (hother _ (by omega)).trans h.wr_id
  · exact (hother _ (by omega)).trans h.next
  · exact (hother _ (by omega)).trans h.num_sge
  · rw [hnil]
    trivial
  · intro a hout _
    exact (hother a (by omega)).trans (h.frame a hout)
  · simp [hnil]

theorem fixRecvWr_fixed {slot : ℕ} (clears : Bool) (i : ℕ) (c : FixCursor) (w : RecvWr)
    (ws : List RecvWr) (hlayout : RecvLayout slot count i c (w::ws)) :
    FixedRecv r b count i c w (fixRecvWr r clears b count i c) := by
  have hlinked := hlayout.linked (b := b)
  simp only [fixRecvWr]
  rw [hlinked.num_sge]
  split
  · exact hlinked.fixed_sges
  · next hzero =>
    apply hlinked.fixed_empty (List.length_eq_zero_iff.mp (by omega))
    intro a ha
    split
    · exact Function.update_of_ne ha _ _
    · rfl

theorem FixedRecv.tail {slot i : ℕ} {c mid : FixCursor} {w : RecvWr} {ws : List RecvWr}
    (h : FixedRecv r b count i c w mid) (hlayout : RecvLayout slot count i c (w::ws)) :
    RecvLayout slot count (i+1) mid ws := by
  have hcount := hlayout.total
  have hwr := hlayout.wr_end
  rw [List.length_cons] at hcount
  have hsges := hlayout.sges
  rw [List.flatMap_cons,records_append,List.length_map] at hsges
  constructor
  · omega
  · rw [h.sge]
    apply hlayout.wrs.2.congr
    intro a hlo hhi
    rw [laidWrs_length] at hhi
    exact h.frame a (by omega) (by omega)
  · rw [h.sge]
    exact hsges.2.congr fun a hlo _ => h.frame a (by omega) (by omega)
  · rw [h.sge]
    omega

theorem recvNextPtr_eq (b : Buffer) (i n : ℕ) (hcount : i+n+1 = count) :
    recvNextPtr b count i = if n = 0 then 0 else b.addr+(32+32*(i+1)) := by
  rw [recvNextPtr]
  by_cases hlast : n = 0
  · rw [if_pos hlast,if_pos (by omega)]
  · rw [if_neg hlast,if_neg (by omega)]

/-- The loop leaves a chain of the requests in order, each with its own sges,
and touches nothing but the two arrays. -/
theorem recvChain_fixRecvWrs {slot : ℕ} (clears : Bool) (ws : List RecvWr) (i : ℕ) (c : FixCursor)
    (hlayout : RecvLayout slot count i c ws) :
    (∀ a, (a < 32+32*i ∨ 32+32*count ≤ a) → (a < c.sge ∨ c.sge+16*recvSgeCount ws ≤ a) →
      (fixRecvWrs r clears b count ws.length i c).mem a = c.mem a) ∧
    recvChain b (fixRecvWrs r clears b count ws.length i c).mem (ws.length+1)
      (if ws.length = 0 then 0 else b.addr+(32+32*i)) = some (ws.map (postedRecv r)) := by
  induction ws generalizing i c with
  | nil => exact ⟨fun _ _ _ => rfl,rfl⟩
  | cons w ws ih =>
    have hcount := hlayout.total
    have hwr := hlayout.wr_end
    rw [List.length_cons] at hcount
    have hfixed := fixRecvWr_fixed (r := r) (b := b) clears i c w ws hlayout
    rw [List.length_cons,fixRecvWrs]
    generalize fixRecvWr r clears b count i c = mid at hfixed ⊢
    obtain ⟨hframe,hchain⟩ := ih (i+1) mid (hfixed.tail hlayout)
    rw [hfixed.sge] at hframe
    have hrepaired := hfixed.repaired.congr (fun a hlo hhi => hframe a (by omega) (by omega))
      (fun a hlo hhi => hframe a (by omega) (by omega))
    constructor
    · intro a hwr' hsge
      rw [recvSgeCount_cons,Nat.mul_add] at hsge
      rw [hframe a (by omega) (by omega),hfixed.frame a (by omega) (by omega)]
    · have hptr : b.addr+(32+32*i) ≠ 0 := by
        have := b.nonnull
        omega
      rw [recvChain,Option.map_eq_some_iff] at hchain
      obtain ⟨ps,hwalk,hread⟩ := hchain
      rw [if_neg (Nat.succ_ne_zero _),recvChain,walk_succ _ _ _ hptr,Nat.add_sub_cancel_left,
        hrepaired.next,recvNextPtr_eq b i ws.length (by omega),hwalk,Option.map_some,
        Option.map_some,List.map_cons,hread,Nat.add_sub_cancel_left,hrepaired.read,List.map_cons]

end Requests

section Commands

variable {mr : ℕ → ℕ}

def sentRecv (mr : ℕ → ℕ) (w : RecvWr) : RecvWr :=
  ⟨w.cells,w.sges.map (clientSge mr),by rw [List.length_map,w.num_sge]⟩

theorem laidWrs_sent (slot sge : ℕ) (ws : List RecvWr) :
    laidWrs slot sge (ws.map (sentRecv mr)) = laidWrs slot sge ws := by
  induction ws generalizing sge with
  | nil => rfl
  | cons w ws ih =>
    have hlength : (sentRecv mr w).sges.length = w.sges.length := List.length_map _
    rw [List.map_cons,laidWrs,laidWrs,laidCells,laidCells,hlength,ih]
    rfl

theorem layRecv_header (mr : ℕ → ℕ) (slot : ℕ) (mem : ℕ → ℕ) (handle : ℕ) (ws : List RecvWr)
    (a : ℕ) (ha : a < 32) : layRecv mr slot mem handle ws a =
      Function.update (Function.update (Function.update mem 16 handle) 20 ws.length) 24
        (recvSgeCount ws) a := by
  have hlaid := laid_copyRecvWrs mr slot ws
    ⟨Function.update (Function.update (Function.update mem 16 handle) 20 ws.length) 24
      (recvSgeCount ws),32,32+32*ws.length⟩ (le_refl _)
  exact hlaid.frame a (Or.inl ha) (Or.inl (by show a < 32+32*ws.length; omega))

theorem layout_layRecv (mr : ℕ → ℕ) (slot : ℕ) (mem : ℕ → ℕ) (handle : ℕ) (ws : List RecvWr) :
    RecvLayout slot ws.length 0 ⟨layRecv mr slot mem handle ws,32+32*ws.length⟩
      (ws.map (sentRecv mr)) := by
  have hlaid := laid_copyRecvWrs mr slot ws
    ⟨Function.update (Function.update (Function.update mem 16 handle) 20 ws.length) 24
      (recvSgeCount ws),32,32+32*ws.length⟩ (le_refl _)
  refine ⟨by rw [List.length_map,Nat.zero_add],?_,?_,le_refl _⟩
  · rw [laidWrs_sent]
    exact hlaid.wrs
  · have hcells : (ws.map (sentRecv mr)).flatMap (fun w => w.sges.map sgeCells) =
        ws.flatMap fun w => w.sges.map fun g => sgeCells (clientSge mr g) := by
      simp only [List.flatMap_map,sentRecv,List.map_map]
      rfl
    rw [hcells]
    exact hlaid.sges

theorem handedRecv_layRecv (mr : ℕ → ℕ) (r : Router) (clears : Bool) (b : Buffer) (slot : ℕ) (mem : ℕ → ℕ)
    (handle : ℕ) (ws : List RecvWr) (hne : ws ≠ []) :
    handedRecv r clears b (layRecv mr slot mem handle ws) =
      some (ws.map fun w => postedRecv r (sentRecv mr w)) := by
  have hcount : layRecv mr slot mem handle ws 20 = ws.length :=
    layRecv_header mr slot mem handle ws 20 (by decide)
  obtain ⟨-,hchain⟩ := recvChain_fixRecvWrs (r := r) (b := b) clears (ws.map (sentRecv mr)) 0 _
    (layout_layRecv mr slot mem handle ws)
  rw [List.length_map,if_neg (by simpa using hne),Nat.mul_zero,Nat.add_zero,List.map_map] at hchain
  rw [handedRecv,fixRecv,hcount]
  exact hchain

end Commands

section Marshalling

variable (r : Router) (mr : ℕ → BitVec 64)

/-- The sge the driver is meant to get: the same bytes in the shared memory
the router has mapped. -/
def shmSge (g : Sge) : Sge :=
  {g with addr := (((r.lkeyPtr g.lkey : ℤ)+((g.addr : ℤ)-((mr g.lkey).toNat : ℤ)))%2^64).toNat}

/-- A send request as it should reach the driver. `wr.ud.ah` and
`wr.rdma.remote_addr` share the offset 40. -/
def arrivedSend (ud : Bool) (w : SendWr) : PostedWr :=
  ⟨scalarFields.map fun k =>
    if k = 40 then
      if ud then r.ahMap w.ahHandle
      else if OneSided (w.cells 28) then remoteAddr r (w.cells 48) (w.cells 40)
      else w.cells 40
    else w.cells k,w.sges.map (shmSge r mr)⟩

def arrivedRecv (w : RecvWr) : PostedWr := ⟨[w.cells 0,w.cells 24],w.sges.map (shmSge r mr)⟩

variable {r} {mr}

theorem wrapped_add_sub (ptr addr base : ℕ) (hbase : base < 2^64) :
    (ptr+(addr+2^64-base)%2^64)%2^64 = (((ptr : ℤ)+((addr : ℤ)-(base : ℤ)))%2^64).toNat := by
  omega

-- One step at a time: comparing the nested wrapped addresses by unfolding is out of reach.
theorem clientSge_mk (mr : ℕ → ℕ) (addr length lkey : ℕ) :
    clientSge mr ⟨addr,length,lkey⟩ = ⟨(addr+2^64-mr lkey)%2^64,length,lkey⟩ := rfl

theorem routerSge_mk (addr length lkey : ℕ) :
    routerSge r ⟨addr,length,lkey⟩ = ⟨(r.lkeyPtr lkey+addr)%2^64,length,lkey⟩ := rfl

theorem shmSge_mk (addr length lkey : ℕ) : shmSge r mr ⟨addr,length,lkey⟩ =
    ⟨(((r.lkeyPtr lkey : ℤ)+((addr : ℤ)-((mr lkey).toNat : ℤ)))%2^64).toNat,length,lkey⟩ := rfl

theorem routerSge_clientSge (g : Sge) :
    routerSge r (clientSge (fun key => (mr key).toNat) g) = shmSge r mr g := by
  obtain ⟨addr,length,lkey⟩ := g
  rw [clientSge_mk,routerSge_mk,shmSge_mk,wrapped_add_sub _ _ _ (mr lkey).isLt]

theorem postedRecv_sentRecv (w : RecvWr) :
    postedRecv r (sentRecv (fun key => (mr key).toNat) w) = arrivedRecv r mr w := by
  rw [postedRecv,arrivedRecv,sentRecv,w.num_sge,List.length_map,List.map_map]
  congr 1
  exact List.map_congr_left fun g _ => routerSge_clientSge g

theorem postedWr_sentWr (ud : Bool) (w : SendWr) :
    postedWr r ud (sentWr (fun key => (mr key).toNat) w) w.ahHandle = arrivedSend r mr ud w := by
  rw [postedWr,arrivedSend]
  congr 1
  · apply List.map_congr_left
    intro k hk
    have hbound : k ≠ 8 ∧ k ≠ 16 := by
      revert k
      decide
    by_cases haddr : k = 40
    · rw [if_pos haddr,haddr]
      cases ud with
      | true => simp [fixedCells]
      | false =>
        by_cases hop : OneSided (w.cells 28) <;> simp [fixedCells,preparedCells,sentWr,hop]
    · rw [if_neg haddr,fixedCells_other _ _ _ _ k hbound.1 hbound.2 haddr]
      rfl
  · rw [sentWr,List.map_map]
    exact List.map_congr_left fun g _ => routerSge_clientSge g

/-- Every non-empty list reaches the driver as it was submitted: the same
requests in the same order, each with its own sges. Only `remote_addr` of a
one-sided request and `ah` of a datagram are translated. A send is handed over
once the bucket has granted every sge. -/
theorem work_requests_survive (r : Router) (mr : ℕ → BitVec 64) (buffer : ℕ → ℕ)
    (slot handle : ℕ) (b : Buffer) :
    (∀ ws : List SendWr, ws ≠ [] →
      (∀ attempts posted, slowPath r b
        (ibvCmdPostSend (r.ud handle) (fun key => (mr key).toNat) buffer handle ws) attempts =
          some posted → posted = ws.map (arrivedSend r mr (r.ud handle))) ∧
      ((∀ w ∈ ws, ∀ g ∈ w.sges, g.length*(r.tokenbucket handle).timePerToken ≤
        (r.tokenbucket handle).timePerBurst) → ∃ attempts, slowPath r b
        (ibvCmdPostSend (r.ud handle) (fun key => (mr key).toNat) buffer handle ws) attempts =
          some (ws.map (arrivedSend r mr (r.ud handle))))) ∧
    (∀ ws : List RecvWr, ws ≠ [] →
      postRecv r b (ibvCmdPostRecv (fun key => (mr key).toNat) slot buffer handle ws) =
        some (ws.map (arrivedRecv r mr))) ∧
    (∀ ws : List RecvWr, ws ≠ [] →
      postSrqRecv r b (ibvCmdPostSrqRecv (fun key => (mr key).toNat) slot buffer handle ws) =
        some (ws.map (arrivedRecv r mr))) := by
  have hrecv : ∀ clears (ws : List RecvWr), ws ≠ [] →
      handedRecv r clears b (layRecv (fun key => (mr key).toNat) slot buffer handle ws) =
        some (ws.map (arrivedRecv r mr)) := by
    intro clears ws hne
    rw [handedRecv_layRecv _ r clears b slot buffer handle ws hne]
    congr 1
    exact List.map_congr_left fun w _ => postedRecv_sentRecv w
  refine ⟨?_,hrecv true,hrecv false⟩
  intro ws hne
  have hbody := body_ibvCmdPostSend (fun key => (mr key).toNat) (r.ud handle) buffer handle ws
  have hposted : ∀ attempts posted, slowPath r b
      (ibvCmdPostSend (r.ud handle) (fun key => (mr key).toNat) buffer handle ws) attempts =
        some posted → posted = ws.map (arrivedSend r mr (r.ud handle)) := by
    intro attempts posted h
    rw [slowPath_eq hbody hne attempts posted h,List.map_map]
    exact List.map_congr_left fun w _ => postedWr_sentWr (r.ud handle) w
  refine ⟨hposted,?_⟩
  intro hfits
  obtain ⟨posted,hgranted⟩ := handed_granted (fun qp => waitTokens (r.tokenbucket qp)) 4 b hbody
    hne (burst (r.tokenbucket handle)) fun w hw => granted_waitTokens _ _ (hfits w hw)
  have hslow : slowPath r b _ _ = some posted := hgranted
  exact ⟨_,hslow.trans (by rw [hposted _ _ hslow])⟩

end Marshalling

def oneRecv : RecvWr where
  cells := fun k => if k = 0 then 9 else if k = 24 then 1 else 0
  sges := [⟨64,8,5⟩]
  num_sge := rfl

def emptyRecv : RecvWr where
  cells := fun k => if k = 0 then 10 else if k = 16 then 77 else 0
  sges := []
  num_sge := rfl

theorem mixed_lists_survive :
    (∃ attempts, slowPath demoRouter demoBuffer
      (ibvCmdPostSend (demoRouter.ud 1) (fun _ => (16#64).toNat) (fun _ => 0) 1
        [datagram 1,oneSge,datagram 2]) attempts =
      some ([datagram 1,oneSge,datagram 2].map (arrivedSend demoRouter (fun _ => 16#64) true))) ∧
    postRecv demoRouter demoBuffer
      (ibvCmdPostRecv (fun _ => (16#64).toNat) 512 (fun _ => 0) 0 [oneRecv,emptyRecv,oneRecv]) =
      some ([oneRecv,emptyRecv,oneRecv].map (arrivedRecv demoRouter fun _ => 16#64)) ∧
    postSrqRecv demoRouter demoBuffer
      (ibvCmdPostSrqRecv (fun _ => (16#64).toNat) 512 (fun _ => 0) 0 [emptyRecv,oneRecv]) =
      some ([emptyRecv,oneRecv].map (arrivedRecv demoRouter fun _ => 16#64)) := by
  obtain ⟨hsend,-,-⟩ := work_requests_survive demoRouter (fun _ => 16#64) (fun _ => 0) 512 1
    demoBuffer
  obtain ⟨-,hrecv,hsrq⟩ := work_requests_survive demoRouter (fun _ => 16#64) (fun _ => 0) 512 0
    demoBuffer
  exact ⟨(hsend [datagram 1,oneSge,datagram 2] (by simp)).2 (by decide),
    hrecv [oneRecv,emptyRecv,oneRecv] (by simp),hsrq [emptyRecv,oneRecv] (by simp)⟩

/-- An RDMA write to the remote address 4100. -/
def remoteWrite : SendWr where
  cells := fun k => if k = 40 then 4100 else if k = 48 then 7 else 0
  sges := []
  ahHandle := 0
  num_sge := rfl

/-- The driver gets the remote address 65540: the field is rewritten. -/
theorem remote_addr_rewritten :
    (slowPath (mappedRouter ⟨4096,65536⟩) demoBuffer
      (ibvCmdPostSend false (fun _ => 0) (fun _ => 0) 0 [remoteWrite]) []).map
        (List.map PostedWr.scalars) =
      some [[0,0,0,0,0,65540,7,0,0,0,0,0,0,0,0,0,0]] ∧
    scalarFields.map remoteWrite.cells = [0,0,0,0,0,4100,7,0,0,0,0,0,0,0,0,0,0] := by
  decide +kernel

end FreeFlow.PostRecv
