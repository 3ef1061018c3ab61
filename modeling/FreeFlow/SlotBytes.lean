import FreeFlow.PostRecv
import FreeFlow.TableBounds

/-!
# The bytes of requests and responses in a slot

The posts write their header, the command, the work requests, the sges and,
on a UD queue pair, the handles of the address handles one after the other
into `csp->req`. A poll writes a fixed request; the completions go straight
into `csp->rsp`, as many as the application asked for. Nothing compares the
total with the size of the slot. The counts and `body_size` are `uint32_t`.
-/

set_option autoImplicit false

namespace FreeFlow.SlotBytes

open PostRecv (RecvWr)
open PostSend (SendWr)
open TableBounds (headerSize)
open Wire

/-- `CTRL_REQ_SIZE`. -/
def ctrlReqSize : ℕ := 1024*1024

structure Write where
  offset : ℕ
  bytes : ℕ
  deriving DecidableEq

def Write.Inside (size : ℕ) (w : Write) : Prop := w.offset+w.bytes ≤ size

instance (size : ℕ) (w : Write) : Decidable (w.Inside size) := inferInstanceAs (Decidable (_ ≤ _))

def Write.Covers (w : Write) (a : ℕ) : Prop := w.offset ≤ a ∧ a < w.offset+w.bytes

/-- Where `tmp`, `s` and `ah` point to. -/
structure Cursor where
  wr : ℕ
  sge : ℕ
  ah : ℕ

/-- The copy loop over work requests of `wrSize` bytes, given by their
`num_sge`. -/
def copyWrites (wrSize : ℕ) (ud : Bool) : Cursor → List ℕ → List Write
  | _, [] => []
  | c, n::ns =>
    ⟨c.wr,wrSize⟩::((if ud then [⟨c.ah,4⟩] else [])++(if n ≠ 0 then [⟨c.sge,16*n⟩] else [])++
      copyWrites wrSize ud ⟨c.wr+wrSize,c.sge+16*n,if ud then c.ah+4 else c.ah⟩ ns)

/-- `wr_count` and `sge_count`. -/
def wrCount (ns : List ℕ) : ℕ := ns.length%2^32

def sgeCount (ns : List ℕ) : ℕ := ns.sum%2^32

def ahCount (ud : Bool) (ns : List ℕ) : ℕ := if ud then wrCount ns else 0

/-- The three words of the header, the three words of the command and the
arrays. -/
def postWrites (wrSize : ℕ) (ud : Bool) (ns : List ℕ) : List Write :=
  let n := headerSize+32
  let s := n+wrSize*wrCount ns
  [⟨0,4⟩,⟨4,4⟩,⟨8,4⟩,⟨headerSize+16,4⟩,⟨headerSize+20,4⟩,⟨headerSize+24,4⟩]++
    copyWrites wrSize ud ⟨n,s,s+16*sgeCount ns⟩ ns

/-- `header->body_size`. -/
def bodySize (wrSize : ℕ) (ud : Bool) (ns : List ℕ) : ℕ :=
  (32+wrCount ns*wrSize+sgeCount ns*16+ahCount ud ns*4)%2^32

def pollWrites : List Write := [⟨0,4⟩,⟨4,4⟩,⟨8,4⟩,⟨headerSize,4⟩,⟨headerSize+4,4⟩]

/-- The bytes of the command and of all work requests, sges and handles. -/
def bodyBytes (wrSize : ℕ) (ud : Bool) (ns : List ℕ) : ℕ :=
  32+wrSize*ns.length+16*ns.sum+(if ud then 4*ns.length else 0)

theorem no_bytes_of_length (wrSize : ℕ) (ns : List ℕ) (h : ns.length = 0) :
    wrSize*ns.length = 0 ∧ ns.sum = 0 := by
  simp [List.length_eq_zero_iff.mp h]

/-- The copies stay below a bound exactly when the ends of the arrays do. -/
theorem copyWrites_inside_iff (wrSize : ℕ) (ud : Bool) (size : ℕ) (ns : List ℕ) (c : Cursor) :
    (∀ w ∈ copyWrites wrSize ud c ns, w.Inside size) ↔
      (0 < ns.length → c.wr+wrSize*ns.length ≤ size) ∧
      (0 < ns.sum → c.sge+16*ns.sum ≤ size) ∧
      (ud = true → 0 < ns.length → c.ah+4*ns.length ≤ size) := by
  induction ns generalizing c with
  | nil => simp [copyWrites]
  | cons n ns ih =>
    have hah : (∀ w ∈ (if ud then [(⟨c.ah,4⟩ : Write)] else []), w.Inside size) ↔
        (ud = true → c.ah+4 ≤ size) := by
      cases ud <;> simp [Write.Inside]
    have hsge : (∀ w ∈ (if n ≠ 0 then [(⟨c.sge,16*n⟩ : Write)] else []), w.Inside size) ↔
        (n ≠ 0 → c.sge+16*n ≤ size) := by
      by_cases hn : n = 0 <;> simp [Write.Inside,hn]
    rw [copyWrites,List.forall_mem_cons,List.forall_mem_append,List.forall_mem_append,hah,hsge,ih,
      List.length_cons,List.sum_cons,Nat.mul_succ,Write.Inside]
    -- behind the last request nothing is copied
    have hlast := no_bytes_of_length wrSize ns
    cases ud with
    | true =>
      simp only [if_true,true_implies]
      omega
    | false =>
      simp only [Bool.false_eq_true,if_false,false_implies,true_and,and_true]
      omega

theorem bodySize_eq_iff (wrSize : ℕ) (ud : Bool) (ns : List ℕ) (hsize : 0 < wrSize) :
    bodySize wrSize ud ns = bodyBytes wrSize ud ns ↔ bodyBytes wrSize ud ns < 2^32 := by
  constructor
  · intro h
    rw [← h]
    exact Nat.mod_lt _ (by decide)
  · intro h
    have hmul : ns.length ≤ wrSize*ns.length := Nat.le_mul_of_pos_left _ hsize
    have hlen : ns.length%2^32 = ns.length := Nat.mod_eq_of_lt (by unfold bodyBytes at h; omega)
    have hsum : ns.sum%2^32 = ns.sum := Nat.mod_eq_of_lt (by unfold bodyBytes at h; omega)
    have hexact : 32+wrCount ns*wrSize+sgeCount ns*16+ahCount ud ns*4 = bodyBytes wrSize ud ns := by
      rw [bodyBytes,ahCount,wrCount,sgeCount,hlen,hsum,Nat.mul_comm ns.length wrSize]
      split <;> omega
    rw [bodySize,hexact,Nat.mod_eq_of_lt h]

/-- All bytes of a post lie in the slot exactly when header and body fit. -/
theorem postWrites_inside_iff (wrSize : ℕ) (ud : Bool) (ns : List ℕ) (hsize : 0 < wrSize) :
    (∀ w ∈ postWrites wrSize ud ns, w.Inside ctrlReqSize) ↔
      headerSize+bodyBytes wrSize ud ns ≤ ctrlReqSize := by
  have hfixed : ∀ w ∈ [(⟨0,4⟩ : Write),⟨4,4⟩,⟨8,4⟩,⟨headerSize+16,4⟩,⟨headerSize+20,4⟩,
      ⟨headerSize+24,4⟩], w.Inside ctrlReqSize := by decide
  have hmul : ns.length ≤ wrSize*ns.length := Nat.le_mul_of_pos_left _ hsize
  have hempty := no_bytes_of_length wrSize ns
  rw [postWrites,List.forall_mem_append,copyWrites_inside_iff,and_iff_right hfixed]
  simp only [bodyBytes,wrCount,sgeCount,headerSize,ctrlReqSize]
  by_cases hlen : ns.length < 2^32
  · rw [Nat.mod_eq_of_lt hlen]
    cases ud with
    | true =>
      simp only [if_true,true_implies]
      omega
    | false =>
      simp only [Bool.false_eq_true,if_false,false_implies,and_true]
      omega
  · omega

section Contents

variable {mr : ℕ → ℕ}

/-- A byte outside the writes of one work request is outside its record and its sges. -/
theorem outside_of_not_covers {wrSize : ℕ} {ud : Bool} {k : Cursor} {n : ℕ} {ns : List ℕ} {a : ℕ}
    (ha : ∀ w ∈ copyWrites wrSize ud k (n::ns), ¬w.Covers a) :
    (a < k.wr ∨ k.wr+wrSize ≤ a) ∧ (n = 0 ∨ a < k.sge ∨ k.sge+16*n ≤ a) ∧
      (ud = true → a < k.ah ∨ k.ah+4 ≤ a) ∧
      ∀ w ∈ copyWrites wrSize ud ⟨k.wr+wrSize,k.sge+16*n,if ud then k.ah+4 else k.ah⟩ ns,
        ¬w.Covers a := by
  rw [copyWrites,List.forall_mem_cons,List.forall_mem_append,List.forall_mem_append] at ha
  obtain ⟨hwr,⟨hah,hsge⟩,hrest⟩ := ha
  refine ⟨?_,?_,?_,hrest⟩
  · simp only [Write.Covers] at hwr
    omega
  · by_cases hn : n = 0
    · exact Or.inl hn
    · simp only [ne_eq,hn,not_false_eq_true,if_true,List.forall_mem_singleton,Write.Covers] at hsge
      omega
  · rintro rfl
    simp only [if_true,List.forall_mem_singleton,Write.Covers] at hah
    omega

/-- What the copy loop of a send leaves alone; `k` are its cursors in the slot. -/
theorem copyWrs_of_not_covers (ud : Bool) (ws : List SendWr) (c : PostSend.ClientCursor)
    (k : Cursor) (a : ℕ) (hkwr : k.wr = headerSize+c.wr) (hksge : k.sge = headerSize+c.sge)
    (hkah : k.ah = headerSize+c.ah)
    (ha : ∀ w ∈ copyWrites 128 ud k (ws.map fun w => w.sges.length), ¬w.Covers (headerSize+a)) :
    (ws.foldl (PostSend.copyWr ud mr) c).mem a = c.mem a := by
  induction ws generalizing c k with
  | nil => rfl
  | cons w ws ih =>
    rw [List.map_cons] at ha
    obtain ⟨hwr,hsge,hah,hrest⟩ := outside_of_not_covers ha
    rw [List.foldl_cons,ih (PostSend.copyWr ud mr c w) _ _ _ _ hrest]
    · apply PostSend.copyWr_frame
      · omega
      · omega
      · intro hud
        have houtside := hah hud
        omega
    · simp only [PostSend.copyWr,hkwr,Nat.add_assoc]
    · simp only [PostSend.copyWr,hksge,Nat.add_assoc]
    · simp only [PostSend.copyWr,hkah]
      split <;> omega

theorem copyRecvWrs_of_not_covers (slot : ℕ) (ws : List RecvWr) (c : PostRecv.RecvCursor)
    (k : Cursor) (a : ℕ) (hkwr : k.wr = headerSize+c.wr) (hksge : k.sge = headerSize+c.sge)
    (ha : ∀ w ∈ copyWrites 32 false k (ws.map fun w => w.sges.length), ¬w.Covers (headerSize+a)) :
    (ws.foldl (PostRecv.copyRecvWr mr slot) c).mem a = c.mem a := by
  induction ws generalizing c k with
  | nil => rfl
  | cons w ws ih =>
    rw [List.map_cons] at ha
    obtain ⟨hwr,hsge,-,hrest⟩ := outside_of_not_covers ha
    rw [List.foldl_cons,ih (PostRecv.copyRecvWr mr slot c w) _ _ _ hrest,PostRecv.copyRecvWr_mem,
      CellRecords.blitAll_of_not,CellRecords.blit_of_not]
    · omega
    · rw [List.length_map]
      omega
    · simp only [PostRecv.copyRecvWr,hkwr,Nat.add_assoc]
    · simp only [PostRecv.copyRecvWr,hksge,Nat.add_assoc]

/-- The three words of the command are among the writes of a post. -/
theorem command_of_not_covers {wrSize : ℕ} {ud : Bool} {ns : List ℕ} {a : ℕ}
    (ha : ∀ w ∈ postWrites wrSize ud ns, ¬w.Covers (headerSize+a)) : a ≠ 16 ∧ a ≠ 20 ∧ a ≠ 24 := by
  refine ⟨?_,?_,?_⟩
  · rintro rfl
    exact ha ⟨headerSize+16,4⟩ (by simp [postWrites]) ⟨le_refl _,by decide⟩
  · rintro rfl
    exact ha ⟨headerSize+20,4⟩ (by simp [postWrites]) ⟨le_refl _,by decide⟩
  · rintro rfl
    exact ha ⟨headerSize+24,4⟩ (by simp [postWrites]) ⟨le_refl _,by decide⟩

theorem copies_of_not_covers {wrSize : ℕ} {ud : Bool} {ns : List ℕ} {a : ℕ}
    (hlen : ns.length < 2^32) (hsum : ns.sum < 2^32)
    (ha : ∀ w ∈ postWrites wrSize ud ns, ¬w.Covers (headerSize+a)) :
    ∀ w ∈ copyWrites wrSize ud ⟨headerSize+32,headerSize+(32+wrSize*ns.length),
      headerSize+(32+wrSize*ns.length+16*ns.sum)⟩ ns, ¬w.Covers (headerSize+a) := by
  have hcopies := (List.forall_mem_append.mp ha).2
  rw [wrCount,sgeCount,Nat.mod_eq_of_lt hlen,Nat.mod_eq_of_lt hsum,Nat.add_assoc,Nat.add_assoc,
    Nat.add_assoc] at hcopies
  rwa [Nat.add_assoc]

/-- A send changes only what its writes cover. -/
theorem ibvCmdPostSend_of_not_covers (ud : Bool) (mem : ℕ → ℕ) (handle : ℕ) (ws : List SendWr)
    (hlen : ws.length < 2^32) (hsum : PostSend.sgeCount ws < 2^32) (a : ℕ)
    (ha : ∀ w ∈ postWrites 128 ud (ws.map fun w => w.sges.length), ¬w.Covers (headerSize+a)) :
    PostSend.ibvCmdPostSend ud mr mem handle ws a = mem a := by
  obtain ⟨hhandle,hwrs,hsges⟩ := command_of_not_covers ha
  have hcopies := copies_of_not_covers (by rwa [List.length_map]) hsum ha
  rw [List.length_map] at hcopies
  rw [PostSend.ibvCmdPostSend,copyWrs_of_not_covers ud ws _ _ a rfl rfl rfl hcopies]
  dsimp only
  rw [Function.update_of_ne hsges,Function.update_of_ne hwrs,Function.update_of_ne hhandle]

/-- So does a receive, for a queue pair and for an SRQ. -/
theorem layRecv_of_not_covers (slot : ℕ) (mem : ℕ → ℕ) (handle : ℕ) (ws : List RecvWr)
    (hlen : ws.length < 2^32) (hsum : PostRecv.recvSgeCount ws < 2^32) (a : ℕ)
    (ha : ∀ w ∈ postWrites 32 false (ws.map fun w => w.sges.length), ¬w.Covers (headerSize+a)) :
    PostRecv.layRecv mr slot mem handle ws a = mem a := by
  obtain ⟨hhandle,hwrs,hsges⟩ := command_of_not_covers ha
  have hcopies := copies_of_not_covers (by rwa [List.length_map]) hsum ha
  rw [List.length_map] at hcopies
  rw [PostRecv.layRecv,copyRecvWrs_of_not_covers slot ws _ _ a rfl rfl hcopies]
  dsimp only
  rw [Function.update_of_ne hsges,Function.update_of_ne hwrs,Function.update_of_ne hhandle]

end Contents

inductive Call
  | postSend (ud : Bool) (ws : List SendWr)
  | postRecv (ws : List RecvWr)
  | postSrqRecv (ws : List RecvWr)
  | pollCq (ne : ℤ)

namespace Call

/-- What the client writes into `csp->req`. -/
def reqWrites : Call → List Write
  | postSend ud ws => postWrites 128 ud (ws.map fun w => w.sges.length)
  | postRecv ws => postWrites 32 false (ws.map fun w => w.sges.length)
  | postSrqRecv ws => postWrites 32 false (ws.map fun w => w.sges.length)
  | pollCq _ => pollWrites

/-- What `ibv_poll_cq` may write into `csp->rsp`: `ne` completions behind the
header of the response. A post has none. -/
def wcWrites : Call → List Write
  | pollCq ne => [⟨sizeofResponseHeader,sizeofWc*ne.toNat⟩]
  | _ => []

def headerBodySize : Call → ℕ
  | postSend ud ws => bodySize 128 ud (ws.map fun w => w.sges.length)
  | postRecv ws => bodySize 32 false (ws.map fun w => w.sges.length)
  | postSrqRecv ws => bodySize 32 false (ws.map fun w => w.sges.length)
  | pollCq _ => sizeofReq .ibvPollCq

def exactBodySize : Call → ℕ
  | postSend ud ws => bodyBytes 128 ud (ws.map fun w => w.sges.length)
  | postRecv ws => bodyBytes 32 false (ws.map fun w => w.sges.length)
  | postSrqRecv ws => bodyBytes 32 false (ws.map fun w => w.sges.length)
  | pollCq _ => 8

structure FitsSlot (call : Call) : Prop where
  req : ∀ w ∈ call.reqWrites, w.Inside ctrlReqSize
  rsp : ∀ w ∈ call.wcWrites, w.Inside ctrlRspSize
  size : call.headerBodySize = call.exactBodySize

/-- The most completions a slot has room for. -/
def wcRoom : ℕ := (ctrlRspSize-sizeofResponseHeader)/sizeofWc

def Small : Call → Prop
  | pollCq ne => ne ≤ wcRoom
  | call => headerSize+call.exactBodySize ≤ ctrlReqSize

end Call

theorem post_fits_iff (wrSize : ℕ) (ud : Bool) (ns : List ℕ) (hsize : 0 < wrSize) :
    ((∀ w ∈ postWrites wrSize ud ns, w.Inside ctrlReqSize) ∧
        bodySize wrSize ud ns = bodyBytes wrSize ud ns) ↔
      headerSize+bodyBytes wrSize ud ns ≤ ctrlReqSize := by
  rw [postWrites_inside_iff wrSize ud ns hsize,bodySize_eq_iff wrSize ud ns hsize]
  have hslot : ctrlReqSize < 2^32 := by decide
  omega

/-- Requests and responses stay in the slot exactly when the application asks
for no more than fits: no call compares its counts with the slot. -/
theorem fits_slot_iff (call : Call) : call.FitsSlot ↔ call.Small := by
  have hpost (call : Call) : call.wcWrites = [] → (call.FitsSlot ↔
      (∀ w ∈ call.reqWrites, w.Inside ctrlReqSize) ∧
        call.headerBodySize = call.exactBodySize) := by
    intro hwc
    exact ⟨fun h => ⟨h.req,h.size⟩,fun h => ⟨h.1,by simp [hwc],h.2⟩⟩
  cases call with
  | postSend ud ws => exact (hpost _ rfl).trans (post_fits_iff 128 ud _ (by decide))
  | postRecv ws => exact (hpost _ rfl).trans (post_fits_iff 32 false _ (by decide))
  | postSrqRecv ws => exact (hpost _ rfl).trans (post_fits_iff 32 false _ (by decide))
  | pollCq ne =>
    have hreq : ∀ w ∈ pollWrites, w.Inside ctrlReqSize := by decide
    have hroom : sizeofResponseHeader+sizeofWc*ne.toNat ≤ ctrlRspSize ↔ ne ≤ Call.wcRoom := by
      simp only [ctrlRspSize,sizeofResponseHeader,sizeofWc,Call.wcRoom]
      omega
    constructor
    · intro h
      exact hroom.mp (h.rsp _ List.mem_cons_self)
    · intro h
      exact ⟨hreq,by simpa [Call.wcWrites,Write.Inside] using hroom.mpr h,rfl⟩

/-- A poll for 21846 completions lets the driver write behind the response,
and 8192 sends do not fit the request. -/
theorem large_calls_overrun : ¬(Call.pollCq 21846).FitsSlot ∧
    ¬(Call.postSend false (List.replicate 8192 PostSend.oneSge)).FitsSlot := by
  constructor
  · intro h
    exact absurd (h.rsp _ List.mem_cons_self) (by decide)
  · intro h
    have hfits := (postWrites_inside_iff 128 false _ (by decide)).mp h.req
    rw [bodyBytes,List.length_map,List.length_replicate,headerSize,ctrlReqSize] at hfits
    omega

end FreeFlow.SlotBytes
