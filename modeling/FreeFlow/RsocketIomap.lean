import FreeFlow.LaidOut
import FreeFlow.RsocketPeers
import Mathlib.Data.List.Basic

/-!
# Direct writes through an I/O map

The loop of `riowrite`. It keeps the mapping it has found until the offset is
past its end. The offset never gets past the end: at the end itself the rest of
the mapping is 0 bytes long, and the loop goes on with writes of 0 bytes. Then
only an error ends it: no room on a non-blocking socket, a peer that is gone, or
a write that could not be posted.

What one round posts is what `Rsocket` copies and posts, so a round that writes
something is a step of the connection.
-/

set_option autoImplicit false

namespace FreeFlow.RsocketIomap

open LaidOut Rsocket

/-- `struct rs_iomap`; neither the offsets nor the addresses of a mapping wrap. -/
structure Iomap where
  offset : ℕ
  addr : ℕ
  key : ℕ
  length : ℕ
  stop_lt : offset+length < 2^64
  addr_le : addr+length ≤ 2^64
  deriving DecidableEq

def Iomap.stop (m : Iomap) : ℕ := m.offset+m.length

/-- `rs_find_iomap`. -/
def rsFindIomap (maps : List Iomap) (offset : ℕ) : Option Iomap :=
  maps.find? fun m => m.offset ≤ offset && offset < m.stop

/-- The variables of the loop; `left` is the length of `buf`. -/
structure Writing where
  buf : List Byte
  offset : ℕ
  olen : ℕ
  iom : Option Iomap

/-- A call of `rs_write_direct`. -/
structure Direct where
  addr : ℕ
  key : ℕ
  bytes : List Byte
  deriving DecidableEq

/-- The post of a round. As `sq_inline` is 0, only a write of no bytes is inline. -/
def Direct.post (p : Endpoint) (h : Host) (d : Direct) : Host :=
  if d.bytes = [] then rsWriteDirect p h d.addr d.key [] 0 else riowriteBody p h d.bytes d.addr d.key

/-- What a round meets at `rs_can_send`: a host that can send, at once or after `rs_get_comp`, with
what the post then returns; a failing `rs_get_comp`; or a socket that is no longer writable. -/
inductive Turn
  | ready (h : Host) (can : rsCanSend h.rs) (ret : ℤ)
  | failed (ret : ℤ)
  | unwritable

/-- The turn of a socket that can send and whose write is posted. -/
def Turn.goesOn : Turn → Bool
  | .ready _ _ ret => ret = 0
  | .failed _ => false
  | .unwritable => false

/-- `iom` after the test at the start of the loop body; none when the loop ends there. -/
def currentIomap (maps : List Iomap) (st : Writing) : Option Iomap :=
  if st.buf = [] then none else
    match st.iom with
    | some m => if m.stop < st.offset then rsFindIomap maps st.offset else some m
    | none => rsFindIomap maps st.offset

def xferSize (m : Iomap) (rs : RSocket) (st : Writing) : ℕ :=
  min (olapSize rs st.buf.length st.olen).1 (m.stop-st.offset)

def direct (m : Iomap) (rs : RSocket) (st : Writing) : Direct :=
  ⟨m.addr+st.offset-m.offset,m.key,st.buf.take (xferSize m rs st)⟩

def advance (m : Iomap) (rs : RSocket) (st : Writing) : Writing :=
  ⟨st.buf.drop (xferSize m rs st),st.offset+xferSize m rs st,(olapSize rs st.buf.length st.olen).2,
    some m⟩

/-- `ret` and `left` at the end, and what was posted. -/
structure Returned where
  ret : ℤ
  left : ℕ
  posts : List Direct
  deriving DecidableEq

/-- The loop, with what each round meets; none when it has not ended after these rounds. -/
def riowriteLoop (maps : List Iomap) : List Turn → Writing → Option Returned
  | [], st => if currentIomap maps st = none then some ⟨0,st.buf.length,[]⟩ else none
  | t::rest, st =>
    match currentIomap maps st with
    | none => some ⟨0,st.buf.length,[]⟩
    | some m =>
      match t with
      | .failed ret => some ⟨ret,st.buf.length,[]⟩
      | .unwritable => some ⟨-1,st.buf.length,[]⟩
      | .ready h _ ret =>
        if ret ≠ 0 then some ⟨ret,st.buf.length,[]⟩
        else (riowriteLoop maps rest (advance m h.rs st)).map fun out =>
          {out with posts := direct m h.rs st::out.posts}

/-- The `return` of `riowrite`. -/
def Returned.value (count : ℕ) (out : Returned) : ℤ :=
  if out.ret ≠ 0 ∧ out.left = count then out.ret else (count-out.left : ℕ)

variable {maps : List Iomap} {m : Iomap} {st : Writing} {rs : RSocket}

/-- The loop is at a place of one mapping, and has doubled `olen` some times. -/
structure Within (m : Iomap) (maps : List Iomap) (st : Writing) : Prop where
  current : st.buf ≠ [] → currentIomap maps st = some m
  low : m.offset ≤ st.offset
  le : st.offset ≤ m.stop
  olen : ∃ k ≤ 16, st.olen = 2^k

theorem Within.olen_le (h : Within m maps st) : 0 < st.olen ∧ st.olen ≤ rsMaxTransfer := by
  obtain ⟨k,hk,heq⟩ := h.olen
  rw [heq]
  exact ⟨Nat.two_pow_pos k,Nat.pow_le_pow_right (by decide) hk⟩

theorem Within.xferSize_le (h : Within m maps st) (hcan : rsCanSend rs) :
    xferSize m rs st ≤ st.buf.length ∧ xferSize m rs st ≤ rsMaxTransfer ∧
      (xferSize m rs st : ℤ) ≤ rs.sbufBytesAvail ∧ st.offset+xferSize m rs st ≤ m.stop ∧
      (st.buf ≠ [] → st.offset < m.stop → 0 < xferSize m rs st) := by
  obtain ⟨-,hlow,-,-⟩ := hcan
  have hsnd : rsSndlowat = 2048 := rfl
  have hle := h.le
  have holen := h.olen_le
  rw [xferSize,olapSize]
  dsimp only
  refine ⟨?_,?_,?_,by omega,fun hne hlt => ?_⟩
  · split_ifs <;> omega
  · split_ifs <;> omega
  · split_ifs <;> omega
  · have hpos := List.length_pos_of_ne_nil hne
    split_ifs <;> omega

theorem Within.length_direct (h : Within m maps st) (hcan : rsCanSend rs) :
    (direct m rs st).bytes.length = xferSize m rs st := by
  rw [direct,List.length_take,min_eq_left (h.xferSize_le hcan).1]

/-- A round stays in the mapping. -/
theorem Within.advance (h : Within m maps st) (hcan : rsCanSend rs) :
    Within m maps (advance m rs st) := by
  obtain ⟨-,-,-,hstop,-⟩ := h.xferSize_le hcan
  refine ⟨fun hne => ?_,h.low.trans (Nat.le_add_right _ _),hstop,?_⟩
  · rw [currentIomap,if_neg hne]
    exact if_neg (not_lt.mpr hstop)
  · obtain ⟨k,hk,heq⟩ := h.olen
    show ∃ k ≤ 16, (olapSize rs st.buf.length st.olen).2 = 2^k
    rw [olapSize,heq]
    dsimp only
    split_ifs with hdouble
    · exact ⟨k+1,(Nat.pow_lt_pow_iff_right (by decide)).mp hdouble.2,(Nat.pow_succ').symm⟩
    · exact ⟨k,hk,rfl⟩

/-- What a round posts is a step of the connection, as long as the mapping has room. -/
theorem Within.iowrite_step (h : Within m maps st) {p : RsocketPeers.Side → Endpoint}
    {w : RsocketPeers.System} {s : RsocketPeers.Side} (hcan : rsCanSend (w.host s).rs)
    (hbuf : st.buf ≠ []) (hlt : st.offset < m.stop) (hkey : m.key ≠ (p (!s)).rkey) :
    let d := direct m (w.host s).rs st
    RsocketPeers.step p w (s,.iowrite d.bytes d.addr d.key) =
      some (RsocketPeers.setHost w s (d.post (p s) (w.host s))) := by
  obtain ⟨-,hmax,havail,-,hpos⟩ := h.xferSize_le hcan
  have hlen := h.length_direct hcan
  have hne : (direct m (w.host s).rs st).bytes ≠ [] := by
    rw [← List.length_pos_iff,hlen]
    exact hpos hbuf hlt
  intro d
  rw [Direct.post,if_neg hne]
  exact if_pos ⟨hne,by rw [hlen]; exact havail,by rw [hlen]; exact hmax,hkey,hcan⟩

/-- The requests lie one behind the other, from one address to the next. -/
def Adjacent (key : ℕ) : ℕ → List Direct → ℕ → Prop :=
  Laid (fun addr d => addr+d.bytes.length) fun addr d => d.addr = addr ∧ d.key = key

theorem riowriteLoop_nil (hnil : st.buf = []) (turns : List Turn) :
    riowriteLoop maps turns st = some ⟨0,0,[]⟩ := by
  have hnone : currentIomap maps st = none := if_pos hnil
  cases turns with
  | nil => simp [riowriteLoop,hnone,hnil]
  | cons t rest => simp [riowriteLoop,hnone,hnil]

/-- What fits into the mapping is written in order, one write behind the other. -/
theorem Within.writes (h : Within m maps st) (hfit : st.offset+st.buf.length ≤ m.stop)
    (turns : List Turn) (hon : ∀ t ∈ turns, t.goesOn = true) (hlong : st.buf.length ≤ turns.length) :
    ∃ posts, riowriteLoop maps turns st = some ⟨0,0,posts⟩ ∧
      (posts.map Direct.bytes).flatten = st.buf ∧
      Adjacent m.key (m.addr+st.offset-m.offset) posts
        (m.addr+st.offset-m.offset+st.buf.length) := by
  induction turns generalizing st with
  | nil =>
    have hnil : st.buf = [] := List.eq_nil_of_length_eq_zero (Nat.le_zero.mp hlong)
    exact ⟨[],riowriteLoop_nil hnil [],by simp [hnil],by rw [hnil]; exact .nil _⟩
  | cons t rest ih =>
    by_cases hnil : st.buf = []
    · exact ⟨[],riowriteLoop_nil hnil _,by simp [hnil],by rw [hnil]; exact .nil _⟩
    obtain ⟨ht,hrest⟩ := List.forall_mem_cons.mp hon
    cases t with
    | failed ret => exact absurd ht (by simp [Turn.goesOn])
    | unwritable => exact absurd ht (by simp [Turn.goesOn])
    | ready host can ret =>
      obtain rfl : ret = 0 := of_decide_eq_true ht
      have hlow := h.low
      have hbuf := List.length_pos_of_ne_nil hnil
      obtain ⟨hleft,-,-,-,hpos⟩ := h.xferSize_le can
      have hstep := hpos hnil (by omega)
      have hoff : (RsocketIomap.advance m host.rs st).offset = st.offset+xferSize m host.rs st := rfl
      have hlen : (RsocketIomap.advance m host.rs st).buf.length =
          st.buf.length-xferSize m host.rs st := List.length_drop
      rw [List.length_cons] at hlong
      obtain ⟨posts,hloop,hbytes,hlaid⟩ := ih (h.advance can) (by omega) hrest (by omega)
      refine ⟨direct m host.rs st::posts,?_,?_,.cons ⟨rfl,rfl⟩ ?_⟩
      · rw [riowriteLoop,h.current hnil]
        simp [hloop]
      · rw [List.map_cons,List.flatten_cons,hbytes]
        exact List.take_append_drop _ _
      · have hstart : m.addr+st.offset-m.offset+xferSize m host.rs st =
            m.addr+(st.offset+xferSize m host.rs st)-m.offset := by omega
        have hstop : m.addr+st.offset-m.offset+st.buf.length =
            m.addr+(st.offset+xferSize m host.rs st)-m.offset+
              (st.buf.length-xferSize m host.rs st) := by omega
        rw [h.length_direct can,hstart,hstop,← hoff,← hlen]
        exact hlaid

end FreeFlow.RsocketIomap
