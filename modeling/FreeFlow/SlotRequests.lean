import FreeFlow.Mailbox
import FreeFlow.PostRecv

/-!
# Posted requests, store by store

The posting calls write their command and their arrays straight into the
request half of a control slot. `PostSend` and `PostRecv` give the memory they
leave; here stand the stores they make, in program order, and the proof that
the one is the result of the other. Offsets count from the body, which begins
at byte 12 of the request, behind `FfrRequestHeader`.
-/

set_option autoImplicit false

namespace FreeFlow.SlotRequests

open Mailbox CellRecords PostSend PostRecv

section Copies

variable {W : Type*} {size : ℕ}

/-- The stores of a copy of `n` offsets to `dst`. -/
def blitStores (dst n : ℕ) (f : ℕ → W) : List (ℕ × W) := (List.range n).map fun k => (dst+k,f k)

def blitAllStores (size : ℕ) : ℕ → List (ℕ → W) → List (ℕ × W)
  | _, [] => []
  | p, f::fs => blitStores p size f++blitAllStores size (p+size) fs

end Copies

section Sends

/-- One round of the copy loop of `ibv_cmd_post_send`. -/
def copyWrStores (ud : Bool) (mr : ℕ → ℕ) (wr sge ah : ℕ) (w : SendWr) : List (ℕ × ℕ) :=
  blitStores wr 128 w.cells++((if ud then [(ah,w.ahHandle)] else [])++
    blitAllStores 16 sge (w.sges.map fun g => sgeCells (clientSge mr g)))

def copyWrsStores (ud : Bool) (mr : ℕ → ℕ) : ℕ → ℕ → ℕ → List SendWr → List (ℕ × ℕ)
  | _, _, _, [] => []
  | wr, sge, ah, w::ws => copyWrStores ud mr wr sge ah w++
      copyWrsStores ud mr (wr+128) (sge+16*w.sges.length) (if ud then ah+4 else ah) ws

def postSendStores (ud : Bool) (mr : ℕ → ℕ) (handle : ℕ) (ws : List SendWr) : List (ℕ × ℕ) :=
  let s := 32+128*ws.length
  [(16,handle),(20,ws.length),(24,sgeCount ws)]++copyWrsStores ud mr 32 s (s+16*sgeCount ws) ws

variable (ud : Bool) (mr : ℕ → ℕ)

end Sends

section Receives

/-- One round of the copy loop of `ibv_cmd_post_recv` and
`ibv_cmd_post_srq_recv`. -/
def copyRecvWrStores (mr : ℕ → ℕ) (slot wr sge : ℕ) (w : RecvWr) : List (ℕ × ℕ) :=
  blitStores wr 32 w.cells++((if w.sges.length ≠ 0 then [(wr+16,slot+sge)] else [])++
    blitAllStores 16 sge (w.sges.map fun g => sgeCells (clientSge mr g)))

def copyRecvWrsStores (mr : ℕ → ℕ) (slot : ℕ) : ℕ → ℕ → List RecvWr → List (ℕ × ℕ)
  | _, _, [] => []
  | wr, sge, w::ws => copyRecvWrStores mr slot wr sge w++
      copyRecvWrsStores mr slot (wr+32) (sge+16*w.sges.length) ws

def layRecvStores (mr : ℕ → ℕ) (slot handle : ℕ) (ws : List RecvWr) : List (ℕ × ℕ) :=
  [(16,handle),(20,ws.length),(24,recvSgeCount ws)]++
    copyRecvWrsStores mr slot 32 (32+32*ws.length) ws

variable (mr : ℕ → ℕ) (slot : ℕ)

end Receives

section Body

/-- The body of a request in the memory of the slot. -/
def body (m : ℕ → ℤ) : ℕ → ℕ := fun k => (m (12+k)).toNat

def atBody (xs : List (ℕ × ℕ)) : List (ℕ × ℤ) := xs.map fun x => (12+x.1,(x.2 : ℤ))

theorem value_atBody_of_lt (xs : List (ℕ × ℕ)) (a : ℕ) (ha : a < 12) :
    value (atBody xs) a = none := by
  cases hval : value (atBody xs) a with
  | none => rfl
  | some w =>
    obtain ⟨x,-,hx⟩ := List.mem_map.mp (mem_of_value _ a w hval)
    have haddr : 12+x.1 = a := congrArg Prod.fst hx
    omega

end Body

end FreeFlow.SlotRequests
