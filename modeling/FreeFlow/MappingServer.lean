import FreeFlow.ByteMemory
import FreeFlow.RemoteMapping
import Mathlib.Data.List.TakeWhile

/-!
# The mapping server

`UDPServer` receives into a buffer of 1400 bytes, reads a `struct
IBV_REG_MR_MAPPING_REQ` from it, stores the mapping and answers with a text it
prints into the same buffer. It does not look at the length of what it received.

A datagram shorter than the structure leaves bytes of the last answer and, behind
its NUL, of the last datagrams. The mapping is read from these as well.
-/

set_option autoImplicit false

namespace FreeFlow.MappingServer

open ByteMemory RemoteMapping

/-- `sizeof(struct IBV_REG_MR_MAPPING_REQ)`. -/
def sizeofReq : ℕ := 24

structure Datagram where
  bytes : List (BitVec 8)
  bytes_le : bytes.length ≤ 1400

def Datagram.WellFormed (d : Datagram) : Prop := sizeofReq ≤ d.bytes.length

instance (d : Datagram) : Decidable d.WellFormed := inferInstanceAs (Decidable (_ ≤ _))

def key (buf : Memory) : BitVec 32 := word buf 0

/-- `p->mr_ptr` and `p->shm_ptr`; four bytes of padding follow the key. -/
def mrShm (buf : Memory) : MrShm := ⟨dword buf 8,dword buf 16⟩

def charByte (c : Char) : BitVec 8 := .ofNat 8 c.toNat

/-- `ack-%u`. -/
def ackText (key : BitVec 32) : List (BitVec 8) :=
  (['a','c','k','-']++Nat.toDigits 10 key.toNat).map charByte

/-- The text of a packet of 1400 bytes, up to its NUL. -/
def text (buf : Memory) : List (BitVec 8) := (slice buf 0 1400).takeWhile (· ≠ 0)

/-- The buffer, the table and the answers so far, each with the datagram it
answers. -/
structure Server where
  buf : Memory
  rkeyMrShm : ℕ → Option MrShm
  acks : List (Datagram × List (BitVec 8))

def store (rkeyMrShm : ℕ → Option MrShm) (buf : Memory) : ℕ → Option MrShm :=
  Function.update rkeyMrShm (key buf).toNat (some (mrShm buf))

/-- `recvfrom` leaves the bytes behind the datagram as they are. -/
def received (s : Server) (d : Datagram) : Memory := put s.buf 0 d.bytes

/-- `sprintf` into the buffer. -/
def printed (buf : Memory) : Memory := put buf 0 (ackText (key buf)++[0])

/-- One round of the loop. -/
def serve (s : Server) (d : Datagram) : Server :=
  ⟨printed (received s d),store s.rkeyMrShm (received s d),
    s.acks++[(d,text (printed (received s d)))]⟩

def Datagram.content (d : Datagram) : Memory := put (fun _ => 0) 0 d.bytes

/-- The table after the well-formed datagrams. -/
def storeWellFormed (rkeyMrShm : ℕ → Option MrShm) (ds : List Datagram) : ℕ → Option MrShm :=
  (ds.filter Datagram.WellFormed).foldl (fun table d => store table d.content) rkeyMrShm

def start (buf : Memory) (rkeyMrShm : ℕ → Option MrShm) : Server := ⟨buf,rkeyMrShm,[]⟩

/-- The table is the one of the well-formed datagrams, and every answer is to one
of them and names its key. -/
structure Accepts (buf : Memory) (rkeyMrShm : ℕ → Option MrShm) (ds : List Datagram) : Prop where
  table : (ds.foldl serve (start buf rkeyMrShm)).rkeyMrShm = storeWellFormed rkeyMrShm ds
  answers : ∀ ack ∈ (ds.foldl serve (start buf rkeyMrShm)).acks,
    ack.1.WellFormed ∧ ack.2 = ackText (key ack.1.content)

theorem charByte_ne_zero (c : Char) (h : c.isDigit) : charByte c ≠ 0 := by
  have hdigit : 48 ≤ c.val ∧ c.val ≤ 57 := by simpa [Char.isDigit] using h
  have hlow : 48 ≤ c.toNat := UInt32.le_iff_toNat_le.mp hdigit.1
  have hhigh : c.toNat ≤ 57 := UInt32.le_iff_toNat_le.mp hdigit.2
  intro hzero
  have hval : (charByte c).toNat = 0 := by
    rw [hzero]
    rfl
  simp only [charByte,BitVec.toNat_ofNat] at hval
  omega

theorem ackText_ne_zero (key : BitVec 32) : ∀ b ∈ ackText key, b ≠ 0 := by
  intro b hb
  obtain ⟨c,hc,rfl⟩ := List.mem_map.mp hb
  have hfixed : ∀ c ∈ ['a','c','k','-'], charByte c ≠ 0 := by simp [charByte]
  rcases List.mem_append.mp hc with hc | hc
  · exact hfixed c hc
  · exact charByte_ne_zero c (Nat.isDigit_of_mem_toDigits (by decide) (by decide) hc)

theorem ackText_length (key : BitVec 32) : (ackText key).length ≤ 14 := by
  have hdigits : (Nat.toDigits 10 key.toNat).length ≤ 10 :=
    (Nat.length_toDigits_le_iff (by decide) (by decide)).mpr (by omega)
  simp only [ackText,List.length_map,List.length_append,List.length_cons,List.length_nil]
  omega

theorem text_printed (buf : Memory) : text (printed buf) = ackText (key buf) := by
  have hlen := ackText_length (key buf)
  obtain ⟨rest,hrest⟩ : ∃ rest, 1400 = (ackText (key buf)++[0]).length+rest :=
    ⟨1400-(ackText (key buf)++[0]).length,by simp; omega⟩
  rw [text,hrest,slice_append,printed,slice_put,List.append_assoc,
    List.takeWhile_append_of_pos fun b hb => decide_eq_true (ackText_ne_zero _ b hb)]
  simp

/-- The fields of a well-formed datagram do not depend on the buffer. -/
theorem received_wellFormed (s : Server) (d : Datagram) (h : d.WellFormed) :
    key (received s d) = key d.content ∧ mrShm (received s d) = mrShm d.content := by
  have hagree := agree_put_put (fun _ => 0) s.buf 0 d.bytes
  have hlen : 24 ≤ d.bytes.length := h
  refine ⟨hagree.word 0 fun a _ ha => ⟨by omega,by omega⟩,?_⟩
  simp only [mrShm,MrShm.mk.injEq]
  exact ⟨hagree.dword 8 fun a _ ha => ⟨by omega,by omega⟩,
    hagree.dword 16 fun a _ ha => ⟨by omega,by omega⟩⟩

theorem serve_wellFormed (s : Server) (d : Datagram) (h : d.WellFormed) :
    (serve s d).rkeyMrShm = store s.rkeyMrShm d.content ∧
      (serve s d).acks = s.acks++[(d,ackText (key d.content))] := by
  obtain ⟨hkey,hmr⟩ := received_wellFormed s d h
  simp only [serve,store,text_printed,hkey,hmr,and_self]

theorem serveAll_wellFormed (s : Server) (ds : List Datagram) (h : ∀ d ∈ ds, d.WellFormed) :
    (ds.foldl serve s).rkeyMrShm = ds.foldl (fun table d => store table d.content) s.rkeyMrShm ∧
      (ds.foldl serve s).acks = s.acks++ds.map fun d => (d,ackText (key d.content)) := by
  induction ds generalizing s with
  | nil => simp
  | cons d ds ih =>
    rw [List.forall_mem_cons] at h
    obtain ⟨htable,hacks⟩ := serve_wellFormed s d h.1
    obtain ⟨htables,hall⟩ := ih (serve s d) h.2
    rw [htable] at htables
    rw [hacks] at hall
    exact ⟨htables,by simpa using hall⟩

theorem serveAll_answers (s : Server) (ds : List Datagram) :
    (ds.foldl serve s).acks.map Prod.fst = s.acks.map Prod.fst++ds := by
  induction ds generalizing s with
  | nil => simp
  | cons d ds ih => simp [ih,serve]

/-- The server does what it should exactly when no datagram is short. -/
theorem accepts_iff (buf : Memory) (rkeyMrShm : ℕ → Option MrShm) (ds : List Datagram) :
    Accepts buf rkeyMrShm ds ↔ ∀ d ∈ ds, d.WellFormed := by
  constructor
  · intro h d hd
    have hanswered : d ∈ (ds.foldl serve (start buf rkeyMrShm)).acks.map Prod.fst := by
      rw [serveAll_answers]
      exact List.mem_append_right _ hd
    obtain ⟨ack,hack,rfl⟩ := List.mem_map.mp hanswered
    exact (h.answers ack hack).1
  · intro h
    obtain ⟨htable,hacks⟩ := serveAll_wellFormed (start buf rkeyMrShm) ds h
    refine ⟨?_,fun ack hack => ?_⟩
    · rw [htable,storeWellFormed,List.filter_eq_self.mpr fun d hd => decide_eq_true (h d hd)]
      rfl
    · rw [hacks] at hack
      obtain ⟨d,hd,rfl⟩ := List.mem_map.mp (by simpa [start] using hack)
      exact ⟨h d hd,rfl⟩

theorem key_printed (buf : Memory) : key (printed buf) = 0x2d6b6361 := by
  simp only [key,printed,ackText,word,put,List.map_cons,List.cons_append,List.getD_cons_zero,
    List.getD_cons_succ,Nat.zero_le,if_true,Nat.sub_zero,Nat.zero_add]
  decide

def emptyDatagram : Datagram := ⟨[],by decide⟩

/-- An empty datagram is read from the answer to the one before it: its key is
the text `ack-`. -/
theorem empty_stores_answer (s : Server) (d : Datagram) :
    (serve (serve s d) emptyDatagram).rkeyMrShm 0x2d6b6361 =
      some (mrShm (printed (received s d))) := by
  have hbuf : received (serve s d) emptyDatagram = printed (received s d) := by
    funext a
    simp [received,serve,put,emptyDatagram]
  have hkey : (key (printed (received s d))).toNat = 0x2d6b6361 := by
    rw [key_printed]
    rfl
  have hstored : (serve (serve s d) emptyDatagram).rkeyMrShm =
      store (serve s d).rkeyMrShm (printed (received s d)) := by
    rw [← hbuf]
    rfl
  rw [hstored,store,hkey,Function.update_self]

def emptyAfterMapping : List Datagram := [⟨List.replicate 24 1,by decide⟩,emptyDatagram]

theorem not_accepts_empty : ¬Accepts (fun _ => 0) (fun _ => none) emptyAfterMapping := by
  intro h
  have htable := congrFun h.table 0x2d6b6361
  have hspec : storeWellFormed (fun _ => none) emptyAfterMapping 0x2d6b6361 = none := by decide
  rw [hspec] at htable
  exact Option.some_ne_none _ ((empty_stores_answer _ _).symm.trans htable)

end FreeFlow.MappingServer
