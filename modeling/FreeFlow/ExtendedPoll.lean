import FreeFlow.PollPaths

/-!
# Extended polls

`mlx4_exp_poll_cq` takes an array of `struct ibv_exp_wc` whose elements lie `wc_size` bytes
apart, and passes it on to `ibv_cmd_poll_cq`, which takes it for an array of `struct
ibv_wc` and copies the completions of the response there in one piece. The members the
two structures share lie at the same offsets, so that the first completion is where an
extended poll looks for it. The others are 48 bytes apart.
-/

set_option autoImplicit false

namespace FreeFlow.ExtendedPoll

open ByteMemory PollPaths Wire

/-- The members that `ibv_wc` and `ibv_exp_wc` share; `opcode` is `exp_opcode` in the latter. -/
inductive Field
  | wrId
  | status
  | opcode
  | vendorErr
  | byteLen
  | immData
  | qpNum
  | srcQp
  | pkeyIndex
  | slid
  | sl
  | dlidPathBits
  deriving DecidableEq

/-- The members of a structure with their sizes, in order; the members that are not shared
have no name here. -/
abbrev Members := List (Option Field × ℕ)

def ibvWc : Members :=
  [(some .wrId,8),(some .status,4),(some .opcode,4),(some .vendorErr,4),(some .byteLen,4),
    (some .immData,4),(some .qpNum,4),(some .srcQp,4),(none,4),(some .pkeyIndex,2),(some .slid,2),
    (some .sl,1),(some .dlidPathBits,1)]

/-- `reserved` stands where `wc_flags` does; `timestamp`, three pointers and `exp_wc_flags`
follow. -/
def ibvExpWc : Members :=
  [(some .wrId,8),(some .status,4),(some .opcode,4),(some .vendorErr,4),(some .byteLen,4),
    (some .immData,4),(some .qpNum,4),(some .srcQp,4),(none,4),(some .pkeyIndex,2),(some .slid,2),
    (some .sl,1),(some .dlidPathBits,1),(none,8),(none,8),(none,8),(none,8),(none,8)]

def alignUp (offset align : ℕ) : ℕ := (offset+(align-1))/align*align

/-- The offset and the size of a member; a member is aligned to its size. -/
def place : Members → ℕ → Field → Option (ℕ × ℕ)
  | [], _, _ => none
  | (name,size)::members, offset, f =>
    if name = some f then some (alignUp offset size,size)
    else place members (alignUp offset size+size) f

/-- The size of a structure that is aligned to eight bytes. -/
def sizeOf (members : Members) : ℕ :=
  alignUp (members.foldl (fun offset member => alignUp offset member.2+member.2) 0) 8

/-- The bytes of a member of the structure at `p`. -/
def member (members : Members) (m : Memory) (p : ℕ) (f : Field) : List (BitVec 8) :=
  match place members 0 f with
  | none => []
  | some (offset,size) => slice m (p+offset) size

/-- The size of an array element and the kind of the poll are not used. -/
def mlx4PollCq (slot : Slot) (wc : Memory) (_wcSize : ℕ) (_isExp : Bool) : Option (ℤ × Memory) :=
  (clientPoll slot).map fun (ret,bytes) => (ret,put wc 0 bytes)

def mlx4ExpPollCq (slot : Slot) (wc : Memory) (wcSize : ℕ) : Option (ℤ × Memory) :=
  mlx4PollCq slot wc wcSize true

def mlx4PollIbvCq (slot : Slot) (wc : Memory) : Option (ℤ × Memory) :=
  mlx4PollCq slot wc (sizeOf ibvWc) false

/-- Whatever the router returned and whatever the two arrays held, after polls that return
`n` the members of the `i`-th structures are equal. -/
def Agrees (n wcSize : ℕ) : Prop :=
  ∀ (slot : Slot) (wc wc' out out' : Memory), mlx4ExpPollCq slot wc wcSize = some ((n : ℤ),out) →
    mlx4PollIbvCq slot wc' = some ((n : ℤ),out') →
    ∀ i < n, ∀ f, member ibvExpWc out (i*wcSize) f = member ibvWc out' (i*sizeOf ibvWc) f

theorem sizeOf_ibvWc : sizeOf ibvWc = sizeofWc := rfl

/-- The shared members lie at the same offsets and inside the smaller structure. -/
theorem place_shared (f : Field) : ∃ offset size, place ibvWc 0 f = some (offset,size) ∧
    place ibvExpWc 0 f = some (offset,size) ∧ offset+size ≤ sizeofWc := by
  cases f <;> exact ⟨_,_,rfl,rfl,by decide⟩

theorem member_congr (m m' : Memory) (p q : ℕ) (h : ∀ j < sizeofWc, m (p+j) = m' (q+j)) (f : Field) :
    member ibvExpWc m p f = member ibvWc m' q f := by
  obtain ⟨offset,size,hwc,hexp,hle⟩ := place_shared f
  rw [member,member,hwc,hexp]
  apply slice_congr
  intro j hj
  rw [Nat.add_assoc,Nat.add_assoc]
  exact h (offset+j) (by omega)

/-- A poll that returns `n` has copied `n` completions. -/
theorem clientPoll_inv (slot : Slot) (n : ℕ) (bytes : List (BitVec 8))
    (h : clientPoll slot = some ((n : ℤ),bytes)) : bytes.length = sizeofWc*n := by
  simp only [clientPoll] at h
  split at h
  · obtain ⟨hret,-⟩ := Prod.mk.inj (Option.some.inj h)
    omega
  · next hmod =>
    split at h
    · next hfit =>
      obtain ⟨hret,rfl⟩ := Prod.mk.inj (Option.some.inj h)
      have hdiv : MachineIntegers.toSizeT slot.rspSize/sizeofWc < 2^31 := by
        simp only [sizeofResponseHeader,ctrlRspSize] at hfit
        simp only [sizeofWc]
        omega
      rw [MachineIntegers.toInt_natCast _ hdiv] at hret
      have hcount : MachineIntegers.toSizeT slot.rspSize/sizeofWc = n := by exact_mod_cast hret
      rw [slice,List.length_map,List.length_range,← hcount]
      exact (Nat.mul_div_cancel' (Nat.dvd_of_mod_eq_zero (not_not.mp hmod))).symm
    · cases h

theorem agrees_of_stride (n wcSize : ℕ) (h : n ≤ 1 ∨ wcSize = sizeofWc) : Agrees n wcSize := by
  intro slot wc wc' out out' hexp hplain i hi f
  obtain ⟨⟨ret,bytes⟩,hpoll,hout⟩ := Option.map_eq_some_iff.mp hexp
  obtain ⟨⟨ret',bytes'⟩,hpoll',hout'⟩ := Option.map_eq_some_iff.mp hplain
  obtain ⟨rfl,rfl⟩ := Prod.mk.inj hout
  obtain ⟨rfl,rfl⟩ := Prod.mk.inj hout'
  obtain ⟨-,rfl⟩ := Prod.mk.inj (Option.some.inj (hpoll.symm.trans hpoll'))
  have hlen := clientPoll_inv slot n bytes hpoll
  have hplace : i*wcSize = i*sizeofWc := by
    rcases h with hn | rfl
    · obtain rfl : i = 0 := by omega
      rw [Nat.zero_mul,Nat.zero_mul]
    · rfl
  rw [hplace,sizeOf_ibvWc]
  apply member_congr
  intro j hj
  -- both arrays hold the copy up to its end
  refine (agree_put_put wc wc' 0 bytes _ ⟨Nat.zero_le _,?_⟩).symm
  rw [hlen,Nat.zero_add]
  calc i*sizeofWc+j < i*sizeofWc+sizeofWc := Nat.add_lt_add_left hj _
    _ = sizeofWc*(i+1) := by rw [Nat.mul_succ,Nat.mul_comm]
    _ ≤ sizeofWc*n := Nat.mul_le_mul_left _ hi

/-- Completions of zeros but for the first byte of the second `wr_id`. -/
def marked : Memory := fun a => if a = sizeofWc then 1 else 0

theorem stride_of_agrees (n wcSize : ℕ) (hfit : sizeofResponseHeader+sizeofWc*n ≤ ctrlRspSize)
    (h : Agrees n wcSize) : n ≤ 1 ∨ wcSize = sizeofWc := by
  by_cases hn : n ≤ 1
  · exact .inl hn
  · have hpoll := clientPoll_of_size n hfit marked
    have hmember := h ⟨((sizeofWc*n : ℕ) : ℤ),marked⟩ (fun _ => 0) (fun _ => 0) _ _
      (by rw [mlx4ExpPollCq,mlx4PollCq,hpoll]; rfl) (by rw [mlx4PollIbvCq,mlx4PollCq,hpoll]; rfl)
      1 (by omega) .wrId
    -- the first byte of `wr_id` is the first of the structure
    have hhead := congrArg (fun bytes => bytes.getD 0 0) hmember
    have hbyte : put (fun _ => 0) 0 (slice marked 0 (sizeofWc*n)) wcSize =
        put (fun _ => 0) 0 (slice marked 0 (sizeofWc*n)) sizeofWc := by
      rwa [Nat.one_mul,Nat.one_mul] at hhead
    have hsecond : sizeofWc < sizeofWc*n := by
      simp only [sizeofWc]
      omega
    rw [put_slice,put_slice,if_pos hsecond] at hbyte
    refine .inr ?_
    by_contra hne
    have hzero : marked wcSize = 0 := if_neg hne
    rw [hzero,ite_self] at hbyte
    exact absurd hbyte (by decide)

/-- For every number of completions that fits the response and every `wc_size`, the extended
poll agrees with the plain one exactly when there is at most one completion or the elements
of the array are as long as an `ibv_wc`. -/
theorem extended_poll_agrees_iff (n wcSize : ℕ)
    (hfit : sizeofResponseHeader+sizeofWc*n ≤ ctrlRspSize) :
    Agrees n wcSize ↔ n ≤ 1 ∨ wcSize = sizeofWc :=
  ⟨stride_of_agrees n wcSize hfit,agrees_of_stride n wcSize⟩

theorem one_extended_completion : Agrees 1 (sizeOf ibvExpWc) :=
  (extended_poll_agrees_iff 1 (sizeOf ibvExpWc) (by decide)).mpr (.inl (by decide))

/-- Two completions in an array of `struct ibv_exp_wc`, 88 bytes each: the second one is not
where the caller looks. -/
theorem second_completion_misplaced : sizeOf ibvExpWc = 88 ∧ ∃ out out',
    mlx4ExpPollCq ⟨96,marked⟩ (fun _ => 0) 88 = some (2,out) ∧
    mlx4PollIbvCq ⟨96,marked⟩ (fun _ => 0) = some (2,out') ∧
    member ibvExpWc out (1*88) .wrId = [0,0,0,0,0,0,0,0] ∧
    member ibvWc out' (1*sizeOf ibvWc) .wrId = [1,0,0,0,0,0,0,0] :=
  ⟨rfl,_,_,rfl,rfl,by decide,by decide⟩

end FreeFlow.ExtendedPoll
