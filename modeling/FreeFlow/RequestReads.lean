import FreeFlow.DestroyRequests
import FreeFlow.MachineIntegers
import FreeFlow.TableBounds

/-!
# The guards behind the reads of a request

`HandleRequest` compares what `read` returned with the size it asked for. The
result is an `ssize_t`, the header and `IBV_CREATE_QP` keep it in an `int`, and
`sizeof` is a `size_t`: in the comparison -1 becomes the largest number and is
not less than any size. Only the three posts compare with `body_size`, a
`uint32_t`, where the comparison is signed.

Behind a read that failed the handler goes on with what `header` and `req_body`
held before.
-/

set_option autoImplicit false

namespace FreeFlow.RequestReads

open ByteMemory Wire
open MachineIntegers (toInt toSizeT)
open TableBounds (bodyLength headerSize posts)

/-- A result of `read` for `n` bytes: a number of bytes, or -1. -/
structure ReadResult (n : ℕ) where
  value : ℤ
  lower : -1 ≤ value
  upper : value ≤ n

/-- `read(..) < sizeof(..)`. -/
def lessSizeof (r : ℤ) (n : ℕ) : Bool := toSizeT r < n

/-- `(n = read(..)) < sizeof(..)`. -/
def intLessSizeof (r : ℤ) (n : ℕ) : Bool := toSizeT (toInt r) < n

/-- `read(..) < header.body_size`. -/
def lessBodySize (r : ℤ) (bodySize : ℕ) : Bool := r < bodySize

def headerShort (r : ℤ) : Bool := intLessSizeof r headerSize

def bodyShort (bodySize : ℕ) (f : RdmaFunctionCall) (r : ℤ) : Bool :=
  match bodyLength bodySize f with
  | none => false
  | some n =>
    if posts f then lessBodySize r n
    else if f = .ibvCreateQp then intLessSizeof r n
    else lessSizeof r n

/-- The bytes a case asks for; 0 when it reads no body. -/
def sizeofBody (bodySize : ℕ) (f : RdmaFunctionCall) : ℕ := (bodyLength bodySize f).getD 0

/-- A case that reads one struct of its own. -/
def FixedSize (f : RdmaFunctionCall) : Prop := posts f = false ∧ ∃ n, bodyLength 0 f = some n

instance (f : RdmaFunctionCall) : Decidable (FixedSize f) :=
  decidable_of_iff (posts f = false ∧ (bodyLength 0 f).isSome) (by
    rw [FixedSize,Option.isSome_iff_exists])

/-- One round of the handler: the results of the two reads, and what `header` and
`req_body` hold behind them. -/
structure Turn where
  func : RdmaFunctionCall
  bodySize : ℕ
  reqBody : Memory
  header : ReadResult headerSize
  body : ReadResult (sizeofBody bodySize func)

def Turn.Complete (t : Turn) : Prop :=
  t.header.value = headerSize ∧ t.body.value = sizeofBody t.bodySize t.func

/-- One of the reads returned some bytes, but not all. -/
def Turn.Short (t : Turn) : Prop :=
  (0 ≤ t.header.value ∧ t.header.value < headerSize) ∨
    (0 ≤ t.body.value ∧ t.body.value < sizeofBody t.bodySize t.func)

section Handler

variable {E : Type*} (behind : RdmaFunctionCall → Memory → List E)

/-- The driver calls and table changes of a round, where `behind` are those of each
case behind its guard. -/
def handleRequest (t : Turn) : List E :=
  if headerShort t.header.value then []
  else if bodyShort t.bodySize t.func t.body.value then []
  else behind t.func t.reqBody

end Handler

/-- No struct is as large as to reach the sign of an `int`. -/
theorem bodyLength_small (f : RdmaFunctionCall) (n : ℕ) (hposts : posts f = false) (bodySize : ℕ)
    (h : bodyLength bodySize f = some n) : 0 < n ∧ n < 2^31 := by
  cases f with
  | ibvPostSend | ibvPostRecv | ibvPostSrqRecv => cases hposts
  | ibvGetDeviceList | ibvGetContext | ibvQueryDev | ibvAllocPd | ibvRegCm | ibvCreateCompChannel
  | ibvMalloc | ibvFree | ibvResizeCq | cmCreateEventChannel | socketBind | socketAccept => cases h
  | _ =>
    obtain rfl := Option.some.inj h
    decide

/-- Of the results a read can have, exactly the full one and -1 pass. -/
theorem lessSizeof_eq_false_iff {n : ℕ} (r : ReadResult n) (hn : n < 2^31) :
    lessSizeof r.value n = false ↔ r.value = n ∨ r.value = -1 := by
  have hlo := r.lower
  have hhi := r.upper
  rw [lessSizeof,decide_eq_false_iff_not,toSizeT]
  omega

theorem intLessSizeof_eq {n : ℕ} (r : ReadResult n) (hn : n < 2^31) :
    intLessSizeof r.value n = lessSizeof r.value n := by
  have hlo := r.lower
  have hhi := r.upper
  rw [intLessSizeof,MachineIntegers.toInt_of_mem r.value (by omega) (by omega),lessSizeof]

theorem headerShort_eq_false_iff (r : ReadResult headerSize) :
    headerShort r.value = false ↔ r.value = headerSize ∨ r.value = -1 := by
  rw [headerShort,intLessSizeof_eq r (by decide),lessSizeof_eq_false_iff r (by decide)]

theorem bodyLength_of_fixed {f : RdmaFunctionCall} (hf : FixedSize f) (bodySize : ℕ) :
    bodyLength bodySize f = some (sizeofBody bodySize f) := by
  obtain ⟨hposts,n,hn⟩ := hf
  have hsame : bodyLength bodySize f = some n := by
    rw [← hn]
    cases f <;> first | rfl | cases hposts
  rw [sizeofBody,hsame]
  rfl

theorem bodyShort_eq {f : RdmaFunctionCall} (hf : FixedSize f) (bodySize : ℕ)
    (r : ReadResult (sizeofBody bodySize f)) :
    bodyShort bodySize f r.value = lessSizeof r.value (sizeofBody bodySize f) := by
  have hlen := bodyLength_of_fixed hf bodySize
  have hsmall := (bodyLength_small f _ hf.1 bodySize hlen).2
  rw [bodyShort,hlen]
  simp only [hf.1,Bool.false_eq_true,if_false,intLessSizeof_eq r hsmall,ite_self]

theorem bodyShort_eq_false_iff {f : RdmaFunctionCall} (hf : FixedSize f) (bodySize : ℕ)
    (r : ReadResult (sizeofBody bodySize f)) :
    bodyShort bodySize f r.value = false ↔
      r.value = sizeofBody bodySize f ∨ r.value = -1 := by
  have hsmall := (bodyLength_small f _ hf.1 bodySize (bodyLength_of_fixed hf bodySize)).2
  rw [bodyShort_eq hf,lessSizeof_eq_false_iff r hsmall]

section Handler

variable {E : Type*} (behind : RdmaFunctionCall → Memory → List E)

theorem handleRequest_ne_nil_iff (t : Turn) (hf : FixedSize t.func) :
    handleRequest behind t ≠ [] ↔
      (t.header.value = headerSize ∨ t.header.value = -1) ∧
        (t.body.value = sizeofBody t.bodySize t.func ∨ t.body.value = -1) ∧
        behind t.func t.reqBody ≠ [] := by
  rw [← headerShort_eq_false_iff,← bodyShort_eq_false_iff hf,handleRequest]
  cases headerShort t.header.value <;> cases bodyShort t.bodySize t.func t.body.value <;> simp

/-- A case acts on complete reads only, exactly when it does nothing or a read that
failed goes with another one that came short. -/
theorem performed_complete_iff (t : Turn) (hf : FixedSize t.func) :
    (handleRequest behind t ≠ [] → t.Complete) ↔
      behind t.func t.reqBody = [] ∨ (t.header.value = -1 ∨ t.body.value = -1 → t.Short) := by
  have hheader := t.header.lower
  have hheader' := t.header.upper
  have hbody := t.body.lower
  have hbody' := t.body.upper
  rw [handleRequest_ne_nil_iff behind t hf,Turn.Complete,Turn.Short]
  have hsize : (0 : ℤ) ≤ headerSize := by decide
  by_cases hacts : behind t.func t.reqBody = []
  · simp [hacts]
  · simp only [hacts,ne_eq,not_false_eq_true,and_true,false_or]
    omega

end Handler

section Destroying

open DestroyRequests (Outcome Request Tables oneOfEach)

/-- The destroying request a body stands for. -/
def destroyRequest (body : Memory) : RdmaFunctionCall → Option Request
  | .ibvDeallocPd => some (.deallocPd (word body 0).toNat)
  | .ibvDestroyCq => some (.destroyCq (word body 0).toNat)
  | .ibvDestroyQp => some (.destroyQp (word body 0).toNat)
  | .ibvDestroySrq => some (.destroySrq (word body 0).toNat)
  | .ibvDestroyCompChannel => some (.destroyCompChannel (word body 0).toInt)
  | .ibvDeregMr => some (.deregMr (word body 0).toNat)
  | _ => none

/-- The objects that the destroying cases give to the driver. -/
def destroys (s : Tables) (ret : ℤ) (f : RdmaFunctionCall) (body : Memory) : List ℕ :=
  ((destroyRequest body f).bind fun r =>
    (DestroyRequests.handleRequest s r ret).bind Outcome.called).toList

/-- The body of an earlier request named the handle 3. -/
def staleBody : Memory := fun a => if a = 0 then 3 else 0

def destroyTurn (f : RdmaFunctionCall) (header : ReadResult headerSize)
    (body : ReadResult (sizeofBody 4 f)) : Turn := ⟨f,4,staleBody,header,body⟩

def failedRead (n : ℕ) : ReadResult n := ⟨-1,le_refl _,by omega⟩

def fullRead (n : ℕ) : ReadResult n := ⟨n,by omega,le_refl _⟩

theorem full_reads_destroy :
    handleRequest (destroys oneOfEach 0) (destroyTurn .ibvDeallocPd (fullRead _) (fullRead _)) = [1] ∧
      (destroyTurn .ibvDeallocPd (fullRead _) (fullRead _)).Complete := by
  have hdone : handleRequest (destroys oneOfEach 0)
      (destroyTurn .ibvDeallocPd (fullRead _) (fullRead _)) = [1] := by decide
  refine ⟨hdone,(performed_complete_iff (destroys oneOfEach 0) _ (by decide)).mpr (.inr ?_) ?_⟩
  · rintro (h | h)
    · exact absurd h (by decide)
    · exact absurd h (by decide)
  · rw [hdone]
    decide

/-- A body that could not be read destroys the object of an earlier request, also
behind a header that could not be read. -/
structure DestroysUnread (f : RdmaFunctionCall) : Prop where
  fixed : FixedSize f
  body : handleRequest (destroys oneOfEach 0) (destroyTurn f (fullRead _) (failedRead _)) = [1]
  both : handleRequest (destroys oneOfEach 0) (destroyTurn f (failedRead _) (failedRead _)) = [1]
  incomplete : ∀ header, ¬(destroyTurn f header (failedRead _)).Complete

theorem not_complete_of_failed (f : RdmaFunctionCall) (header : ReadResult headerSize) :
    ¬(destroyTurn f header (failedRead _)).Complete := by
  rintro ⟨-,hbody⟩
  simp only [destroyTurn,failedRead] at hbody
  omega

theorem failed_reads_destroy :
    DestroysUnread .ibvDeallocPd ∧ DestroysUnread .ibvDestroyCq ∧ DestroysUnread .ibvDestroyQp ∧
    DestroysUnread .ibvDestroySrq ∧ DestroysUnread .ibvDestroyCompChannel ∧
    DestroysUnread .ibvDeregMr :=
  ⟨⟨by decide,by decide,by decide,not_complete_of_failed _⟩,
    ⟨by decide,by decide,by decide,not_complete_of_failed _⟩,
    ⟨by decide,by decide,by decide,not_complete_of_failed _⟩,
    ⟨by decide,by decide,by decide,not_complete_of_failed _⟩,
    ⟨by decide,by decide,by decide,not_complete_of_failed _⟩,
    ⟨by decide,by decide,by decide,not_complete_of_failed _⟩⟩

end Destroying

section Accesses

/-- The result of a read that is a number of bytes or nothing. -/
def result : Option ℕ → ℤ
  | none => -1
  | some k => k

def readResult {n : ℕ} (got : Option ℕ) (hgot : ∀ k ∈ got, k ≤ n) : ReadResult n where
  value := result got
  lower := by cases got <;> simp [result]
  upper := by
    cases got with
    | none => simp [result]
    | some k => exact Int.ofNat_le.mpr (hgot k rfl)

theorem short_eq {n : ℕ} (got : Option ℕ) (hn : n < 2^31) (hgot : ∀ k ∈ got, k ≤ n) :
    TableBounds.short n got = lessSizeof (result got) n := by
  cases got with
  | none =>
    rw [result,lessSizeof,toSizeT,TableBounds.short,Option.any_none,eq_comm,
      decide_eq_false_iff_not]
    omega
  | some k =>
    have hk := hgot k rfl
    rw [result,lessSizeof,toSizeT,TableBounds.short,Option.any_some,decide_eq_decide]
    omega

theorem shortOrFailed_eq (n : ℕ) (got : Option ℕ) :
    TableBounds.shortOrFailed n got = lessBodySize (result got) n := by
  cases got with
  | none =>
    rw [result,lessBodySize,TableBounds.shortOrFailed,Option.all_none,eq_comm,decide_eq_true_iff]
    omega
  | some k =>
    rw [result,lessBodySize,TableBounds.shortOrFailed,Option.all_some,decide_eq_decide]
    omega

theorem bodyFailed_eq (e : TableBounds.Turn) (f : RdmaFunctionCall) (bodySize : ℕ)
    (hgot : ∀ k ∈ e.body, k ≤ sizeofBody bodySize f) :
    TableBounds.bodyFailed e f bodySize = bodyShort bodySize f (result e.body) := by
  rw [sizeofBody] at hgot
  rw [TableBounds.bodyFailed,bodyShort]
  cases hlen : bodyLength bodySize f with
  | none => rfl
  | some n =>
    rw [hlen] at hgot
    simp only [Option.any_some]
    cases hposts : posts f with
    | true => exact shortOrFailed_eq n e.body
    | false =>
      have hsmall := (bodyLength_small f n hposts bodySize hlen).2
      have hint := intLessSizeof_eq (readResult e.body hgot) hsmall
      simp only [Bool.false_eq_true,if_false]
      rw [short_eq e.body hsmall hgot]
      split
      · exact hint.symm
      · rfl

/-- The entries logged for a request are what its case does behind the comparisons of
the source. -/
theorem served_eq (s : TableBounds.State) (e : TableBounds.Turn) (f : RdmaFunctionCall)
    (bodySize : ℕ) (hheader : ∀ k ∈ e.header, k ≤ headerSize)
    (hbody : ∀ k ∈ e.body, k ≤ sizeofBody bodySize f)
    (hhears : TableBounds.hears s e = some (f,bodySize)) :
    TableBounds.served s e f bodySize = (bodyLength bodySize f).toList.map .read++
      handleRequest (fun f body => TableBounds.accesses e body f)
        ⟨f,bodySize,TableBounds.bodyOf s e,readResult e.header hheader,readResult e.body hbody⟩ := by
  have hpassed : headerShort (result e.header) = false := by
    have hint := intLessSizeof_eq (readResult e.header hheader) (by decide)
    cases hshort : TableBounds.short headerSize e.header with
    | true => simp [TableBounds.hears,hshort] at hhears
    | false => exact (hint.trans (short_eq e.header (by decide) hheader).symm).trans hshort
  rw [TableBounds.served,handleRequest,bodyFailed_eq e f bodySize hbody]
  simp only [readResult,hpassed,Bool.false_eq_true,if_false]
  rfl

end Accesses

end FreeFlow.RequestReads
