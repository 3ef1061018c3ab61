import FreeFlow.ReceiveRecords

/-!
# What a receive completion writes

The device scatters a message over the sges of the receive, into the objects
of their MRs. The poll then copies every record whose two addresses differ,
over its whole length: the length of the message plays no part. Bytes behind
the end of the message are overwritten with what the object held before.

`source` is where the byte at an address of the application comes from after
the copies: the last record copied over it, or its own page.
-/

set_option autoImplicit false

namespace FreeFlow.ReceiveCopies

open PagedMemory RegisteredMemory Runs
open ReceiveRecords (sgeRecord)

/-- An sge of the receive with the MR its lkey names. -/
structure Piece (live : List Mr) where
  sge : Sge
  mr : Mr
  mem : mr ∈ live
  inside : sge.Inside mr
  addr_lt : sge.addr < 2^64
  shm_lt : mr.shmPtr+(sge.addr-mr.base) < 2^64

section Records

variable {live : List Mr}

def Piece.record (c : Piece live) : SgeRecord :=
  sgeRecord (fun _ => ⟨c.mr.base,c.mr.shmPtr⟩) c.sge

theorem Piece.record_eq (c : Piece live) :
    c.record = ⟨c.sge.length,c.sge.addr,c.mr.shmPtr+(c.sge.addr-c.mr.base)⟩ := by
  have hlo := c.inside.2.1
  have haddr := c.addr_lt
  have hoff : (c.sge.addr+2^64-c.mr.base)%2^64 = c.sge.addr-c.mr.base := by omega
  simp only [Piece.record,sgeRecord,hoff,Nat.mod_eq_of_lt c.shm_lt,Nat.add_sub_cancel' hlo,
    Nat.mod_eq_of_lt haddr]

/-- The addresses of the sge. -/
def Piece.Covers (c : Piece live) (a : ℕ) : Prop :=
  c.sge.addr ≤ a ∧ a < c.sge.addr+c.sge.length

instance (c : Piece live) (a : ℕ) : Decidable (c.Covers a) := inferInstanceAs (Decidable (_ ∧ _))

/-- The byte of the object behind an address of the sge. -/
def Piece.place (c : Piece live) (a : ℕ) : ℕ × ℕ := (c.mr.obj,a-c.mr.base)

/-- An address of the scatter list and the byte of an object the device
writes for it. -/
structure Place where
  addr : ℕ
  loc : ℕ × ℕ

def Piece.places (c : Piece live) : List Place :=
  (List.range c.sge.length).map fun i => ⟨c.sge.addr+i,c.place (c.sge.addr+i)⟩

def scatter (wr : List (Piece live)) : List Place := wr.flatMap Piece.places

def setByte (t : Space ℕ UInt8) (q : ℕ × ℕ) (b : UInt8) : Space ℕ UInt8 :=
  {t with data := Function.update t.data q.1 (Function.update (t.data q.1) q.2 b)}

/-- The device writes one byte after the other. -/
def deliver (t : Space ℕ UInt8) : List Place → (ℕ → UInt8) → Space ℕ UInt8
  | [], _ => t
  | p::ps, d => deliver (setByte t p.loc (d 0)) ps fun k => d (k+1)

/-- The byte of an object last copied to an address. -/
def source : List (Piece live) → ℕ → Option (ℕ × ℕ)
  | [], _ => none
  | c::cs, a => (source cs a).or
    (if ¬c.mr.Aligned ∧ c.Covers a then some (c.place a) else none)

theorem mem_scatter (wr : List (Piece live)) (p : Place) (hp : p ∈ scatter wr) :
    ∃ c ∈ wr, c.Covers p.addr ∧ p.loc = c.place p.addr := by
  obtain ⟨c,hc,hplace⟩ := List.mem_flatMap.mp hp
  obtain ⟨i,hi,rfl⟩ := List.mem_map.mp hplace
  have hlt := List.mem_range.mp hi
  exact ⟨c,hc,⟨Nat.le_add_right _ _,Nat.add_lt_add_left hlt _⟩,rfl⟩

theorem source_some (wr : List (Piece live)) (a : ℕ) (q : ℕ × ℕ) (h : source wr a = some q) :
    ∃ c ∈ wr, ¬c.mr.Aligned ∧ c.Covers a ∧ q = c.place a := by
  induction wr with
  | nil => simp [source] at h
  | cons c cs ih =>
    rw [source,Option.or_eq_some_iff] at h
    rcases h with hlater | ⟨-,hhere⟩
    · obtain ⟨c',hc',hrest⟩ := ih hlater
      exact ⟨c',List.mem_cons_of_mem c hc',hrest⟩
    · rw [Option.ite_none_right_eq_some,Option.some.injEq] at hhere
      exact ⟨c,List.mem_cons_self,hhere.1.1,hhere.1.2,hhere.2.symm⟩

theorem setByte_data (t : Space ℕ UInt8) (q : ℕ × ℕ) (b : UInt8) (q' : ℕ × ℕ) :
    (setByte t q b).data q'.1 q'.2 = if q' = q then b else t.data q'.1 q'.2 := by
  obtain ⟨o,x⟩ := q
  obtain ⟨o',x'⟩ := q'
  simp only [setByte,Prod.mk.injEq]
  by_cases ho : o' = o
  · subst ho
    simp [Function.update_apply]
  · simp [ho]

theorem deliver_table (t : Space ℕ UInt8) (ps : List Place) (d : ℕ → UInt8) :
    (deliver t ps d).table = t.table := by
  induction ps generalizing t d with
  | nil => rfl
  | cons p ps ih => exact ih _ _

theorem deliver_of_not (t : Space ℕ UInt8) (ps : List Place) (d : ℕ → UInt8) (q : ℕ × ℕ)
    (h : ∀ p ∈ ps, p.loc ≠ q) : (deliver t ps d).data q.1 q.2 = t.data q.1 q.2 := by
  induction ps generalizing t d with
  | nil => rfl
  | cons p ps ih =>
    refine (ih _ _ fun p' hp' => h p' (List.mem_cons_of_mem p hp')).trans ?_
    rw [setByte_data,if_neg (h p List.mem_cons_self).symm]

/-- The last place with a byte of an object decides what the device leaves
there. -/
theorem deliver_at (ps : List Place) (q : ℕ × ℕ) (hq : ∃ p ∈ ps, p.loc = q) :
    ∃ k p, ps[k]? = some p ∧ p.loc = q ∧
      (∀ j p', k < j → ps[j]? = some p' → p'.loc ≠ q) ∧
      ∀ t d, (deliver t ps d).data q.1 q.2 = d k := by
  induction ps with
  | nil => simp at hq
  | cons p ps ih =>
    by_cases hlater : ∃ p' ∈ ps, p'.loc = q
    · obtain ⟨k,p',hk,hloc,hlast,hdata⟩ := ih hlater
      refine ⟨k+1,p',hk,hloc,?_,fun t d => hdata _ _⟩
      intro j p'' hj hget
      obtain ⟨i,rfl⟩ : ∃ i, j = i+1 := ⟨j-1,by omega⟩
      exact hlast i p'' (by omega) hget
    · have hnone : ∀ p' ∈ ps, p'.loc ≠ q := fun p' hp' heq => hlater ⟨p',hp',heq⟩
      obtain ⟨p',hp',hloc⟩ := hq
      obtain rfl : p' = p := by
        rcases List.mem_cons.mp hp' with h | h
        · exact h
        · exact absurd hloc (hnone p' h)
      refine ⟨0,p',rfl,hloc,?_,fun t d => ?_⟩
      · intro j p'' hj hget
        obtain ⟨i,rfl⟩ : ∃ i, j = i+1 := ⟨j-1,by omega⟩
        exact hnone p'' (List.mem_of_getElem? hget)
      · refine (deliver_of_not _ ps _ q hnone).trans ?_
        rw [setByte_data,if_pos hloc.symm]

end Records

section Copies

variable {app : ℕ → Bool} {s : Client} {t : Space ℕ UInt8}

theorem piece_app (hI : Inv app s) (c : Piece s.live) (a : ℕ) (ha : c.Covers a) :
    app (a/pageSize) = true := by
  obtain ⟨-,hlo,hhi⟩ := c.inside
  obtain ⟨hle,hlt⟩ := ha
  have h := app_range hI c.mr c.mem (a-c.mr.base) (by omega)
  rwa [Nat.add_sub_cancel' (hlo.trans hle)] at h

/-- A byte of an object stands behind one address of its MR. -/
theorem place_injective (hI : Inv app s) (c c' : Piece s.live) (a a' : ℕ) (ha : c.Covers a)
    (ha' : c'.Covers a') (h : c.place a = c'.place a') : a = a' := by
  obtain ⟨hobj,hoff⟩ := Prod.mk.inj h
  have hmr := hI.distinct c.mr (hI.sub _ c.mem) c'.mr (hI.sub _ c'.mem) hobj
  have hlo := c.inside.2.1.trans ha.1
  have hlo' := c'.inside.2.1.trans ha'.1
  rw [← hmr] at hoff hlo'
  omega

/-- The application's page shows a byte of an MR at its address only. -/
theorem place_of_loc (hI : Inv app s) (c : Piece s.live) (a a' : ℕ) (ha : c.Covers a)
    (ha' : app (a'/pageSize) = true) (h : s.space.loc pageSize a' = c.place a) : a' = a := by
  by_cases hown : owner s.regs (a'/pageSize) = some c.mr
  · have hle := (owner_spec s.regs _ c.mr hown).2.base_le
    have hlo := c.inside.2.1.trans ha.1
    rw [app_loc_owner hI rfl a' ha' c.mr hown,Piece.place,Prod.mk.injEq] at h
    omega
  · exact absurd (congrArg Prod.fst h) (app_loc_other hI rfl a' ha' c.mr (hI.sub _ c.mem) hown)

/-- The record of an MR mapped in place is not copied. -/
theorem copy_aligned (hI : Inv app s) (c : Piece s.live) (hal : c.mr.Aligned) :
    copyRecord t c.record = t := by
  have hlo := c.inside.2.1
  have hsame : c.mr.shmPtr+(c.sge.addr-c.mr.base) = c.sge.addr := by
    rw [hI.inPlace c.mr (hI.sub _ c.mem) hal]
    omega
  rw [copyRecord,c.record_eq,hsame]
  exact if_neg (not_not.mpr rfl)

theorem copy_unaligned (hI : Inv app s) (c : Piece s.live) (hal : ¬c.mr.Aligned) :
    copyRecord t c.record =
      t.store pageSize c.sge.addr c.sge.length fun i =>
        t.read pageSize (c.mr.shmPtr+(c.sge.addr-c.mr.base)+i) := by
  have hlo := c.inside.2.1
  have hhi := c.inside.2.2
  rw [copyRecord,c.record_eq]
  by_cases heq : c.sge.addr = c.mr.shmPtr+(c.sge.addr-c.mr.base)
  · -- one address in both roles: the sge is empty
    have hzero : c.sge.length = 0 := by
      by_contra hpos
      have happ := piece_app hI c c.sge.addr ⟨le_rfl,by omega⟩
      have hshadow := ((hI.shadow c.mr (hI.sub _ c.mem) hal).2 (c.sge.addr-c.mr.base)
        (by omega)).1
      rw [heq,Mr.shmPtr,Nat.mul_comm,Nat.mul_add_div pageSize_pos,hshadow] at happ
      exact absurd happ (by decide)
    rw [if_neg (not_not.mpr heq),hzero]
    rfl
  · rw [if_pos (show _ ≠ _ from heq)]
    rfl

theorem shadow_read (hI : Inv app s) (ht : t.table = s.space.table) (c : Piece s.live)
    (hal : ¬c.mr.Aligned) (i : ℕ) (hi : i < c.sge.length) :
    t.read pageSize (c.mr.shmPtr+(c.sge.addr-c.mr.base)+i) =
      t.data (c.place (c.sge.addr+i)).1 (c.place (c.sge.addr+i)).2 := by
  have hlo := c.inside.2.1
  have hhi := c.inside.2.2
  have hshow : t.Shows pageSize c.mr.shmPage c.mr.length c.mr.obj := by
    simpa only [Space.Shows,ht] using (hI.shadow c.mr (hI.sub _ c.mem) hal).1
  have hoff : c.sge.addr-c.mr.base+i = c.sge.addr+i-c.mr.base := by omega
  rw [Space.read,Nat.add_assoc,hoff,Mr.shmPtr,hshow.loc pageSize_pos _ (by omega)]
  rfl

/-- The copies leave the objects off the page boundary alone. -/
theorem copy_keeps_places (hI : Inv app s) (ht : t.table = s.space.table) (c c' : Piece s.live)
    (hal : ¬c'.mr.Aligned) (a : ℕ) :
    (copyRecord t c.record).data (c'.place a).1 (c'.place a).2 =
      t.data (c'.place a).1 (c'.place a).2 := by
  by_cases hc : c.mr.Aligned
  · rw [copy_aligned hI c hc]
  · rw [copy_unaligned hI c hc]
    apply store_data_of_not
    intro i hi heq
    have happ := piece_app hI c (c.sge.addr+i) ⟨Nat.le_add_right _ _,Nat.add_lt_add_left hi _⟩
    exact app_loc_unaligned hI ht _ happ c'.mr (hI.sub _ c'.mem) hal (congrArg Prod.fst heq)

theorem copy_read (hI : Inv app s) (ht : t.table = s.space.table) (c : Piece s.live) (a : ℕ)
    (ha : app (a/pageSize) = true) :
    (copyRecord t c.record).read pageSize a =
      if ¬c.mr.Aligned ∧ c.Covers a then t.data (c.place a).1 (c.place a).2
      else t.read pageSize a := by
  by_cases hc : c.mr.Aligned
  · rw [copy_aligned hI c hc,if_neg fun h => h.1 hc]
  · have hinj : ∀ i < c.sge.length, ∀ a', app (a'/pageSize) = true →
        t.loc pageSize (c.sge.addr+i) = t.loc pageSize a' → c.sge.addr+i = a' := by
      intro i hi a' ha' heq
      exact app_loc_injective hI ht _ _
        (piece_app hI c _ ⟨Nat.le_add_right _ _,Nat.add_lt_add_left hi _⟩) ha' heq
    rw [copy_unaligned hI c hc]
    by_cases hcov : c.Covers a
    · obtain ⟨i,rfl⟩ := Nat.exists_eq_add_of_le hcov.1
      have hi : i < c.sge.length := by
        have := hcov.2
        omega
      rw [if_pos ⟨hc,hcov⟩,store_read pageSize t _ _ _ ?_ i hi,shadow_read hI ht c hc i hi]
      intro i hi j hj heq
      have := hinj i hi (c.sge.addr+j)
        (piece_app hI c _ ⟨Nat.le_add_right _ _,Nat.add_lt_add_left hj _⟩) heq
      omega
    · rw [if_neg fun h => hcov h.2,Space.read,loc_congr pageSize t _ (store_table ..),
        store_data_of_not]
      · rfl
      · intro i hi heq
        have := hinj i hi a ha heq
        exact hcov ⟨by omega,by omega⟩

/-- What the application reads after the copies of a whole receive. -/
theorem copies_read (hI : Inv app s) (wr : List (Piece s.live)) (t : Space ℕ UInt8)
    (ht : t.table = s.space.table) (a : ℕ) (ha : app (a/pageSize) = true) :
    ((wr.map Piece.record).foldl copyRecord t).read pageSize a =
      t.data ((source wr a).getD (s.space.loc pageSize a)).1
        ((source wr a).getD (s.space.loc pageSize a)).2 := by
  induction wr generalizing t with
  | nil => rw [source,Option.getD_none,← loc_congr pageSize s.space t ht,← Space.read,List.map_nil,
      List.foldl_nil]
  | cons c cs ih =>
    have ht' := (copyRecord_table t c.record).trans ht
    have hread := copy_read hI ht c a ha
    rw [Space.read,loc_congr pageSize s.space _ ht'] at hread
    rw [List.map_cons,List.foldl_cons,ih _ ht',source]
    cases hlater : source cs a with
    | some q =>
      obtain ⟨c',-,hal,-,rfl⟩ := source_some cs a q hlater
      rw [Option.some_or,Option.getD_some,copy_keeps_places hI ht c c' hal a]
    | none =>
      rw [Option.getD_none,hread,Option.none_or]
      split
      · rw [Option.getD_some]
      · rw [Option.getD_none,Space.read,loc_congr pageSize s.space t ht]

end Copies

section Completions

variable {app : ℕ → Bool} {s : Client}

/-- The places of a message of `n` bytes. -/
def received {live : List Mr} (wr : List (Piece live)) (n : ℕ) : List Place := (scatter wr).take n

/-- The memory when the poll returns the completion of the receive; `d` is
the message. -/
def completed {live : List Mr} (opcode : ℕ) (wr : List (Piece live)) (n : ℕ) (t : Space ℕ UInt8)
    (d : ℕ → UInt8) : Space ℕ UInt8 :=
  ibvCmdPollCq (deliver t (received wr n) d) [⟨opcode,wr.map Piece.record⟩]

/-- The message stands in the first bytes of the scatter list and nothing
else has changed. -/
structure Exact (app : ℕ → Bool) {live : List Mr} (opcode : ℕ) (wr : List (Piece live)) (n : ℕ)
    (t : Space ℕ UInt8) (d : ℕ → UInt8) : Prop where
  message : ∀ k p, (received wr n)[k]? = some p →
    (completed opcode wr n t d).read pageSize p.addr = d k
  others : ∀ a, app (a/pageSize) = true → (∀ p ∈ received wr n, p.addr ≠ a) →
    (completed opcode wr n t d).read pageSize a = t.read pageSize a

/-- Where the byte at an address comes from after the copies. -/
def origin (s : Client) (wr : List (Piece s.live)) (a : ℕ) : ℕ × ℕ :=
  (source wr a).getD (s.space.loc pageSize a)

/-- No address receives two bytes, no byte is copied that was not received,
and every received byte is read where the device wrote it. -/
structure Clean (s : Client) (wr : List (Piece s.live)) (n : ℕ) : Prop where
  distinct : ∀ (j k : ℕ) (p p' : Place), (received wr n)[j]? = some p →
    (received wr n)[k]? = some p' →
    p.addr = p'.addr → j = k
  copied : ∀ a, (source wr a).isSome → ∃ p ∈ received wr n, p.addr = a
  sourced : ∀ p ∈ received wr n, origin s wr p.addr = p.loc

theorem received_piece {live : List Mr} (wr : List (Piece live)) (n : ℕ) (p : Place)
    (hp : p ∈ received wr n) : ∃ c ∈ wr, c.Covers p.addr ∧ p.loc = c.place p.addr :=
  mem_scatter wr p (List.mem_of_mem_take hp)

theorem completed_read (hI : Inv app s) (opcode : ℕ) (hop : opcode&&&wcRecv ≠ 0)
    (wr : List (Piece s.live)) (n : ℕ) (t : Space ℕ UInt8) (ht : t.table = s.space.table)
    (d : ℕ → UInt8) (a : ℕ) (ha : app (a/pageSize) = true) :
    (completed opcode wr n t d).read pageSize a =
      (deliver t (received wr n) d).data (origin s wr a).1 (origin s wr a).2 := by
  have hpoll : completed opcode wr n t d =
      (wr.map Piece.record).foldl copyRecord (deliver t (received wr n) d) := if_pos hop
  rw [hpoll,copies_read hI wr _ ((deliver_table _ _ _).trans ht) a ha]
  rfl

section Necessary

variable (hI : Inv app s) (opcode : ℕ) (hop : opcode&&&wcRecv ≠ 0) (wr : List (Piece s.live))
  (n : ℕ) (hexact : ∀ t : Space ℕ UInt8, t.table = s.space.table → ∀ d, Exact app opcode wr n t d)

include hI hop hexact

/-- The byte behind an address of the message is one the device wrote, and
wrote last for this address. -/
theorem origin_last (k : ℕ) (p : Place) (hk : (received wr n)[k]? = some p) :
    p.loc = origin s wr p.addr ∧
      ∀ j p', k < j → (received wr n)[j]? = some p' → p'.loc ≠ origin s wr p.addr := by
  obtain ⟨c,-,hcov,-⟩ := received_piece wr n p (List.mem_of_getElem? hk)
  have hread := fun d => completed_read hI opcode hop wr n s.space rfl d p.addr
    (piece_app hI c p.addr hcov)
  have hmessage := fun d => (hread d).symm.trans ((hexact s.space rfl d).message k p hk)
  by_cases hplace : ∃ p' ∈ received wr n, p'.loc = origin s wr p.addr
  · obtain ⟨j,p',hj,hloc,hlast,hdata⟩ := deliver_at (received wr n) _ hplace
    have hbyte := (hdata s.space fun i => if i = k then 1 else 0).symm.trans (hmessage _)
    obtain rfl : j = k := by
      by_contra hne
      simp [hne] at hbyte
    obtain rfl : p' = p := Option.some.inj (hj.symm.trans hk)
    exact ⟨hloc,hlast⟩
  · have hnone : ∀ p' ∈ received wr n, p'.loc ≠ origin s wr p.addr :=
      fun p' hp' heq => hplace ⟨p',hp',heq⟩
    have hbyte := hmessage fun _ =>
      s.space.data (origin s wr p.addr).1 (origin s wr p.addr).2+1
    rw [deliver_of_not _ _ _ _ hnone] at hbyte
    exact absurd hbyte.symm (succ_byte_ne _)

/-- A copied byte that was not received shows what the object held. -/
theorem copied_received (a : ℕ) (q : ℕ × ℕ) (hq : source wr a = some q) :
    ∃ p ∈ received wr n, p.addr = a := by
  by_contra hnone
  obtain ⟨c,-,hal,hcov,rfl⟩ := source_some wr a q hq
  have ha := piece_app hI c a hcov
  have hout : ∀ p ∈ received wr n, p.addr ≠ a := fun p hp heq => hnone ⟨p,hp,heq⟩
  have hplaces : ∀ p ∈ received wr n, p.loc ≠ c.place a := by
    intro p hp heq
    obtain ⟨c',-,hcov',hloc⟩ := received_piece wr n p hp
    exact hout p hp (place_injective hI c' c p.addr a hcov' hcov (hloc.symm.trans heq))
  have hshown : s.space.loc pageSize a ≠ c.place a := fun heq =>
    app_loc_unaligned hI rfl a ha c.mr (hI.sub _ c.mem) hal (congrArg Prod.fst heq)
  let t := setByte s.space (c.place a) (s.space.read pageSize a+1)
  have hothers := (hexact t rfl fun _ => 0).others a ha hout
  have hold : t.read pageSize a = s.space.read pageSize a :=
    (setByte_data s.space (c.place a) _ _).trans (if_neg hshown)
  have horigin : origin s wr a = c.place a := by rw [origin,hq,Option.getD_some]
  rw [completed_read hI opcode hop wr n t rfl _ a ha,horigin,deliver_of_not _ _ _ _ hplaces,
    hold] at hothers
  have hnew : t.data (c.place a).1 (c.place a).2 = s.space.read pageSize a+1 :=
    (setByte_data s.space (c.place a) _ _).trans (if_pos rfl)
  exact succ_byte_ne _ (hnew.symm.trans hothers)

end Necessary

/-- In every reachable state, a receive completion sets the first bytes of
the scatter list to the message and changes no other byte of the application,
whatever the memory held, exactly when no address receives two bytes, no byte
is copied that was not received and every received byte is read where the
device wrote it. -/
theorem receive_exact_iff (data : ℕ → ℕ → UInt8) (events : List Event) (s : Client)
    (hrun : run (step app) (started data) events = some s) (opcode : ℕ)
    (hop : opcode&&&wcRecv ≠ 0) (wr : List (Piece s.live)) (n : ℕ) :
    (∀ t : Space ℕ UInt8, t.table = s.space.table → ∀ d, Exact app opcode wr n t d) ↔
      Clean s wr n := by
  have hI := inv_of_run data events s hrun
  constructor
  · intro hexact
    have hlast := origin_last hI opcode hop wr n hexact
    have hdistinct : ∀ (j k : ℕ) (p p' : Place), j < k → (received wr n)[j]? = some p →
        (received wr n)[k]? = some p' → p.addr ≠ p'.addr := by
      intro j k p p' hlt hj hk haddr
      exact (hlast j p hj).2 k p' hlt hk (haddr ▸ (hlast k p' hk).1)
    refine ⟨?_,?_,?_⟩
    · intro j k p p' hj hk haddr
      rcases Nat.lt_trichotomy j k with hlt | heq | hlt
      · exact absurd haddr (hdistinct j k p p' hlt hj hk)
      · exact heq
      · exact absurd haddr.symm (hdistinct k j p' p hlt hk hj)
    · intro a hsome
      obtain ⟨q,hq⟩ := Option.isSome_iff_exists.mp hsome
      exact copied_received hI opcode hop wr n hexact a q hq
    · intro p hp
      obtain ⟨k,hk⟩ := List.getElem?_of_mem hp
      exact (hlast k p hk).1.symm
  · intro hclean t ht d
    constructor
    · intro k p hk
      have hp := List.mem_of_getElem? hk
      obtain ⟨c,-,hcov,hloc⟩ := received_piece wr n p hp
      obtain ⟨j,p',hj,hloc',-,hdata⟩ := deliver_at (received wr n) p.loc ⟨p,hp,rfl⟩
      obtain ⟨c',-,hcov',hplace'⟩ := received_piece wr n p' (List.mem_of_getElem? hj)
      have haddr := place_injective hI c' c p'.addr p.addr hcov' hcov
        (hplace'.symm.trans (hloc'.trans hloc))
      obtain rfl := hclean.distinct j k p' p hj hk haddr
      rw [completed_read hI opcode hop wr n t ht d _ (piece_app hI c p.addr hcov),
        hclean.sourced p hp,hdata]
    · intro a ha hout
      have hnone : source wr a = none := by
        by_contra hsome
        obtain ⟨p,hp,haddr⟩ := hclean.copied a (Option.isSome_iff_ne_none.mpr hsome)
        exact hout p hp haddr
      have hplaces : ∀ p ∈ received wr n, p.loc ≠ s.space.loc pageSize a := by
        intro p hp heq
        obtain ⟨c,-,hcov,hloc⟩ := received_piece wr n p hp
        exact hout p hp (place_of_loc hI c p.addr a hcov ha (heq.symm.trans hloc)).symm
      rw [completed_read hI opcode hop wr n t ht d a ha,origin,hnone,Option.getD_none,
        deliver_of_not _ _ _ _ hplaces,Space.read,loc_congr pageSize s.space t ht]

/-- A client with an MR of two bytes off the page boundary. -/
def shadowed : Client := ibvCmdRegMr (started zeroes) 1 4097 2 7

theorem shadowed_run : run (step pageOne) (started zeroes) [.regMr 1 4097 2 7] = some shadowed := by
  simp only [run,step]
  rw [if_pos (by decide)]
  rfl

/-- An sge over the whole MR. -/
def twoBytes : Piece shadowed.live where
  sge := ⟨4097,2,1⟩
  mr := newMr (started zeroes) 1 4097 2 7
  mem := List.mem_singleton.mpr rfl
  inside := ⟨rfl,by decide,by decide⟩
  addr_lt := by decide
  shm_lt := by decide

theorem received_twoBytes : received [twoBytes] 2 =
    [⟨4097,twoBytes.place 4097⟩,⟨4098,twoBytes.place 4098⟩] := rfl

theorem twoBytes_clean : Clean shadowed [twoBytes] 2 := by
  refine ⟨?_,?_,?_⟩
  · intro j k p p' hj hk haddr
    have hnodup : ((received [twoBytes] 2).map Place.addr).Nodup := by decide
    refine (List.getElem?_inj (by simpa using (List.getElem?_eq_some_iff.mp hj).1) hnodup).mp ?_
    rw [List.getElem?_map,List.getElem?_map,hj,hk,Option.map_some,Option.map_some,haddr]
  · intro a hsome
    obtain ⟨q,hq⟩ := Option.isSome_iff_exists.mp hsome
    obtain ⟨c,hc,-,⟨hlo,hhi⟩,-⟩ := source_some _ a q hq
    obtain rfl := List.mem_singleton.mp hc
    have ha : a = 4097 ∨ a = 4098 := by
      simp only [twoBytes] at hlo hhi
      omega
    rw [received_twoBytes]
    rcases ha with rfl | rfl
    · exact ⟨_,List.mem_cons_self,rfl⟩
    · exact ⟨_,List.mem_cons_of_mem _ List.mem_cons_self,rfl⟩
  · intro p hp
    rw [received_twoBytes] at hp
    rcases List.mem_cons.mp hp with rfl | hp
    · decide
    · obtain rfl := List.mem_singleton.mp hp
      decide

/-- A message of two bytes fills the sge: both bytes are copied to the
application and the byte behind them keeps what the application has written. -/
theorem full_message_received : ∃ t : Space ℕ UInt8, t.table = shadowed.space.table ∧
    t.read pageSize 4099 = 9 ∧ twoBytes.mr.shmPtr ≠ 4097 ∧
    (completed wcRecv [twoBytes] 2 t fun k => if k = 0 then 5 else 6).read pageSize 4097 = 5 ∧
    (completed wcRecv [twoBytes] 2 t fun k => if k = 0 then 5 else 6).read pageSize 4098 = 6 ∧
    (completed wcRecv [twoBytes] 2 t fun k => if k = 0 then 5 else 6).read pageSize 4099 = 9 := by
  let t := shadowed.space.write pageSize 4099 9
  have hexact := (receive_exact_iff zeroes _ shadowed shadowed_run wcRecv (by decide) [twoBytes]
    2).mpr twoBytes_clean t rfl fun k => if k = 0 then 5 else 6
  have hnine : t.read pageSize 4099 = 9 := by decide +kernel
  have hfirst := hexact.message 0 ⟨4097,twoBytes.place 4097⟩ rfl
  have hsecond := hexact.message 1 ⟨4098,twoBytes.place 4098⟩ rfl
  refine ⟨t,rfl,hnine,by decide,hfirst,hsecond,?_⟩
  rw [hexact.others 4099 (by decide) (by rw [received_twoBytes]; simp),hnine]

/-- A message of one byte received into the two bytes: the second byte, which
the application had set to 9, is overwritten with the zero of the object. -/
theorem short_message_overwrites : ∃ s, run (step pageOne) (started zeroes)
    [.regMr 1 4097 2 7,.appWrite 4098 9] = some s ∧
    ∃ c : Piece s.live, (scatter [c]).map Place.addr = [4097,4098] ∧
      s.space.read pageSize 4098 = 9 ∧
      (completed wcRecv [c] 1 s.space fun _ => 5).read pageSize 4097 = 5 ∧
      (completed wcRecv [c] 1 s.space fun _ => 5).read pageSize 4098 = 0 := by
  refine ⟨{shadowed with space := shadowed.space.write pageSize 4098 9},?_,
    ⟨⟨4097,2,1⟩,newMr (started zeroes) 1 4097 2 7,List.mem_singleton.mpr rfl,
      ⟨rfl,by decide,by decide⟩,by decide,by decide⟩,by decide +kernel,by decide +kernel,
    by decide +kernel,by decide +kernel⟩
  simp only [run,step]
  rw [if_pos (by decide)]
  rfl

end Completions

end FreeFlow.ReceiveCopies
