import FreeFlow.Runs
import Mathlib.Data.BitVec
import Mathlib.Tactic.Abel

/-!
# Translation of remote addresses

A router translates the remote address of a one-sided operation with the
entry of `rkey_mr_shm` under the operation's rkey. Entries arrive as
datagrams: the router that registered an MR sends key, application base and
shared-memory base to every host of `HOST_LIST`. Datagrams may be lost,
delayed, reordered and repeated. Keys are unique only among the MRs live on
one host, and nothing removes an entry.

The serial number of an MR and the MR carried by a datagram are bookkeeping
of the model; no step reads them.
-/

set_option autoImplicit false

namespace FreeFlow.RemoteMapping

open Runs

/-- `struct MR_SHM`. -/
structure MrShm where
  mrPtr : BitVec 64
  shmPtr : BitVec 64
  deriving DecidableEq

/-- The remote address handed to the driver. A key that stays unknown leaves
the address as the client wrote it. -/
def translate (rkeyMrShm : ℕ → Option MrShm) (rkey : ℕ) (addr : BitVec 64) : BitVec 64 :=
  match rkeyMrShm rkey with
  | some e => e.shmPtr+addr-e.mrPtr
  | none => addr

structure Mr where
  serial : ℕ
  key : ℕ
  base : BitVec 64
  length : ℕ
  shm : BitVec 64
  deriving DecidableEq

/-- The address lies in the application range of the MR. -/
def Mr.Inside (m : Mr) (addr : BitVec 64) : Prop :=
  m.base.toNat ≤ addr.toNat ∧ addr.toNat < m.base.toNat+m.length

variable {H : Type*}

structure Datagram (H : Type*) where
  dst : H
  mr : Mr
  key : ℕ
  mrPtr : BitVec 64
  shmPtr : BitVec 64
  deriving DecidableEq

structure Cluster (H : Type*) where
  serial : ℕ
  live : H → List Mr
  lkeyPtr : H → ℕ → BitVec 64
  rkeyMrShm : H → ℕ → Option MrShm
  wire : List (Datagram H)
  delivered : H → List Mr

inductive Event (H : Type*)
  | regMr (h : H) (key : ℕ) (base : BitVec 64) (length : ℕ) (shm : BitVec 64)
  | regMrMapping (h : H) (m : Mr) (dst : H)
  | deregMr (h : H) (m : Mr)
  | udpServer (g : Datagram H)

def empty : Cluster H := ⟨0,fun _ => [],fun _ _ => 0,fun _ _ => none,[],fun _ => []⟩

variable [DecidableEq H]

def step (s : Cluster H) : Event H → Option (Cluster H)
  | .regMr h key base length shm =>
    if ∀ m ∈ s.live h, m.key ≠ key then
      some {s with
        serial := s.serial+1
        live := Function.update s.live h (⟨s.serial,key,base,length,shm⟩::s.live h)
        lkeyPtr := Function.update s.lkeyPtr h (Function.update (s.lkeyPtr h) key shm)}
    else none
  | .regMrMapping h m dst =>
    if m ∈ s.live h then
      some {s with wire := ⟨dst,m,m.key,m.base,s.lkeyPtr h m.key⟩::s.wire}
    else none
  | .deregMr h m =>
    if m ∈ s.live h then some {s with live := Function.update s.live h ((s.live h).erase m)}
    else none
  | .udpServer g =>
    if g ∈ s.wire then
      some {s with
        rkeyMrShm := Function.update s.rkeyMrShm g.dst
          (Function.update (s.rkeyMrShm g.dst) g.key (some ⟨g.mrPtr,g.shmPtr⟩))
        delivered := Function.update s.delivered g.dst (g.mr::s.delivered g.dst)}
    else none

/-- Every address inside a live MR whose mapping has arrived at a router is
translated there to the same offset in the MR's shared memory. -/
def Right (s : Cluster H) : Prop :=
  ∀ d h, ∀ m ∈ s.live h, m ∈ s.delivered d → ∀ addr, m.Inside addr →
    translate (s.rkeyMrShm d) m.key addr = m.shm+(addr-m.base)

/-- A datagram that arrives has the displacement of every live MR with its
key whose mapping has arrived before. -/
def Compatible (s : Cluster H) : Event H → Prop
  | .udpServer g => g ∈ s.wire → ∀ h, ∀ m ∈ s.live h, m ∈ s.delivered g.dst →
      m.key = g.key → 0 < m.length → g.mr.shm-g.mr.base = m.shm-m.base
  | _ => True

structure Inv (s : Cluster H) : Prop where
  live_serial : ∀ h, ∀ m ∈ s.live h, m.serial < s.serial
  delivered_serial : ∀ d, ∀ m ∈ s.delivered d, m.serial < s.serial
  lkey : ∀ h, ∀ m ∈ s.live h, s.lkeyPtr h m.key = m.shm
  wire : ∀ g ∈ s.wire, g.mr.serial < s.serial ∧ g.key = g.mr.key ∧ g.mrPtr = g.mr.base ∧
    g.shmPtr = g.mr.shm

omit [DecidableEq H] in
theorem inv_empty : Inv (empty : Cluster H) :=
  ⟨by simp [empty],by simp [empty],by simp [empty],by simp [empty]⟩

theorem mem_update_cons {α : Type*} (f : H → List α) (h h' : H) (x y : α) :
    y ∈ Function.update f h (x::f h) h' ↔ h' = h ∧ y = x ∨ y ∈ f h' := by
  by_cases hh : h' = h
  · subst hh
    simp
  · simp [hh]

theorem mem_update_erase {α : Type*} [DecidableEq α] (f : H → List α) (h h' : H) (x y : α)
    (hy : y ∈ Function.update f h ((f h).erase x) h') : y ∈ f h' := by
  by_cases hh : h' = h
  · subst hh
    exact List.mem_of_mem_erase (by simpa using hy)
  · simpa [hh] using hy

theorem step_regMr {s t : Cluster H} {h : H} {key : ℕ} {base : BitVec 64} {length : ℕ}
    {shm : BitVec 64} (ht : step s (.regMr h key base length shm) = some t) :
    (∀ m ∈ s.live h, m.key ≠ key) ∧ t = {s with
      serial := s.serial+1
      live := Function.update s.live h (⟨s.serial,key,base,length,shm⟩::s.live h)
      lkeyPtr := Function.update s.lkeyPtr h (Function.update (s.lkeyPtr h) key shm)} := by
  simp only [step,Option.ite_none_right_eq_some,Option.some.injEq] at ht
  exact ⟨ht.1,ht.2.symm⟩

theorem step_regMrMapping {s t : Cluster H} {h dst : H} {m : Mr}
    (ht : step s (.regMrMapping h m dst) = some t) :
    m ∈ s.live h ∧ t = {s with wire := ⟨dst,m,m.key,m.base,s.lkeyPtr h m.key⟩::s.wire} := by
  simp only [step,Option.ite_none_right_eq_some,Option.some.injEq] at ht
  exact ⟨ht.1,ht.2.symm⟩

theorem step_deregMr {s t : Cluster H} {h : H} {m : Mr} (ht : step s (.deregMr h m) = some t) :
    t = {s with live := Function.update s.live h ((s.live h).erase m)} := by
  simp only [step,Option.ite_none_right_eq_some,Option.some.injEq] at ht
  exact ht.2.symm

theorem step_udpServer {s t : Cluster H} {g : Datagram H}
    (ht : step s (.udpServer g) = some t) : g ∈ s.wire ∧ t = {s with
      rkeyMrShm := Function.update s.rkeyMrShm g.dst
        (Function.update (s.rkeyMrShm g.dst) g.key (some ⟨g.mrPtr,g.shmPtr⟩))
      delivered := Function.update s.delivered g.dst (g.mr::s.delivered g.dst)} := by
  simp only [step,Option.ite_none_right_eq_some,Option.some.injEq] at ht
  exact ⟨ht.1,ht.2.symm⟩

theorem inv_step (s : Cluster H) (e : Event H) (t : Cluster H) (hI : Inv s)
    (ht : step s e = some t) : Inv t := by
  cases e with
  | regMr h key base length shm =>
    obtain ⟨hfresh,rfl⟩ := step_regMr ht
    refine ⟨?_,?_,?_,?_⟩
    · intro h' m hm
      rcases (mem_update_cons _ _ _ _ _).mp hm with ⟨-,rfl⟩ | hm
      · exact Nat.lt_succ_self _
      · exact Nat.lt_succ_of_lt (hI.live_serial h' m hm)
    · exact fun d m hm => Nat.lt_succ_of_lt (hI.delivered_serial d m hm)
    · intro h' m hm
      rcases (mem_update_cons _ _ _ _ _).mp hm with ⟨rfl,rfl⟩ | hold
      · simp
      · by_cases hh : h' = h
        · subst hh
          simpa [hfresh m hold] using hI.lkey h' m hold
        · simpa [hh] using hI.lkey h' m hold
    · intro g hg
      exact ⟨Nat.lt_succ_of_lt (hI.wire g hg).1,(hI.wire g hg).2⟩
  | regMrMapping h m dst =>
    obtain ⟨hm,rfl⟩ := step_regMrMapping ht
    refine ⟨hI.live_serial,hI.delivered_serial,hI.lkey,?_⟩
    intro g hg
    rcases List.mem_cons.mp hg with rfl | hg
    · exact ⟨hI.live_serial h m hm,rfl,rfl,hI.lkey h m hm⟩
    · exact hI.wire g hg
  | deregMr h m =>
    obtain rfl := step_deregMr ht
    exact ⟨fun h' m' hm => hI.live_serial h' m' (mem_update_erase _ _ _ _ _ hm),
      hI.delivered_serial,fun h' m' hm => hI.lkey h' m' (mem_update_erase _ _ _ _ _ hm),hI.wire⟩
  | udpServer g =>
    obtain ⟨hg,rfl⟩ := step_udpServer ht
    refine ⟨hI.live_serial,?_,hI.lkey,hI.wire⟩
    intro d m hm
    rcases (mem_update_cons _ _ _ _ _).mp hm with ⟨-,rfl⟩ | hm
    · exact (hI.wire g hg).1
    · exact hI.delivered_serial d m hm

omit [DecidableEq H] in
/-- An entry translates a whole MR rightly when its displacement is the
MR's. -/
theorem entry_right (e : MrShm) (m : Mr) (hdisp : e.shmPtr-e.mrPtr = m.shm-m.base)
    (addr : BitVec 64) : e.shmPtr+addr-e.mrPtr = m.shm+(addr-m.base) := by
  calc e.shmPtr+addr-e.mrPtr = (e.shmPtr-e.mrPtr)+addr := by abel
    _ = (m.shm-m.base)+addr := by rw [hdisp]
    _ = m.shm+(addr-m.base) := by abel

theorem entry_displacement (e : MrShm) (m : Mr) (addr : BitVec 64)
    (h : e.shmPtr+addr-e.mrPtr = m.shm+(addr-m.base)) : e.shmPtr-e.mrPtr = m.shm-m.base := by
  calc e.shmPtr-e.mrPtr = (e.shmPtr+addr-e.mrPtr)-addr := by abel
    _ = (m.shm+(addr-m.base))-addr := by rw [h]
    _ = m.shm-m.base := by abel

theorem right_regMr (s t : Cluster H) (hI : Inv s) (hR : Right s) {h : H} {key : ℕ}
    {base : BitVec 64} {length : ℕ} {shm : BitVec 64}
    (ht : step s (.regMr h key base length shm) = some t) : Right t := by
  obtain ⟨-,rfl⟩ := step_regMr ht
  intro d h' m hm hd addr hin
  rcases (mem_update_cons _ _ _ _ _).mp hm with ⟨-,rfl⟩ | hold
  · exact absurd (hI.delivered_serial d _ hd) (Nat.lt_irrefl _)
  · exact hR d h' m hold hd addr hin

/-- A delivery keeps the translations right exactly when it is compatible
with the mappings that arrived before. -/
theorem right_udpServer_iff (s t : Cluster H) (hI : Inv s) (hR : Right s) (g : Datagram H)
    (ht : step s (.udpServer g) = some t) : Right t ↔ Compatible s (.udpServer g) := by
  obtain ⟨hg,rfl⟩ := step_udpServer ht
  obtain ⟨-,hkey,hmr,hshm⟩ := hI.wire g hg
  constructor
  · intro hafter _ h m hm hd hmk hlen
    -- the first address of the MR shows the displacement of the new entry
    have hin : m.Inside m.base := ⟨Nat.le_refl _,by omega⟩
    have hnew := hafter g.dst h m hm ((mem_update_cons _ _ _ _ _).mpr (.inr hd)) m.base hin
    simp only [translate,Function.update_self,hmk] at hnew
    have hdisp := entry_displacement ⟨g.mrPtr,g.shmPtr⟩ m m.base hnew
    rwa [hmr,hshm] at hdisp
  · intro hcomp d h m hm hd addr hin
    by_cases hhit : d = g.dst ∧ m.key = g.key
    · obtain ⟨rfl,hmk⟩ := hhit
      simp only [translate,Function.update_self,hmk]
      refine entry_right ⟨g.mrPtr,g.shmPtr⟩ m ?_ addr
      rw [hmr,hshm]
      rcases (mem_update_cons _ _ _ _ _).mp hd with ⟨-,rfl⟩ | hold
      · rfl
      · exact hcomp hg h m hm hold hmk (by have := hin.1; have := hin.2; omega)
    · -- every other entry stays as it was
      have htable : Function.update s.rkeyMrShm g.dst
          (Function.update (s.rkeyMrShm g.dst) g.key (some ⟨g.mrPtr,g.shmPtr⟩)) d m.key =
          s.rkeyMrShm d m.key := by
        by_cases hd' : d = g.dst
        · subst hd'
          simp [show m.key ≠ g.key from fun h => hhit ⟨rfl,h⟩]
        · simp [hd']
      have hold : m ∈ s.delivered d := by
        rcases (mem_update_cons _ _ _ _ _).mp hd with ⟨rfl,rfl⟩ | hold
        · exact absurd ⟨rfl,hkey.symm⟩ hhit
        · exact hold
      simpa only [translate,htable] using hR d h m hm hold addr hin

/-- Over every run, translations are right after every step exactly when
every datagram that arrives is compatible with the live mappings under its
key that arrived before it. -/
theorem translation_right_iff (events : List (Event H)) :
    Along step (fun s e => ∀ t, step s e = some t → Right t) (empty : Cluster H) events ↔
      Along step Compatible (empty : Cluster H) events := by
  refine along_iff step _ _ (fun s => Inv s ∧ Right s) ?_ ?_ empty events
    ⟨inv_empty,by simp [Right,empty]⟩
  · rintro s e ⟨hI,hR⟩
    cases e with
    | regMr h key base length shm =>
      exact iff_of_true (fun t ht => right_regMr s t hI hR ht) trivial
    | regMrMapping h m dst =>
      refine iff_of_true (fun t ht => ?_) trivial
      obtain ⟨-,rfl⟩ := step_regMrMapping ht
      exact hR
    | deregMr h m =>
      refine iff_of_true (fun t ht => ?_) trivial
      obtain rfl := step_deregMr ht
      exact fun d h' m' hm => hR d h' m' (mem_update_erase _ _ _ _ _ hm)
    | udpServer g =>
      by_cases hg : g ∈ s.wire
      · obtain ⟨t,ht⟩ : ∃ t, step s (.udpServer g) = some t := by simp [step,hg]
        have hiff := right_udpServer_iff s t hI hR g ht
        exact ⟨fun h => hiff.mp (h t ht),fun h t' ht' =>
          Option.some.inj (ht.symm.trans ht') ▸ hiff.mpr h⟩
      · exact iff_of_true (fun t ht => absurd (step_udpServer ht).1 hg) (fun h => absurd h hg)
  · rintro s e t ⟨hI,-⟩ hright ht
    exact ⟨inv_step s e t hI ht,hright t ht⟩

/-- Two hosts register an MR under the same key; both mappings reach a third
host, that of the second MR last. -/
def sameKey : List (Event (Fin 3)) :=
  [.regMr 0 5 0x1000 64 0x7000,.regMr 1 5 0x2000 64 0x9000,
    .regMrMapping 0 ⟨0,5,0x1000,64,0x7000⟩ 2,.regMrMapping 1 ⟨1,5,0x2000,64,0x9000⟩ 2,
    .udpServer ⟨2,⟨0,5,0x1000,64,0x7000⟩,5,0x1000,0x7000⟩,
    .udpServer ⟨2,⟨1,5,0x2000,64,0x9000⟩,5,0x2000,0x9000⟩]

/-- The first MR's addresses are then translated with the second MR's
displacement. -/
theorem same_key_mistranslated :
    ∃ s, run step (empty : Cluster (Fin 3)) sameKey = some s ∧
      ⟨0,5,0x1000,64,0x7000⟩ ∈ s.live 0 ∧ ⟨0,5,0x1000,64,0x7000⟩ ∈ s.delivered 2 ∧
      translate (s.rkeyMrShm 2) 5 0x1000 = 0x8000 ∧ ¬Right s := by
  refine ⟨_,rfl,by decide,by decide,by decide,fun h => ?_⟩
  have hfirst := h 2 0 ⟨0,5,0x1000,64,0x7000⟩ (by decide) (by decide) 0x1000
    ⟨by decide,by decide⟩
  exact absurd hfirst (by decide)

end FreeFlow.RemoteMapping
