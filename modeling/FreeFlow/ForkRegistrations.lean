import FreeFlow.ForkRangeFailures
import FreeFlow.Runs
import Mathlib.Algebra.BigOperators.Group.List.Basic

/-!
# Memory regions and forks

`ibv_reg_mr`, `ibv_rereg_mr` and `ibv_dereg_mr` keep the pages of a region out
of a fork and let them in again. The provider may refuse each of them.

A region is `counted` while its pages are counted in the tree for it. An
on-demand region is not when it is registered, but its pages are taken from the
count when it is moved or deregistered; such ranges are kept in `gone`. `failed`
says that a call of `ibv_madvise_range` has failed. `pages` is the size of the
pages at an address. Regions that the provider allocates or shares are not
among these, their ranges are the provider's own.
-/

set_option autoImplicit false

namespace FreeFlow.ForkRegistrations

open ForkRanges Runs

structure Mr where
  addr : ℕ
  length : ℕ
  counted : Bool
  deriving DecidableEq

structure Lib where
  mm : Mm
  mrs : List Mr
  gone : List Mr
  failed : Bool

variable (pages : ℕ → ℕ)

/-- A call of `ibv_dontfork_range` or `ibv_dofork_range`, and whether it has failed. -/
def Lib.range (w : Lib) (addr length : ℕ) (advice : Advice) : Option (Lib × Bool) :=
  (ibvMadviseRange w.mm (pages addr) addr length advice).map fun out =>
    (⟨out.1,w.mrs,w.gone,w.failed || decide (out.2 ≠ 0)⟩,decide (out.2 ≠ 0))

/-- `made` says whether the provider has made the region. -/
def ibvCommonRegMr (w : Lib) (addr length : ℕ) (onDemand physical made : Bool) : Option Lib :=
  if physical ∧ (addr ≠ 0 ∨ length ≠ 0) then some w
  else if onDemand ∨ physical then
    some (if made then {w with mrs := ⟨addr,length,false⟩::w.mrs} else w)
  else
    (w.range pages addr length .dontfork).bind fun out =>
      if out.2 then some out.1
      else if made then some {out.1 with mrs := ⟨addr,length,true⟩::out.1.mrs}
      else (out.1.range pages addr length .dofork).map Prod.fst

structure ReregFlags where
  changeTranslation : Bool
  changePd : Bool
  changeAccess : Bool
  other : Bool
  deriving DecidableEq

/-- A region that is moved or deregistered; `gone` gets the range when it was not counted. -/
def Lib.release (w : Lib) (mr : Mr) : Lib :=
  {w with mrs := w.mrs.erase mr,gone := if mr.counted then w.gone else mr::w.gone}

def ibvReregMr (w : Lib) (mr : Mr) (flags : ReregFlags) (addr length access : ℕ) (done : Bool) :
    Option Lib :=
  if flags.other ∨ flags.changeTranslation ∧ (length = 0 ∨ addr = 0) ∨
      access ≠ 0 ∧ flags.changeAccess = false then some w
  else if flags.changeTranslation then
    (w.range pages addr length .dontfork).bind fun out =>
      if out.2 then some out.1
      else if done then
        let moved := out.1.release mr
        ({moved with mrs := ⟨addr,length,true⟩::moved.mrs}.range pages mr.addr mr.length .dofork).map
          Prod.fst
      else (out.1.range pages addr length .dofork).map Prod.fst
  else some w

def ibvDeregMr (w : Lib) (mr : Mr) (done : Bool) : Option Lib :=
  if done then ((w.release mr).range pages mr.addr mr.length .dofork).map Prod.fst else some w

/-! ## Runs -/

inductive Act
  | reg (addr length : ℕ) (onDemand physical made : Bool)
  | rereg (mr : Mr) (flags : ReregFlags) (addr length access : ℕ) (done : Bool)
  | dereg (mr : Mr) (done : Bool)
  deriving DecidableEq

/-- A range that ends in the address space. -/
def InSpace (addr length : ℕ) : Prop := addr+length ≤ 2^64

instance (addr length : ℕ) : Decidable (InSpace addr length) := inferInstanceAs (Decidable (_ ≤ _))

def step (w : Lib) : Act → Option Lib
  | .reg addr length onDemand physical made =>
    if InSpace addr length then ibvCommonRegMr pages w addr length onDemand physical made else none
  | .rereg mr flags addr length access done =>
    if mr ∈ w.mrs ∧ InSpace addr length then ibvReregMr pages w mr flags addr length access done
    else none
  | .dereg mr done => if mr ∈ w.mrs then ibvDeregMr pages w mr done else none

def started (mallocs madvises : List Bool) : Lib := ⟨ibvForkInit mallocs madvises,[],[],false⟩

def runs : Lib → List Act → Option Lib := run (step pages)

/-! ## Counts -/

/-- A region has the page of an address. -/
def Mr.covers (mr : Mr) (a : ℕ) : Prop :=
  mr.length ≠ 0 ∧ rangeStart (pages mr.addr) mr.addr ≤ a ∧
    a ≤ rangeStop (pages mr.addr) mr.addr mr.length

instance (mr : Mr) (a : ℕ) : Decidable (mr.covers pages a) := inferInstanceAs (Decidable (_ ∧ _))

/-- The number of regions that have the page of an address. -/
def covering (mrs : List Mr) (a : ℕ) : ℕ := mrs.countP fun mr => decide (mr.covers pages a)

/-- The regions whose pages are counted for them. -/
def owners (w : Lib) (a : ℕ) : ℕ := covering pages (w.mrs.filter Mr.counted) a

/-- The count that `__mm_find_start` finds for an address. -/
def refcntAt (m : Mm) (a : ℕ) : Option ℤ := (mmFindStart a m.root).map (·.refcnt)

variable {pages} {w w' : Lib} {xs : List MemNode} {addr length a : ℕ} {advice : Advice} {mr : Mr}

theorem pageDown_le (n a : ℕ) : pageDown n a ≤ a := Nat.div_mul_le_self a n

theorem lt_pageDown_add {n : ℕ} (hn : 0 < n) (a : ℕ) : a < pageDown n a+n := by
  have hdiv := Nat.div_add_mod a n
  have hmod := Nat.mod_lt a hn
  have hcomm : a/n*n = n*(a/n) := Nat.mul_comm _ _
  rw [pageDown]
  omega

/-- The pages of a range. -/
theorem range_bounds {n : ℕ} (hn : 0 < n) (hmax : n < 2^64) (hspace : InSpace addr length)
    (hlength : length ≠ 0) :
    rangeStart n addr ≤ addr ∧ addr+length ≤ rangeStop n addr length+1 ∧
      rangeStop n addr length < 2^64 := by
  have hle := pageDown_le n addr
  rw [InSpace] at hspace
  rw [rangeStart,rangeStop]
  refine ⟨hle,?_,Nat.mod_lt _ (by decide)⟩
  by_cases hwrap : addr+length+n-1 < 2^64
  · rw [Nat.mod_eq_of_lt hwrap]
    have hlt := lt_pageDown_add hn (addr+length+n-1)
    have hdown := pageDown_le n (addr+length+n-1)
    have hpos : 1 ≤ pageDown n (addr+length+n-1) := by omega
    rw [show pageDown n (addr+length+n-1)+2^64-1 = pageDown n (addr+length+n-1)-1+2^64 by omega,
      Nat.add_mod_right,Nat.mod_eq_of_lt (by omega)]
    omega
  · -- the end is rounded up to the end of the address space
    have hmod : (addr+length+n-1)%2^64 = addr+length+n-1-2^64 := by
      rw [Nat.mod_eq_sub_mod (by omega),Nat.mod_eq_of_lt (by omega)]
    rw [hmod,pageDown,Nat.div_eq_of_lt (by omega),Nat.zero_mul,Nat.mod_eq_of_lt (by omega)]
    omega

/-! ## The invariant -/

/-- The size of a page is a positive `unsigned long`. -/
def Paged (pages : ℕ → ℕ) : Prop := ∀ a, 0 < pages a ∧ pages a < 2^64

/-- A range that is counted up or down. -/
def share (pages : ℕ → ℕ) (addr length a : ℕ) : ℤ :=
  if length ≠ 0 ∧ rangeStart (pages addr) addr ≤ a ∧ a ≤ rangeStop (pages addr) addr length then 1 else 0

/-- Without a failure the tree counts what `counts` says. -/
structure Agrees (w : Lib) (counts : ℕ → ℤ) : Prop where
  holds : Holds w.mm w.mm.root.toList
  agree : w.failed = false → Apart w.mm.root.toList ∧ Exact w.mm w.mm.root.toList ∧
    ∀ a < 2^64, count w.mm.root.toList a = counts a

theorem Agrees.range {counts : ℕ → ℤ} (h : Agrees w counts) (hpages : Paged pages)
    (hspace : InSpace addr length) (advice : Advice) : ∃ w' bad,
      w.range pages addr length advice = some (w',bad) ∧ w'.mrs = w.mrs ∧ w'.gone = w.gone ∧
        (bad = true → w'.failed = true) ∧ (w.failed = true → w'.failed = true) ∧
        Agrees w' fun a => counts a+advice.inc*share pages addr length a := by
  rw [Lib.range,ibvMadviseRange]
  by_cases hlength : length = 0
  · rw [if_pos hlength]
    refine ⟨_,false,rfl,rfl,rfl,by simp,by simp +contextual,h.holds,fun hok => ?_⟩
    obtain ⟨hapart,hexact,hcount⟩ := h.agree (by simpa using hok)
    exact ⟨hapart,hexact,fun a ha => by simp [share,hlength,hcount a ha]⟩
  · rw [if_neg hlength]
    obtain ⟨hstart,hstop,hmax⟩ := range_bounds (hpages addr).1 (hpages addr).2 hspace hlength
    have hle : rangeStart (pages addr) addr ≤ rangeStop (pages addr) addr length := by omega
    obtain ⟨m',r,xs',cs,hret,hr,hholds',-⟩ := h.holds.adviseRange hle hmax advice
    obtain rfl := hholds'.rep.nodes
    rw [hret]
    refine ⟨_,_,rfl,rfl,rfl,by simp +contextual,by simp +contextual,hholds',fun hok => ?_⟩
    simp only [Bool.or_eq_false_iff,decide_eq_false_iff_not,not_not] at hok
    obtain ⟨hok,rfl⟩ := hok
    obtain ⟨hapart,hexact,hcount⟩ := h.agree hok
    obtain ⟨xs',hholds'',hcount',hapart',hexact'⟩ := h.holds.adviseRange_ok hle hmax hret
    obtain rfl := hholds''.rep.nodes
    refine ⟨hapart' hapart,hexact' hexact,fun a ha => ?_⟩
    rw [hcount',hcount a ha,share]
    split_ifs <;> simp_all

theorem Agrees.congr {counts counts' : ℕ → ℤ} (h : Agrees w counts) (hmm : w'.mm = w.mm)
    (hfailed : w'.failed = w.failed) (heq : ∀ a, counts' a = counts a) : Agrees w' counts' := by
  rw [show counts' = counts from funext heq]
  exact ⟨by rw [hmm]; exact h.holds,fun hok => by rw [hmm]; exact h.agree (by rw [← hfailed]; exact hok)⟩

/-- What the regions ask for. -/
def asked (pages : ℕ → ℕ) (mrs gone : List Mr) (a : ℕ) : ℤ :=
  covering pages (mrs.filter Mr.counted) a-covering pages gone a

/-- The counts are those of the regions, which all end in the address space. -/
structure Inv (pages : ℕ → ℕ) (w : Lib) : Prop where
  agrees : Agrees w (asked pages w.mrs w.gone)
  inSpace : ∀ mr ∈ w.mrs, InSpace mr.addr mr.length

theorem Agrees.of_failed {counts counts' : ℕ → ℤ} (h : Agrees w counts) (hfailed : w.failed = true) :
    Agrees w counts' :=
  ⟨h.holds,fun hok => by rw [hfailed] at hok; cases hok⟩

theorem covering_cons (pages : ℕ → ℕ) (mr : Mr) (mrs : List Mr) (a : ℕ) :
    (covering pages (mr::mrs) a : ℤ) = covering pages mrs a+share pages mr.addr mr.length a := by
  rw [covering,List.countP_cons,share,covering]
  unfold Mr.covers
  split_ifs <;> simp_all

theorem covering_erase (pages : ℕ → ℕ) (mrs : List Mr) (hmr : mr ∈ mrs) (a : ℕ) :
    (covering pages (mrs.filter Mr.counted) a : ℤ) = covering pages ((mrs.erase mr).filter Mr.counted) a+
      if mr.counted then share pages mr.addr mr.length a else 0 := by
  induction mrs with
  | nil => cases hmr
  | cons x mrs ih =>
    by_cases hx : x = mr
    · subst hx
      rw [List.erase_cons_head]
      cases hc : x.counted with
      | true => rw [List.filter_cons_of_pos hc,covering_cons,if_pos rfl]
      | false => rw [List.filter_cons_of_neg (by simp [hc]),if_neg (by simp),add_zero]
    · rw [List.erase_cons_tail (by simpa using hx)]
      have hrest := ih (List.mem_of_ne_of_mem (Ne.symm hx) hmr)
      cases hc : x.counted with
      | true =>
        rw [List.filter_cons_of_pos hc,List.filter_cons_of_pos hc,covering_cons,covering_cons,hrest]
        omega
      | false =>
        rw [List.filter_cons_of_neg (by simp [hc]),List.filter_cons_of_neg (by simp [hc])]
        exact hrest

/-- A region that is given up leaves its range to be counted down. -/
theorem asked_release (hmr : mr ∈ w.mrs) (a : ℕ) :
    asked pages (w.release mr).mrs (w.release mr).gone a =
      asked pages w.mrs w.gone a-share pages mr.addr mr.length a := by
  have herase := covering_erase pages w.mrs hmr a
  simp only [asked,Lib.release]
  cases hc : mr.counted with
  | true =>
    rw [hc,if_pos rfl] at herase
    rw [if_pos rfl]
    omega
  | false =>
    rw [hc,if_neg (by simp)] at herase
    rw [if_neg (by simp),covering_cons]
    omega

theorem inv_started (mallocs madvises : List Bool) : Inv pages (started mallocs madvises) where
  agrees := {
    holds := ⟨⟨⟨1,.black .leaf .leaf⟩,rfl,List.pairwise_singleton _ _⟩,
      tiles_cons.mpr ⟨rfl,Nat.zero_le _,tiles_nil.mpr rfl⟩⟩
    agree := fun _ => ⟨List.isChain_singleton _,fun a => by
      simp [keptOut,started,ibvForkInit,RedBlack.RbTree.toList,MemNode.weight],fun a _ => by
      simp [asked,covering,started,ibvForkInit,RedBlack.RbTree.toList,MemNode.weight]⟩ }
  inSpace := by simp [started]

theorem asked_counted (mrs gone : List Mr) (addr length a : ℕ) :
    asked pages (⟨addr,length,true⟩::mrs) gone a = asked pages mrs gone a+share pages addr length a := by
  have hcons := covering_cons pages ⟨addr,length,true⟩ (mrs.filter Mr.counted) a
  rw [asked,List.filter_cons_of_pos rfl,hcons,asked]
  exact add_sub_right_comm _ _ _

/-- A range that was counted up is counted down again. -/
theorem Inv.giveBack {w₁ : Lib} (h : Inv pages w) (hpages : Paged pages) (hmrs : w₁.mrs = w.mrs)
    (hgone : w₁.gone = w.gone) (hspace : InSpace addr length)
    (hagrees : Agrees w₁ fun a => asked pages w.mrs w.gone a+Advice.dontfork.inc*share pages addr length a) :
    ∃ w', (w₁.range pages addr length .dofork).map Prod.fst = some w' ∧ Inv pages w' := by
  obtain ⟨w',bad,hrange,hmrs',hgone',-,-,hagrees'⟩ := hagrees.range hpages hspace .dofork
  refine ⟨w',by rw [hrange]; rfl,hagrees'.congr rfl rfl fun a => ?_,?_⟩
  · rw [hmrs',hgone',hmrs,hgone]
    simp only [Advice.inc]
    omega
  · rw [hmrs',hmrs]
    exact h.inSpace

theorem Inv.reg (h : Inv pages w) (hpages : Paged pages) (hspace : InSpace addr length)
    (onDemand physical made : Bool) :
    ∃ w', ibvCommonRegMr pages w addr length onDemand physical made = some w' ∧ Inv pages w' := by
  rw [ibvCommonRegMr]
  by_cases hbad : physical ∧ (addr ≠ 0 ∨ length ≠ 0)
  · rw [if_pos hbad]
    exact ⟨w,rfl,h⟩
  rw [if_neg hbad]
  by_cases hskip : onDemand ∨ physical
  · rw [if_pos hskip]
    cases made with
    | true =>
      refine ⟨_,rfl,h.agrees.congr rfl rfl fun a => ?_,?_⟩
      · simp only [if_true]
        rw [asked,List.filter_cons_of_neg (by simp),asked]
      · intro mr hmr
        rcases List.mem_cons.mp hmr with rfl | hmr
        · exact hspace
        · exact h.inSpace mr hmr
    | false => exact ⟨w,rfl,h⟩
  · rw [if_neg hskip]
    obtain ⟨w₁,bad,hrange,hmrs,hgone,hfail,-,hagrees⟩ := h.agrees.range hpages hspace .dontfork
    rw [hrange,Option.bind_some]
    cases bad with
    | true => exact ⟨w₁,rfl,hagrees.of_failed (hfail rfl),by rw [hmrs]; exact h.inSpace⟩
    | false =>
      simp only [Bool.false_eq_true,if_false]
      cases made with
      | true =>
        refine ⟨_,rfl,hagrees.congr rfl rfl fun a => ?_,?_⟩
        · rw [hmrs,hgone,asked_counted]
          simp only [Advice.inc]
          omega
        · intro mr hmr
          rw [hmrs] at hmr
          rcases List.mem_cons.mp hmr with rfl | hmr
          · exact hspace
          · exact h.inSpace mr hmr
      | false => exact h.giveBack hpages hmrs hgone hspace hagrees

theorem mem_release {mr' : Mr} (h : mr' ∈ (w.release mr).mrs) : mr' ∈ w.mrs := List.mem_of_mem_erase h

theorem Inv.rereg (h : Inv pages w) (hpages : Paged pages) (hmr : mr ∈ w.mrs)
    (hspace : InSpace addr length) (flags : ReregFlags) (access : ℕ) (done : Bool) :
    ∃ w', ibvReregMr pages w mr flags addr length access done = some w' ∧ Inv pages w' := by
  rw [ibvReregMr]
  by_cases hbad : flags.other ∨ flags.changeTranslation ∧ (length = 0 ∨ addr = 0) ∨
      access ≠ 0 ∧ flags.changeAccess = false
  · rw [if_pos hbad]
    exact ⟨w,rfl,h⟩
  rw [if_neg hbad]
  by_cases hmove : flags.changeTranslation
  · rw [if_pos hmove]
    obtain ⟨w₁,bad,hrange,hmrs,hgone,hfail,-,hagrees⟩ := h.agrees.range hpages hspace .dontfork
    rw [hrange,Option.bind_some]
    cases bad with
    | true => exact ⟨w₁,rfl,hagrees.of_failed (hfail rfl),by rw [hmrs]; exact h.inSpace⟩
    | false =>
      simp only [Bool.false_eq_true,if_false]
      cases done with
      | true =>
        -- the new range is counted for the region, and the old one is left to count down
        have hmoved : Agrees {w₁.release mr with mrs := ⟨addr,length,true⟩::(w₁.release mr).mrs}
            fun a => asked pages (⟨addr,length,true⟩::(w₁.release mr).mrs) (w₁.release mr).gone a+
              share pages mr.addr mr.length a := by
          refine hagrees.congr rfl rfl fun a => ?_
          rw [asked_counted,asked_release (by rw [hmrs]; exact hmr),hmrs,hgone]
          simp only [Advice.inc]
          omega
        obtain ⟨w',bad,hrange',hmrs',hgone',-,-,hagrees'⟩ :=
          hmoved.range hpages (h.inSpace mr hmr) .dofork
        refine ⟨w',by rw [if_pos rfl,hrange']; rfl,hagrees'.congr rfl rfl fun a => ?_,?_⟩
        · rw [hmrs',hgone']
          simp only [Advice.inc]
          omega
        · intro mr' hmr'
          rw [hmrs'] at hmr'
          rcases List.mem_cons.mp hmr' with rfl | hmr'
          · exact hspace
          · have hmem := mem_release hmr'
            rw [hmrs] at hmem
            exact h.inSpace mr' hmem
      | false => exact h.giveBack hpages hmrs hgone hspace hagrees
  · rw [if_neg hmove]
    exact ⟨w,rfl,h⟩

theorem Inv.dereg (h : Inv pages w) (hpages : Paged pages) (hmr : mr ∈ w.mrs) (done : Bool) :
    ∃ w', ibvDeregMr pages w mr done = some w' ∧ Inv pages w' := by
  rw [ibvDeregMr]
  split_ifs
  · have hreleased : Agrees (w.release mr) fun a =>
        asked pages (w.release mr).mrs (w.release mr).gone a+share pages mr.addr mr.length a := by
      refine h.agrees.congr rfl rfl fun a => ?_
      rw [asked_release hmr]
      omega
    obtain ⟨w',bad,hrange,hmrs,hgone,-,-,hagrees⟩ := hreleased.range hpages (h.inSpace mr hmr) .dofork
    refine ⟨w',by rw [hrange]; rfl,hagrees.congr rfl rfl fun a => ?_,?_⟩
    · rw [hmrs,hgone]
      simp only [Advice.inc]
      omega
    · rw [hmrs]
      exact fun mr' hmr' => h.inSpace mr' (mem_release hmr')
  · exact ⟨w,rfl,h⟩

/-- The acts that can be made: on live regions, and with ranges of the address space. -/
def Enabled (w : Lib) : Act → Prop
  | .reg addr length _ _ _ => InSpace addr length
  | .rereg mr _ addr length _ _ => mr ∈ w.mrs ∧ InSpace addr length
  | .dereg mr _ => mr ∈ w.mrs

theorem Inv.step (h : Inv pages w) (hpages : Paged pages) (act : Act) (hact : Enabled w act) :
    ∃ w', step pages w act = some w' ∧ Inv pages w' := by
  cases act with
  | reg addr length onDemand physical made =>
    rw [ForkRegistrations.step,if_pos (show InSpace addr length from hact)]
    exact h.reg hpages hact onDemand physical made
  | rereg mr flags addr length access done =>
    rw [ForkRegistrations.step,if_pos (show mr ∈ w.mrs ∧ InSpace addr length from hact)]
    exact h.rereg hpages hact.1 hact.2 flags access done
  | dereg mr done =>
    rw [ForkRegistrations.step,if_pos (show mr ∈ w.mrs from hact)]
    exact h.dereg hpages hact done

theorem enabled_of_step (act : Act) (hstep : ForkRegistrations.step pages w act = some w') :
    Enabled w act := by
  cases act with
  | reg addr length onDemand physical made => exact (Option.ite_none_right_eq_some.mp hstep).1
  | rereg mr flags addr length access done => exact (Option.ite_none_right_eq_some.mp hstep).1
  | dereg mr done => exact (Option.ite_none_right_eq_some.mp hstep).1

theorem inv_run (hpages : Paged pages) (mallocs madvises : List Bool) (acts : List Act)
    (hrun : runs pages (started mallocs madvises) acts = some w) : Inv pages w := by
  refine run_preserves (ForkRegistrations.step pages) (Inv pages) (fun v act v' hv hstep => ?_) _ acts w
    (inv_started mallocs madvises) hrun
  obtain ⟨v'',hstep',hinv⟩ := hv.step hpages act (enabled_of_step act hstep)
  rw [hstep] at hstep'
  cases hstep'
  exact hinv

/-- Ranges that nobody asked for are one range. -/
theorem single_of_zero {xs : List MemNode} (ht : Tiles 0 xs (2^64)) (hapart : Apart xs)
    (hzero : ∀ a < 2^64, count xs a = 0) : xs = [⟨0,uintptrMax,0⟩] := by
  have hrefcnt : ∀ x ∈ xs, x.refcnt = 0 := by
    intro x hx
    obtain ⟨pre,post,rfl⟩ := List.append_of_mem hx
    have hb := ht.bounds hx
    rw [← ht.count_eq ⟨le_refl x.start,hb.2.1⟩]
    exact hzero x.start (by omega)
  match xs, ht, hapart, hrefcnt with
  | [], ht, _, _ => exact absurd (tiles_nil.mp ht) (by decide)
  | [x], ht, _, hrefcnt =>
    obtain ⟨hstart,-,hend⟩ := tiles_cons.mp ht
    have hstop : x.stop = uintptrMax := Nat.succ.inj (tiles_nil.mp hend)
    obtain ⟨start,stop,refcnt⟩ := x
    simp_all
  | x::y::xs, _, hapart, hrefcnt =>
    have hne := (List.isChain_cons_cons.mp hapart).1
    rw [hrefcnt x (by simp),hrefcnt y (by simp)] at hne
    exact absurd rfl hne

/-! ## Results -/

theorem refcntAt_eq {m : Mm} (h : Holds m m.root.toList) (ha : a < 2^64) :
    refcntAt m a = some (count m.root.toList a) := by
  obtain ⟨pre,x,post,hfind,hsplit,hx⟩ := mmFindStart_spec m.root h.tiles (Nat.zero_le a) ha
  have htiles := h.tiles
  rw [hsplit] at htiles
  rw [refcntAt,hfind,Option.map_some,hsplit,htiles.count_eq hx]

/-- Whatever `malloc`, `madvise` and the provider answer, every call returns, the
tree stays balanced and its ranges tile the address space. -/
theorem tree_stays_balanced (hpages : Paged pages) (mallocs madvises : List Bool) (acts : List Act)
    (hrun : runs pages (started mallocs madvises) acts = some w) :
    (∀ act, Enabled w act → (ForkRegistrations.step pages w act).isSome) ∧
      RedBlack.Balanced w.mm.root ∧
      RedBlack.depth w.mm.root ≤ 2*Nat.log 2 (w.mm.root.toList.length+1) ∧
      Tiles 0 w.mm.root.toList (2^64) ∧
      (w.failed = false → w.mrs = [] → w.gone = [] → w.mm.root.toList = [⟨0,uintptrMax,0⟩]) := by
  have hinv := inv_run hpages mallocs madvises acts hrun
  have hbal := hinv.agrees.holds.rep.balanced
  refine ⟨fun act hact => ?_,hbal,hbal.depth_le,hinv.agrees.holds.tiles,fun hok hmrs hgone => ?_⟩
  · obtain ⟨w',hstep,-⟩ := hinv.step hpages act hact
    rw [hstep]
    rfl
  · obtain ⟨hapart,-,hcount⟩ := hinv.agrees.agree hok
    refine single_of_zero hinv.agrees.holds.tiles hapart fun a ha => ?_
    rw [hcount a ha,hmrs,hgone]
    rfl

/-- The region is given up after `madvise` has failed and a call could not get memory. -/
theorem tree_stays_balanced_failures : ∃ w, runs (fun _ => 4096) (started [true,true,false] [true,false])
    [.reg 0x1000 0x2000 false false true,.reg 0x2000 0x1000 false false true,
      .reg 0x8000 0x1000 false false true,.dereg ⟨0x1000,0x2000,true⟩ true] = some w ∧
      w.failed = true ∧ RedBlack.Balanced w.mm.root := by
  have heval : (runs (fun _ => 4096) (started [true,true,false] [true,false])
      [.reg 0x1000 0x2000 false false true,.reg 0x2000 0x1000 false false true,
        .reg 0x8000 0x1000 false false true,.dereg ⟨0x1000,0x2000,true⟩ true]).map Lib.failed =
      some true := by decide +kernel
  obtain ⟨w,hrun,hfailed⟩ := Option.map_eq_some_iff.mp heval
  exact ⟨w,hrun,hfailed,(tree_stays_balanced (fun _ => ⟨by decide,by decide⟩) _ _ _ hrun).2.1⟩

/-- The count that the addresses before a failing range must not have. -/
def lostAt : Advice → ℤ
  | .dontfork => -1
  | .dofork => 2

variable {m' : Mm} {cs : List Call} {f : Call}

theorem Inv.failed_iff (h : Inv pages w) (hpages : Paged pages) (hspace : InSpace addr length)
    (hret : ibvMadviseRange w.mm (pages addr) addr length advice = some (m',-1))
    (hmem : false ∉ w.mm.mallocs) (hcs : m'.calls = w.mm.calls++cs)
    (hone : cs.filter (fun c => !c.ok) = [f]) :
    Holds m' m'.root.toList ∧ f.addr < 2^64 ∧
      (Exact w.mm w.mm.root.toList → Exact m' m'.root.toList) ∧
      ((∀ a < 2^64, refcntAt m' a = refcntAt w.mm a) ↔
        f.addr = rangeStart (pages addr) addr ∨ refcntAt w.mm (f.addr-1) ≠ some (lostAt advice)) := by
  have hholds := h.agrees.holds
  rw [ibvMadviseRange] at hret
  by_cases hlength : length = 0
  · rw [if_pos hlength] at hret
    cases hret
  rw [if_neg hlength] at hret
  obtain ⟨hstart,hstop,hmax⟩ := range_bounds (hpages addr).1 (hpages addr).2 hspace hlength
  obtain ⟨xs',hholds',hexact,hge,hle,hadv,hiff⟩ :=
    hholds.adviseRange_failed (by omega) hmax hret hmem hcs hone
  obtain rfl := hholds'.rep.nodes
  have hsame : (∀ a < 2^64, refcntAt m' a = refcntAt w.mm a) ↔
      ∀ a, count m'.root.toList a = count w.mm.root.toList a := by
    constructor
    · intro h a
      by_cases ha : a < 2^64
      · have := h a ha
        rw [refcntAt_eq hholds' ha,refcntAt_eq hholds ha] at this
        exact Option.some.inj this
      · rw [hholds'.tiles.count_outside (by omega),hholds.tiles.count_outside (by omega)]
    · intro h a ha
      rw [refcntAt_eq hholds' ha,refcntAt_eq hholds ha,h a]
  have hlost : count w.mm.root.toList f.addr = lostAt advice+advice.inc := by
    cases advice with
    | dontfork => simpa [advises,lostAt,Advice.inc] using hadv
    | dofork => simpa [advises,lostAt,Advice.inc] using hadv
  refine ⟨hholds',by omega,hexact,?_⟩
  rw [hsame,hiff,hlost,refcntAt_eq hholds (by omega : f.addr-1 < 2^64)]
  refine or_congr Iff.rfl (not_congr ?_)
  rw [Option.some.injEq]
  omega

/-- When one `madvise` of a call fails, the counts are given back exactly if the range that fails
is the first one or the addresses before it were not asked for twice. -/
theorem failed_call_restores_iff (hpages : Paged pages) (mallocs madvises : List Bool)
    (acts : List Act) (hrun : runs pages (started mallocs madvises) acts = some w)
    (hspace : InSpace addr length)
    (hret : ibvMadviseRange w.mm (pages addr) addr length advice = some (m',-1))
    (hmem : false ∉ w.mm.mallocs) (hcs : m'.calls = w.mm.calls++cs)
    (hone : cs.filter (fun c => !c.ok) = [f]) :
    (∀ a < 2^64, refcntAt m' a = refcntAt w.mm a) ↔
      f.addr = rangeStart (pages addr) addr ∨ refcntAt w.mm (f.addr-1) ≠ some (lostAt advice) :=
  ((inv_run hpages mallocs madvises acts hrun).failed_iff hpages hspace hret hmem hcs hone).2.2.2

/-- Two regions share a page. Giving up the longer one fails behind that page, and the page has lost
one of its two owners. -/
theorem failed_call_restores_iff_shared : ∃ w m', runs (fun _ => 4096) (started [] [true,false])
    [.reg 0x1000 0x2000 false false true,.reg 0x1000 0x1000 false false true] = some w ∧
      ibvMadviseRange w.mm 4096 0x1000 0x2000 .dofork = some (m',-1) ∧
      ¬∀ a < 2^64, refcntAt m' a = refcntAt w.mm a := by
  have heval : (runs (fun _ => 4096) (started [] [true,false])
      [.reg 0x1000 0x2000 false false true,.reg 0x1000 0x1000 false false true]).bind (fun w =>
        (ibvMadviseRange w.mm 4096 0x1000 0x2000 .dofork).map fun out =>
          (out.2,w.mm.mallocs,w.mm.calls,out.1.calls,refcntAt w.mm 0x1fff)) =
      some (-1,[],[⟨0x1000,0x2fff,.dontfork,true⟩],
        [⟨0x1000,0x2fff,.dontfork,true⟩,⟨0x2000,0x2fff,.dofork,false⟩],some 2) := by decide +kernel
  obtain ⟨w,hrun,heval⟩ := Option.bind_eq_some_iff.mp heval
  obtain ⟨⟨m',r⟩,hret,heq⟩ := Option.map_eq_some_iff.mp heval
  simp only [Prod.mk.injEq] at heq
  obtain ⟨rfl,hmallocs,hcalls,hcalls',hbefore⟩ := heq
  refine ⟨w,m',hrun,hret,?_⟩
  rw [failed_call_restores_iff (fun _ => ⟨by decide,by decide⟩) [] [true,false] _ hrun (by decide) hret
    (by rw [hmallocs]; simp)
    (by rw [hcalls,hcalls']; rfl : m'.calls = w.mm.calls++[⟨0x2000,0x2fff,.dofork,false⟩]) rfl]
  show ¬(0x2000 = rangeStart 4096 0x1000 ∨ refcntAt w.mm 0x1fff ≠ some 2)
  rw [hbefore]
  decide

end FreeFlow.ForkRegistrations
