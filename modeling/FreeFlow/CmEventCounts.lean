import FreeFlow.CmEventNames
import Mathlib.Data.List.Perm.Basic

/-!
# The counters of the connection manager

For every block the events that the kernel has reported are those that were
completed, those that are held and those on their way. So `rdma_destroy_id` and
`rdma_leave_multicast` return when nothing names their block any more, and not
before.
-/

set_option autoImplicit false

namespace FreeFlow.CmEvents

open Runs

variable {w w' : World} {p h k m : ℕ}

/-! ## What an arrival can do -/

theorem evtNames_id (p q : ℕ) (event : EventType) (status : ℤ) {r : Resp} (hp : r.uid = p)
    (hkind : r.event.isMulticast = false) (o : Owner) :
    evtNames ⟨p,none,q,event,status⟩ o = respNames w r o := by
  cases o with
  | id q => simp [evtNames,respNames,hkind,hp]
  | mc m => simp [evtNames,respNames,hkind]

theorem evtNames_mc (q : ℕ) (event : EventType) (status : ℤ) {r : Resp} {y : Multicast}
    (hy : w.mcs r.uid = some y) (hkind : r.event.isMulticast = true) (o : Owner) :
    evtNames ⟨y.idPriv,some r.uid,q,event,status⟩ o = respNames w r o := by
  cases o with
  | id q => simp [evtNames,respNames,hkind,hy]
  | mc m => simp [evtNames,respNames,hkind]

/-- An event is held that names what its reply has named. -/
def HeldAs (w : World) (r : Resp) (u : World) : Prop :=
  ∃ v e, u = hold v e ∧ Holding w e ∧ (∀ o, evtNames e o = respNames w r o) ∧
    (v = w ∨ ∃ x, w.ids r.uid = some x ∧ v = setId w r.uid (some {x with connectError := true}))

/-- The event is held, or completed at once, or it is a connection request. -/
theorem get_cases {r : Resp} (hr : Coming w r) (ans : Answers) :
    HeldAs w r (rdmaGetCmEvent w r ans) ∨
    (r.event.isMulticast = false ∧ rdmaGetCmEvent w r ans = ucmaCompleteEvent w r.uid) ∨
    (r.event = .connectRequest ∧ ∃ x n, w.ids r.uid = some x ∧ ans.alloc = some n ∧
      rdmaGetCmEvent w r ans =
        hold (ucmaInsertId (setId w n (some ⟨r.id,x.channel,0,false,none⟩)) r.id n)
          ⟨r.uid,none,n,.connectRequest,r.status⟩) ∨
    (r.event = .connectRequest ∧
      rdmaGetCmEvent w r ans = ucmaCompleteEvent (destroyCtx w r.id) r.uid) := by
  obtain ⟨hne,hlive⟩ := hr
  have hget : rdmaGetCmEvent w r ans = process w r.uid r ans := if_neg hne
  by_cases hkind : r.event.isMulticast = true
  · rw [if_pos hkind] at hlive
    obtain ⟨y,x,hy,hx⟩ := hlive
    have hprocess : process w r.uid r ans = processMc w r.uid y r ans := by
      rw [process,if_pos hkind,hy]
    rw [hget,hprocess]
    refine .inl ⟨w,_,rfl,⟨⟨x,hx⟩,?_⟩,evtNames_mc _ _ _ hy hkind,.inl rfl⟩
    intro m hm
    obtain rfl := Option.some.inj hm
    exact ⟨y,hy,rfl⟩
  rw [if_neg hkind] at hlive
  obtain ⟨x,hx⟩ := hlive
  have hprocess : process w r.uid r ans = processId w r.uid x r ans := by
    rw [process,if_neg hkind,hx]
  rw [hget,hprocess,processId]
  have hkind := Bool.eq_false_iff.mpr hkind
  have hkeep : ∀ event status, HeldAs w r (hold w ⟨r.uid,none,r.uid,event,status⟩) :=
    fun event status => ⟨w,_,rfl,⟨⟨x,hx⟩,by simp⟩,evtNames_id _ _ _ _ rfl hkind,.inl rfl⟩
  cases hevent : r.event with
  | addrResolved => exact .inl (hkeep _ _)
  | routeResolved =>
    by_cases hib : ans.ib = true
    · simp only [hib,if_true]
      exact .inl (hkeep _ _)
    · simp only [hib,Bool.false_eq_true,if_false]
      exact .inl (hkeep _ _)
  | connectRequest =>
    cases halloc : ans.alloc with
    | none => exact .inr (.inr (.inr ⟨rfl,rfl⟩))
    | some n => exact .inr (.inr (.inl ⟨rfl,x,n,hx,rfl,rfl⟩))
  | connectResponse =>
    by_cases hok : ans.status = 0
    · simp only [hok,if_true]
      exact .inl (hkeep _ _)
    · simp only [hok,if_false]
      exact .inl ⟨_,_,rfl,⟨⟨x,hx⟩,by simp⟩,evtNames_id _ _ _ _ rfl hkind,.inr ⟨x,hx,rfl⟩⟩
  | rejected =>
    by_cases herror : x.connectError = true
    · exact .inr (.inl ⟨rfl,if_pos herror⟩)
    · simp only [herror,Bool.false_eq_true,if_false]
      exact .inl (hkeep _ _)
  | disconnected =>
    by_cases herror : x.connectError = true
    · exact .inr (.inl ⟨rfl,if_pos herror⟩)
    · simp only [herror,Bool.false_eq_true,if_false]
      exact .inl (hkeep _ _)
  | multicastJoin => simp [hevent,EventType.isMulticast] at hkind
  | multicastError => simp [hevent,EventType.isMulticast] at hkind
  | addrError => exact .inl (hkeep _ _)
  | routeError => exact .inl (hkeep _ _)
  | connectError => exact .inl (hkeep _ _)
  | unreachable => exact .inl (hkeep _ _)
  | established => exact .inl (hkeep _ _)
  | deviceRemoval => exact .inl (hkeep _ _)
  | addrChange => exact .inl (hkeep _ _)
  | timewaitExit => exact .inl (hkeep _ _)

/-! ## The counters -/

/-- What the kernel has reported, or has told `rdma_destroy_id` or `rdma_leave_multicast`. -/
def reportedOf (w : World) : Owner → Option ℕ
  | .id p => (w.ids p).bind fun x =>
    match x.waiting with
    | some n => some n
    | none => (w.ctxs x.handle).map Ctx.reported
  | .mc m => (w.mcs m).bind fun y =>
    match y.waiting with
    | some n => some n
    | none => ((w.groups y.handle).filter fun g => g.uid = m).map McCtx.reported

def completedOf (w : World) : Owner → Option ℕ
  | .id p => (w.ids p).map IdPriv.completed
  | .mc m => (w.mcs m).map Multicast.completed

/-- The events on their way and the events held that name the block. -/
def outstanding (w : World) (o : Owner) : ℕ :=
  w.transit.countP (fun t => respNames w t.2 o)+w.held.countP (fun e => evtNames e o)

structure Balanced (w : World) : Prop where
  counts : ∀ o r c, reportedOf w o = some r → completedOf w o = some c → r = c+outstanding w o
  unreported : ∀ t ∈ w.transit, t.2.event = .connectRequest →
    ∀ c, w.ctxs t.2.id = some c → c.reported = 0

theorem balanced_started : Balanced started := by
  constructor
  · rintro (p | m) r c hr hc
    · simp [reportedOf,started] at hr
    · simp [reportedOf,started] at hr
  · simp [started]

theorem reportedOf_id {r : ℕ} : reportedOf w (.id p) = some r ↔ ∃ x, w.ids p = some x ∧
    (x.waiting = some r ∨ x.waiting = none ∧ ∃ c, w.ctxs x.handle = some c ∧ c.reported = r) := by
  rw [reportedOf,Option.bind_eq_some_iff]
  refine exists_congr fun x => and_congr_right fun _ => ?_
  cases x.waiting with
  | none => simp
  | some n => simp

theorem reportedOf_mc {r : ℕ} : reportedOf w (.mc m) = some r ↔ ∃ y, w.mcs m = some y ∧
    (y.waiting = some r ∨ y.waiting = none ∧
      ∃ g, w.groups y.handle = some g ∧ g.uid = m ∧ g.reported = r) := by
  rw [reportedOf,Option.bind_eq_some_iff]
  refine exists_congr fun y => and_congr_right fun _ => ?_
  cases y.waiting with
  | none => simp [Option.filter_eq_some_iff,and_assoc]
  | some n => simp

/-- A change after which nothing has been reported that was not before. -/
structure Fewer (w w' : World) : Prop where
  ids : ∀ p x, w'.ids p = some x → ∃ y, w.ids p = some y ∧ y.handle = x.handle ∧ y.waiting = x.waiting
  mcs : ∀ m x, w'.mcs m = some x → ∃ y, w.mcs m = some y ∧ y.handle = x.handle ∧ y.waiting = x.waiting
  ctxs : ∀ h c, w'.ctxs h = some c → ∃ d, w.ctxs h = some d ∧ d.reported = c.reported
  groups : ∀ k g, w'.groups k = some g → ∃ d, w.groups k = some d ∧ d.uid = g.uid ∧
    d.reported = g.reported

theorem Fewer.reportedOf (s : Fewer w w') {o : Owner} {r : ℕ} (hr : reportedOf w' o = some r) :
    reportedOf w o = some r := by
  cases o with
  | id p =>
    obtain ⟨x,hx,hcase⟩ := reportedOf_id.mp hr
    obtain ⟨y,hy,hh,hw⟩ := s.ids p x hx
    refine reportedOf_id.mpr ⟨y,hy,?_⟩
    rw [hh,hw]
    rcases hcase with hwait | ⟨hwait,c,hc,hcr⟩
    · exact .inl hwait
    · obtain ⟨d,hd,hdc⟩ := s.ctxs _ c hc
      exact .inr ⟨hwait,d,hd,hdc.trans hcr⟩
  | mc m =>
    obtain ⟨x,hx,hcase⟩ := reportedOf_mc.mp hr
    obtain ⟨y,hy,hh,hw⟩ := s.mcs m x hx
    refine reportedOf_mc.mpr ⟨y,hy,?_⟩
    rw [hh,hw]
    rcases hcase with hwait | ⟨hwait,g,hg,huid,hgr⟩
    · exact .inl hwait
    · obtain ⟨d,hd,hduid,hdr⟩ := s.groups _ g hg
      exact .inr ⟨hwait,d,hd,hduid.trans huid,hdr.trans hgr⟩

theorem Fewer.refl (w : World) : Fewer w w :=
  ⟨fun _ x hx => ⟨x,hx,rfl,rfl⟩,fun _ x hx => ⟨x,hx,rfl,rfl⟩,fun _ c hc => ⟨c,hc,rfl⟩,
    fun _ g hg => ⟨g,hg,rfl,rfl⟩⟩

/-- The rule for every step without a new block and without a report. -/
theorem Balanced.of_counts (b : Balanced w)
    (hcounts : ∀ o r c', reportedOf w' o = some r → completedOf w' o = some c' →
      reportedOf w o = some r ∧
        ∃ c, completedOf w o = some c ∧ c'+outstanding w' o = c+outstanding w o)
    (hctxs : ∀ h c, w'.ctxs h = some c →
      c.reported = 0 ∨ ∃ d, w.ctxs h = some d ∧ d.reported = c.reported)
    (htransit : w'.transit ⊆ w.transit) : Balanced w' where
  counts o r c' hr hc' := by
    obtain ⟨hr,c,hc,heq⟩ := hcounts o r c' hr hc'
    rw [heq]
    exact b.counts o r c hr hc
  unreported t ht hreq c hc := by
    rcases hctxs _ c hc with hzero | ⟨d,hd,hdc⟩
    · exact hzero
    · exact hdc.symm.trans (b.unreported t (htransit ht) hreq d hd)

/-- Nothing is completed, taken or brought. -/
theorem Balanced.fewer (b : Balanced w) (s : Fewer w w')
    (hcompleted : ∀ o c, completedOf w' o = some c → completedOf w o = some c)
    (hout : ∀ o, outstanding w' o = outstanding w o) (htransit : w'.transit = w.transit) :
    Balanced w' :=
  b.of_counts
    (fun o _ c hr hc => ⟨s.reportedOf hr,c,hcompleted o c hc,by rw [hout]⟩)
    (fun h c hc => .inr (s.ctxs h c hc)) (by rw [htransit]; exact List.Subset.refl _)

/-! ## Events that come and go -/

theorem respNames_congr (hmcs : ∀ m, (w'.mcs m).map Multicast.idPriv = (w.mcs m).map Multicast.idPriv)
    (r : Resp) (o : Owner) : respNames w' r o = respNames w r o := by
  cases o with
  | id p => simp only [respNames,hmcs]
  | mc m => rfl

theorem outstanding_congr
    (hmcs : ∀ m, (w'.mcs m).map Multicast.idPriv = (w.mcs m).map Multicast.idPriv)
    (htransit : w'.transit = w.transit) (hheld : w'.held = w.held) (o : Owner) :
    outstanding w' o = outstanding w o := by
  simp only [outstanding,htransit,hheld,respNames_congr hmcs]

theorem outstanding_hold (w : World) (e : Evt) (o : Owner) :
    outstanding (hold w e) o = outstanding w o+if evtNames e o then 1 else 0 := by
  have hresp : ∀ r, respNames (hold w e) r o = respNames w r o :=
    fun r => respNames_congr (fun _ => rfl) r o
  simp only [outstanding,hresp]
  simp only [hold,List.countP_append,List.countP_singleton]
  omega

theorem outstanding_reply (w : World) (ch : ℕ) (r : Resp) (o : Owner) :
    outstanding (reply w ch r) o = outstanding w o+if respNames w r o then 1 else 0 := by
  have hresp : ∀ s, respNames (reply w ch r) s o = respNames w s o :=
    fun s => respNames_congr (fun _ => rfl) s o
  simp only [outstanding,hresp]
  simp only [reply,List.countP_append,List.countP_singleton]
  omega

theorem perm_eraseIdx {α : Type} {l : List α} {i : ℕ} {a : α} (ha : l[i]? = some a) :
    (a::l.eraseIdx i).Perm l := by
  obtain ⟨hi,rfl⟩ := List.getElem?_eq_some_iff.mp ha
  exact List.getElem_cons_eraseIdx_perm hi

theorem outstanding_eraseTransit {i : ℕ} {t : ℕ × Resp} (ht : w.transit[i]? = some t) (o : Owner) :
    outstanding w o = outstanding {w with transit := w.transit.eraseIdx i} o+
      if respNames w t.2 o then 1 else 0 := by
  have hcount := (perm_eraseIdx ht).countP_eq (fun t => respNames w t.2 o)
  rw [List.countP_cons] at hcount
  have hresp : ∀ r, respNames {w with transit := w.transit.eraseIdx i} r o = respNames w r o :=
    fun r => respNames_congr (fun _ => rfl) r o
  simp only [outstanding,hresp]
  omega

theorem outstanding_eraseHeld {i : ℕ} {e : Evt} (he : w.held[i]? = some e) (o : Owner) :
    outstanding w o = outstanding {w with held := w.held.eraseIdx i} o+
      if evtNames e o then 1 else 0 := by
  have hcount := (perm_eraseIdx he).countP_eq (fun e => evtNames e o)
  rw [List.countP_cons] at hcount
  have hresp : ∀ r, respNames {w with held := w.held.eraseIdx i} r o = respNames w r o :=
    fun r => respNames_congr (fun _ => rfl) r o
  simp only [outstanding,hresp]
  omega

theorem outstanding_eq_zero {o : Owner} : outstanding w o = 0 ↔ Unused w o := by
  simp [outstanding,Unused,List.countP_eq_zero]

/-- A block that is not allocated is named by nothing. -/
theorem Names.unused_id (n : Names w) (hp : w.ids p = none) : Unused w (.id p) := by
  constructor
  · intro t ht
    obtain ⟨-,hlive⟩ := n.coming t ht
    by_cases hkind : t.2.event.isMulticast = true
    · rw [if_pos hkind] at hlive
      obtain ⟨y,x,hy,hx⟩ := hlive
      have hne : y.idPriv ≠ p := by
        rintro rfl
        simp [hp] at hx
      simp [respNames,hkind,hy,hne]
    · rw [if_neg hkind] at hlive
      obtain ⟨x,hx⟩ := hlive
      have hne : t.2.uid ≠ p := by
        rintro rfl
        simp [hp] at hx
      simp [respNames,hkind,hne]
  · intro e he
    obtain ⟨⟨x,hx⟩,-⟩ := n.holding e he
    have hne : e.idPriv ≠ p := by
      rintro rfl
      simp [hp] at hx
    simp [evtNames,hne]

theorem Names.unused_mc (n : Names w) (hm : w.mcs m = none) : Unused w (.mc m) := by
  constructor
  · intro t ht
    obtain ⟨-,hlive⟩ := n.coming t ht
    by_cases hkind : t.2.event.isMulticast = true
    · rw [if_pos hkind] at hlive
      obtain ⟨y,x,hy,hx⟩ := hlive
      have hne : t.2.uid ≠ m := by
        rintro rfl
        simp [hm] at hy
      simp [respNames,hne]
    · simp [respNames,hkind]
  · intro e he
    have hne : e.mc ≠ some m := by
      intro hmc
      obtain ⟨y,hy,-⟩ := (n.holding e he).2 m hmc
      simp [hm] at hy
    simp [evtNames,hne]

/-! ## An event is completed -/

theorem ack_id {e : Evt} {x : IdPriv} (hmc : e.mc = none) (hx : w.ids e.idPriv = some x) :
    rdmaAckCmEvent w e = setId w e.idPriv (some {x with completed := x.completed+1}) := by
  rw [rdmaAckCmEvent,hmc]
  simp only [ucmaCompleteEvent,hx]

theorem ack_mc {e : Evt} {x : IdPriv} {y : Multicast} (hmc : e.mc = some m) (hy : w.mcs m = some y)
    (hid : y.idPriv = e.idPriv) (hx : w.ids e.idPriv = some x) :
    rdmaAckCmEvent w e = setId (setMc w m (some {y with completed := y.completed+1})) e.idPriv
      (some {x with completed := x.completed+1}) := by
  rw [← hid] at hx ⊢
  have hx' : (setMc w m (some {y with completed := y.completed+1})).ids y.idPriv = some x := hx
  rw [rdmaAckCmEvent,hmc]
  simp only [ucmaCompleteMcEvent,hy]
  simp only [ucmaCompleteEvent,hx']

theorem completedOf_setId {x : IdPriv} (hx : w.ids p = some x) {o : Owner} {c : ℕ}
    (hc : completedOf (setId w p (some {x with completed := x.completed+1})) o = some c) :
    ∃ d, completedOf w o = some d ∧ c = d+if o = .id p then 1 else 0 := by
  cases o with
  | id q =>
    by_cases hq : q = p
    · subst hq
      simp [completedOf,setId,hx] at hc ⊢
      exact hc.symm
    · simp [completedOf,setId,hq] at hc ⊢
      exact hc
  | mc m =>
    simp [completedOf,setId] at hc ⊢
    exact hc

theorem completedOf_setMc {y : Multicast} (hy : w.mcs m = some y) {o : Owner} {c : ℕ}
    (hc : completedOf (setMc w m (some {y with completed := y.completed+1})) o = some c) :
    ∃ d, completedOf w o = some d ∧ c = d+if o = .mc m then 1 else 0 := by
  cases o with
  | id q =>
    simp [completedOf,setMc] at hc ⊢
    exact hc
  | mc k =>
    by_cases hk : k = m
    · subst hk
      simp [completedOf,setMc,hy] at hc ⊢
      exact hc.symm
    · simp [completedOf,setMc,hk] at hc ⊢
      exact hc

/-- What the event names is completed once. -/
theorem completedOf_ack {e : Evt} (he : Holding w e) {o : Owner} {c : ℕ}
    (hc : completedOf (rdmaAckCmEvent w e) o = some c) :
    ∃ d, completedOf w o = some d ∧ c = d+if evtNames e o then 1 else 0 := by
  obtain ⟨⟨x,hx⟩,hmcs⟩ := he
  cases hmc : e.mc with
  | none =>
    rw [ack_id hmc hx] at hc
    obtain ⟨d,hd,hcd⟩ := completedOf_setId hx hc
    refine ⟨d,hd,hcd.trans ?_⟩
    cases o with
    | id q => simp [evtNames,eq_comm]
    | mc k => simp [evtNames,hmc]
  | some m =>
    obtain ⟨y,hy,hid⟩ := hmcs m hmc
    rw [ack_mc hmc hy hid hx] at hc
    obtain ⟨b,hb,hcb⟩ := completedOf_setId (by exact hx) hc
    obtain ⟨d,hd,hbd⟩ := completedOf_setMc hy hb
    refine ⟨d,hd,?_⟩
    rw [hcb,hbd]
    cases o with
    | id q => simp [evtNames,eq_comm]
    | mc k => simp [evtNames,hmc,eq_comm]

theorem fewer_of_same (s : Same w w')
    (hctxs : ∀ h c, w'.ctxs h = some c → ∃ d, w.ctxs h = some d ∧ d.reported = c.reported)
    (hgroups : ∀ k g, w'.groups k = some g → ∃ d, w.groups k = some d ∧ d.uid = g.uid ∧
      d.reported = g.reported) : Fewer w w' where
  ids _ _ hx := s.symm_ids hx
  mcs m x hx := by
    have heq := s.mcs m
    rw [hx] at heq
    obtain ⟨y,hy,hxy⟩ := Option.map_eq_some_iff.mp heq.symm
    exact ⟨y,hy,(Prod.mk.inj (Prod.mk.inj hxy).2).1,(Prod.mk.inj (Prod.mk.inj hxy).2).2⟩
  ctxs := hctxs
  groups := hgroups

theorem Same.idPriv (s : Same w w') (m : ℕ) :
    (w'.mcs m).map Multicast.idPriv = (w.mcs m).map Multicast.idPriv := by
  have heq := congrArg (Option.map Prod.fst) (s.mcs m)
  simpa only [Option.map_map,Function.comp_def] using heq

/-- An acknowledgement writes the counters of the blocks only. -/
theorem ack_frame {e : Evt} (he : Holding w e) :
    (rdmaAckCmEvent w e).ctxs = w.ctxs ∧ (rdmaAckCmEvent w e).groups = w.groups ∧
    (rdmaAckCmEvent w e).transit = w.transit ∧ (rdmaAckCmEvent w e).held = w.held ∧
    (rdmaAckCmEvent w e).bad = w.bad := by
  obtain ⟨⟨x,hx⟩,hmcs⟩ := he
  cases hmc : e.mc with
  | none =>
    rw [ack_id hmc hx]
    exact ⟨rfl,rfl,rfl,rfl,rfl⟩
  | some m =>
    obtain ⟨y,hy,hid⟩ := hmcs m hmc
    rw [ack_mc hmc hy hid hx]
    exact ⟨rfl,rfl,rfl,rfl,rfl⟩

/-- An event that is no longer on its way or held in `w'` is completed there. -/
theorem counts_ack {e : Evt} (he : Holding w' e) (s : Fewer w w')
    (hcompleted : ∀ o, completedOf w' o = completedOf w o)
    (hout : ∀ o, outstanding w o = outstanding w' o+if evtNames e o then 1 else 0)
    {o : Owner} {r c : ℕ} (hr : reportedOf (rdmaAckCmEvent w' e) o = some r)
    (hc : completedOf (rdmaAckCmEvent w' e) o = some c) :
    reportedOf w o = some r ∧
      ∃ d, completedOf w o = some d ∧ c+outstanding (rdmaAckCmEvent w' e) o = d+outstanding w o := by
  obtain ⟨hctxs,hgroups,htr,hheld,-⟩ := ack_frame he
  have hsame := same_ack w' e
  have hfewer := fewer_of_same hsame (by rw [hctxs]; exact (Fewer.refl w').ctxs)
    (by rw [hgroups]; exact (Fewer.refl w').groups)
  obtain ⟨d,hd,hcd⟩ := completedOf_ack he hc
  refine ⟨s.reportedOf (hfewer.reportedOf hr),d,(hcompleted o).symm.trans hd,?_⟩
  rw [outstanding_congr hsame.idPriv htr hheld,hcd,hout]
  omega

theorem Balanced.ack (b : Balanced w) {e : Evt} (he : Holding w' e) (s : Fewer w w')
    (hcompleted : ∀ o, completedOf w' o = completedOf w o)
    (hout : ∀ o, outstanding w o = outstanding w' o+if evtNames e o then 1 else 0)
    (htransit : w'.transit ⊆ w.transit) : Balanced (rdmaAckCmEvent w' e) := by
  obtain ⟨hctxs,-,htr,-⟩ := ack_frame he
  refine b.of_counts (fun o r c hr hc => counts_ack he s hcompleted hout hr hc) ?_ ?_
  · intro h c hc
    rw [hctxs] at hc
    exact .inr (s.ctxs h c hc)
  · rw [htr]
    exact htransit

end FreeFlow.CmEvents
