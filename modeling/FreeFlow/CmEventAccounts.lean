import FreeFlow.CmEventCounts

/-!
# The accounts of the connection manager along a run

A step keeps the names and the counters of all blocks in order, as long as the
kernel raises events only for identifiers that have their address and no request
for an event fails. New blocks are named by nothing, a report is counted where
its reply names a block, and an arrival is held or completed at once.
-/

set_option autoImplicit false

namespace FreeFlow.CmEvents

open Runs

variable {w w' : World} {p h k m : ℕ}

/-! ## New blocks -/

theorem reportedOf_setCtx_new (n : Names w) (hh : w.ctxs h = none) {c : Ctx} {o : Owner} {r : ℕ}
    (hr : reportedOf {w with ctxs := Function.update w.ctxs h (some c)} o = some r) :
    reportedOf w o = some r := by
  cases o with
  | id p =>
    obtain ⟨x,hx,hcase⟩ := reportedOf_id.mp hr
    refine reportedOf_id.mpr ⟨x,hx,hcase.imp_right ?_⟩
    rintro ⟨hwait,d,hd,hdr⟩
    obtain ⟨d',hd',-⟩ := n.current p x hx hwait
    have hne : x.handle ≠ h := by
      rintro rfl
      simp [hh] at hd'
    exact ⟨hwait,d,(Function.update_of_ne hne _ _).symm.trans hd,hdr⟩
  | mc m => exact hr

/-- The kernel has an identifier more that no block belongs to. -/
theorem Balanced.setCtx_new (b : Balanced w) (n : Names w) (hh : w.ctxs h = none) (u ch : ℕ) :
    Balanced {w with ctxs := Function.update w.ctxs h (some ⟨u,ch,0⟩)} := by
  refine b.of_counts (fun o r c hr hc => ⟨reportedOf_setCtx_new n hh hr,c,?_,?_⟩) ?_
    (List.Subset.refl _)
  · cases o with
    | id p => exact hc
    | mc m => exact hc
  · exact congrArg (c+·) (outstanding_congr (fun _ => rfl) rfl rfl o)
  · intro a c hc
    by_cases ha : a = h
    · have hself : Function.update w.ctxs h (some ⟨u,ch,0⟩) a = some ⟨u,ch,0⟩ := by
        rw [ha,Function.update_self]
      obtain rfl := Option.some.inj (hself.symm.trans hc)
      exact .inl rfl
    · exact .inr ⟨c,(Function.update_of_ne ha _ _).symm.trans hc,rfl⟩

theorem Balanced.setId_new (b : Balanced w) (hunused : Unused w (.id p)) {x : IdPriv}
    (hcompleted : x.completed = 0) (hwait : x.waiting = none)
    (hctx : ∀ c, w.ctxs x.handle = some c → c.reported = 0) : Balanced (setId w p (some x)) where
  counts o r c hr hc := by
    have hout : outstanding (setId w p (some x)) o = outstanding w o :=
      outstanding_congr (fun _ => rfl) rfl rfl o
    rw [hout]
    have hself : (setId w p (some x)).ids p = some x := Function.update_self _ _ _
    cases o with
    | id q =>
      by_cases hq : q = p
      · subst hq
        have hzero := outstanding_eq_zero.mpr hunused
        obtain ⟨y,hy,hcase⟩ := reportedOf_id.mp hr
        obtain rfl : x = y := Option.some.inj (hself.symm.trans hy)
        simp only [completedOf,hself,Option.map_some,Option.some.injEq,hcompleted] at hc
        rcases hcase with hwait' | ⟨-,d,hd,hdr⟩
        · simp [hwait] at hwait'
        · rw [← hdr,hctx d hd,hzero,← hc]
      · have hof : (setId w p (some x)).ids q = w.ids q := Function.update_of_ne hq _ _
        rw [reportedOf,hof] at hr
        rw [completedOf,hof] at hc
        exact b.counts (.id q) r c hr hc
    | mc m => exact b.counts (.mc m) r c hr hc
  unreported := b.unreported

/-- A response that does not name the group does not notice its block. -/
theorem respNames_of_ne {r : Resp} {y : Option Multicast} (hr : respNames w r (.mc m) = false)
    (hmcs : w'.mcs = Function.update w.mcs m y) (o : Owner) : respNames w' r o = respNames w r o := by
  cases o with
  | id p =>
    by_cases hkind : r.event.isMulticast = true
    · have hne : r.uid ≠ m := by simpa [respNames,hkind] using hr
      simp [respNames,hmcs,hne]
    · simp [respNames,hkind]
  | mc k => rfl

theorem outstanding_of_unused {y : Option Multicast} (hunused : Unused w (.mc m))
    (hmcs : w'.mcs = Function.update w.mcs m y) (htransit : w'.transit = w.transit)
    (hheld : w'.held = w.held) (o : Owner) : outstanding w' o = outstanding w o := by
  rw [outstanding,outstanding,htransit,hheld]
  congr 1
  refine List.countP_congr fun t ht => ?_
  rw [respNames_of_ne (hunused.1 t ht) hmcs]

theorem Balanced.join (b : Balanced w) (hunused : Unused w (.mc m)) (p k : ℕ) (x : IdPriv) :
    Balanced (join w p m k x) where
  counts o r c hr hc := by
    have hmcs : (CmEvents.join w p m k x).mcs = Function.update w.mcs m (some ⟨p,k,0,none⟩) := rfl
    have hout : outstanding (CmEvents.join w p m k x) o = outstanding w o :=
      outstanding_of_unused hunused hmcs rfl rfl o
    rw [hout]
    have hself : (CmEvents.join w p m k x).mcs m = some ⟨p,k,0,none⟩ := Function.update_self _ _ _
    have hgroup : (CmEvents.join w p m k x).groups k = some ⟨m,x.handle,0⟩ := Function.update_self _ _ _
    cases o with
    | id q => exact b.counts (.id q) r c hr hc
    | mc a =>
      by_cases ha : a = m
      · subst ha
        obtain ⟨y,hy,hcase⟩ := reportedOf_mc.mp hr
        obtain rfl := Option.some.inj (hself.symm.trans hy)
        simp only [completedOf,hself,Option.map_some,Option.some.injEq] at hc
        rcases hcase with hwait | ⟨-,g,hg,-,hgr⟩
        · cases hwait
        · obtain rfl := Option.some.inj (hgroup.symm.trans hg)
          rw [outstanding_eq_zero.mpr hunused,← hc,← hgr]
      · have hof : (CmEvents.join w p m k x).mcs a = w.mcs a := Function.update_of_ne ha _ _
        rw [completedOf,hof] at hc
        obtain ⟨y,hy,hcase⟩ := reportedOf_mc.mp hr
        rw [hof] at hy
        refine b.counts (.mc a) r c (reportedOf_mc.mpr ⟨y,hy,?_⟩) hc
        rcases hcase with hwait | ⟨hwait,g,hg,huid,hgr⟩
        · exact .inl hwait
        -- the new group has another block, whatever the handle was used for before
        · have hne : y.handle ≠ k := by
            rintro rfl
            obtain rfl := Option.some.inj (hgroup.symm.trans hg)
            exact ha huid.symm
          exact .inr ⟨hwait,g,(Function.update_of_ne hne _ _).symm.trans hg,huid,hgr⟩
  unreported := b.unreported

/-! ## Blocks that wait -/

/-- What is found after an entry was taken out was found before. -/
theorem of_update_none {α : Type} {f : ℕ → Option α} {a b : ℕ} {x : α}
    (hx : Function.update f a none b = some x) : f b = some x := by
  have hb : b ≠ a := by
    rintro rfl
    rw [Function.update_self] at hx
    cases hx
  rwa [Function.update_of_ne hb] at hx

theorem counts_destroy {x : IdPriv} {c : Ctx} (hx : w.ids p = some x) (hwait : x.waiting = none)
    (hc : w.ctxs x.handle = some c) {o : Owner} {r n : ℕ}
    (hr : reportedOf (rdmaDestroyId w p x c) o = some r)
    (hn : completedOf (rdmaDestroyId w p x c) o = some n) :
    reportedOf w o = some r ∧
      ∃ d, completedOf w o = some d ∧ n+outstanding (rdmaDestroyId w p x c) o = d+outstanding w o := by
  have hself : (rdmaDestroyId w p x c).ids p = some {x with waiting := some c.reported} :=
    Function.update_self _ _ _
  have hout : outstanding (rdmaDestroyId w p x c) o = outstanding w o :=
    outstanding_congr (fun _ => rfl) rfl rfl o
  rw [hout]
  cases o with
  | id q =>
    by_cases hq : q = p
    · subst hq
      obtain ⟨y,hy,hcase⟩ := reportedOf_id.mp hr
      obtain rfl := Option.some.inj (hself.symm.trans hy)
      simp only [completedOf,hself,Option.map_some] at hn
      rcases hcase with hwait' | ⟨hwait',-⟩
      · exact ⟨reportedOf_id.mpr ⟨x,hx,.inr ⟨hwait,c,hc,Option.some.inj hwait'⟩⟩,n,
          by simp only [completedOf,hx,Option.map_some,hn],rfl⟩
      · cases hwait'
    · have hof : (rdmaDestroyId w p x c).ids q = w.ids q := Function.update_of_ne hq _ _
      rw [completedOf,hof] at hn
      obtain ⟨y,hy,hcase⟩ := reportedOf_id.mp hr
      rw [hof] at hy
      refine ⟨reportedOf_id.mpr ⟨y,hy,hcase.imp_right ?_⟩,n,hn,rfl⟩
      rintro ⟨hy',d,hd,hdr⟩
      exact ⟨hy',d,(destroyCtx_ctxs_eq_some.mp hd).2,hdr⟩
  | mc m =>
    obtain ⟨y,hy,hcase⟩ := reportedOf_mc.mp hr
    refine ⟨reportedOf_mc.mpr ⟨y,hy,hcase.imp_right ?_⟩,n,hn,rfl⟩
    rintro ⟨hy',g,hg,hrest⟩
    exact ⟨hy',g,(mem_destroyCtx_groups.mp hg).1,hrest⟩

theorem Balanced.destroy (b : Balanced w) {x : IdPriv} {c : Ctx} (hx : w.ids p = some x)
    (hwait : x.waiting = none) (hc : w.ctxs x.handle = some c) :
    Balanced (rdmaDestroyId w p x c) :=
  b.of_counts (fun _ _ _ hr hn => counts_destroy hx hwait hc hr hn)
    (fun _ d hd => .inr ⟨d,(destroyCtx_ctxs_eq_some.mp hd).2,rfl⟩) (List.Subset.refl _)

theorem Balanced.leave (b : Balanced w) {y : Multicast} {g : McCtx} (hy : w.mcs m = some y)
    (hwait : y.waiting = none) (hg : w.groups y.handle = some g) (huid : g.uid = m) :
    Balanced (rdmaLeaveMulticast w m y g) := by
  have hself : (rdmaLeaveMulticast w m y g).mcs m = some {y with waiting := some g.reported} :=
    Function.update_self _ _ _
  have hidPriv : ∀ a, ((rdmaLeaveMulticast w m y g).mcs a).map Multicast.idPriv =
      (w.mcs a).map Multicast.idPriv := by
    intro a
    by_cases ha : a = m
    · subst ha
      rw [hself,hy,Option.map_some,Option.map_some]
    · rw [show (rdmaLeaveMulticast w m y g).mcs a = w.mcs a from Function.update_of_ne ha _ _]
  refine b.of_counts (fun o r c' hr hc' => ?_) (fun h d hd => .inr ⟨d,hd,rfl⟩) (List.Subset.refl _)
  rw [outstanding_congr hidPriv rfl rfl]
  cases o with
  | id q => exact ⟨hr,c',hc',rfl⟩
  | mc a =>
    by_cases ha : a = m
    · subst ha
      obtain ⟨z,hz,hcase⟩ := reportedOf_mc.mp hr
      obtain rfl := Option.some.inj (hself.symm.trans hz)
      simp only [completedOf,hself,Option.map_some] at hc'
      rcases hcase with hwait' | ⟨hwait',-⟩
      · exact ⟨reportedOf_mc.mpr ⟨y,hy,.inr ⟨hwait,g,hg,huid,Option.some.inj hwait'⟩⟩,c',
          by simp only [completedOf,hy,Option.map_some,hc'],rfl⟩
      · cases hwait'
    · have hof : (rdmaLeaveMulticast w m y g).mcs a = w.mcs a := Function.update_of_ne ha _ _
      rw [completedOf,hof] at hc'
      obtain ⟨z,hz,hcase⟩ := reportedOf_mc.mp hr
      rw [hof] at hz
      refine ⟨reportedOf_mc.mpr ⟨z,hz,hcase.imp_right ?_⟩,c',hc',rfl⟩
      rintro ⟨hz',d,hd,hrest⟩
      exact ⟨hz',d,of_update_none hd,hrest⟩

/-! ## A report -/

/-- A queued event belongs to one identifier, which was not given to `rdma_destroy_id`. -/
theorem Named.names_id (n : Names w) {q : Queued} (hq : Named w q) :
    ∃ p x, w.ids p = some x ∧ x.waiting = none ∧ x.handle = q.ctx ∧
      ∀ a, respNames w q.resp (.id a) = true ↔ a = p := by
  rw [Named] at hq
  cases hmc : q.mc with
  | none =>
    rw [hmc] at hq
    obtain ⟨hkind,hne,c,hc,huid⟩ := hq
    obtain ⟨x,hx,hxh,hxw⟩ := n.owner q.ctx c hc (huid ▸ hne)
    exact ⟨c.uid,x,hx,hxw,hxh,fun a => by simp [respNames,hkind,huid,eq_comm]⟩
  | some k =>
    rw [hmc] at hq
    obtain ⟨hkind,g,hg,hctx,huid⟩ := hq
    obtain ⟨y,x,hy,-,-,hx,hxh,hxw⟩ := n.group k g hg
    rw [huid] at hy
    exact ⟨y.idPriv,x,hx,hxw,hxh.trans hctx,fun a => by simp [respNames,hkind,hy,eq_comm]⟩

theorem Named.names_mc {q : Queued} (hq : Named w q) (a : ℕ) : respNames w q.resp (.mc a) = true ↔
    ∃ k g, q.mc = some k ∧ w.groups k = some g ∧ g.uid = a := by
  rw [Named] at hq
  cases hmc : q.mc with
  | none =>
    rw [hmc] at hq
    simp [respNames,hq.1]
  | some k =>
    rw [hmc] at hq
    obtain ⟨hkind,g,hg,-,huid⟩ := hq
    simp [respNames,hkind,hg,huid]

theorem reportedOf_countReport (n : Names w) {q : Queued} (hq : Named w q) (u : ℕ → List Queued)
    {o : Owner} {r' : ℕ} (hr : reportedOf (countReport {w with queue := u} q) o = some r') :
    ∃ r, reportedOf w o = some r ∧ r' = r+if respNames w q.resp o then 1 else 0 := by
  cases o with
  | id a =>
    obtain ⟨p,y,hy,hyw,hyh,hnames⟩ := hq.names_id n
    obtain ⟨x,hx,hcase⟩ := reportedOf_id.mp hr
    have hx : w.ids a = some x := hx
    -- only the identifier of the event has its handle
    have hiff : x.waiting = none ∧ x.handle = q.ctx ↔ a = p := by
      constructor
      · rintro ⟨hxw,hxh⟩
        exact n.alone a x p y hx hy hxw hyw (hxh.trans hyh.symm)
      · rintro rfl
        obtain rfl := Option.some.inj (hx.symm.trans hy)
        exact ⟨hyw,hyh⟩
    rcases hcase with hwait | ⟨hwait,c,hc,hcr⟩
    · refine ⟨r',reportedOf_id.mpr ⟨x,hx,.inl hwait⟩,?_⟩
      rw [if_neg (by rw [hnames,← hiff,hwait]; simp)]
      rfl
    · obtain ⟨d,hd,hdc⟩ := Option.map_eq_some_iff.mp hc
      refine ⟨d.reported,reportedOf_id.mpr ⟨x,hx,.inr ⟨hwait,d,hd,rfl⟩⟩,?_⟩
      by_cases hh : x.handle = q.ctx
      · rw [if_pos ((hnames a).mpr (hiff.mp ⟨hwait,hh⟩)),← hcr,← hdc,if_pos hh]
      · rw [if_neg (by rw [hnames,← hiff]; exact fun hboth => hh hboth.2),← hcr,← hdc,if_neg hh]
        rfl
  | mc a =>
    obtain ⟨y,hy,hcase⟩ := reportedOf_mc.mp hr
    have hy : w.mcs a = some y := hy
    have hiff : respNames w q.resp (.mc a) = true →
        y.waiting = none ∧ some y.handle = q.mc := by
      rw [hq.names_mc]
      rintro ⟨k,g,hk,hg,rfl⟩
      obtain ⟨z,x,hz,hzh,hzw,-⟩ := n.group k g hg
      obtain rfl := Option.some.inj (hy.symm.trans hz)
      exact ⟨hzw,by rw [hzh,hk]⟩
    rcases hcase with hwait | ⟨hwait,g,hg,huid,hgr⟩
    · refine ⟨r',reportedOf_mc.mpr ⟨y,hy,.inl hwait⟩,?_⟩
      rw [if_neg (fun hnames => by simp [hwait] at hiff; exact absurd hnames (by simp [hiff]))]
      rfl
    · obtain ⟨d,hd,hdg⟩ := Option.map_eq_some_iff.mp hg
      have hduid : d.uid = a := by
        rw [← huid,← hdg]
        split
        · rfl
        · rfl
      refine ⟨d.reported,reportedOf_mc.mpr ⟨y,hy,.inr ⟨hwait,d,hd,hduid,rfl⟩⟩,?_⟩
      by_cases hh : some y.handle = q.mc
      · rw [if_pos ((hq.names_mc a).mpr ⟨y.handle,d,hh.symm,hd,hduid⟩),← hgr,← hdg,if_pos hh]
      · rw [if_neg (fun hnames => hh (hiff hnames).2),← hgr,← hdg,if_neg hh]
        rfl

/-- A reply with an event that was counted before. -/
theorem Balanced.replied (b : Balanced w) (n : Names w) {q : Queued} (hq : Named w q) {r : Resp}
    (hevent : r.event = q.resp.event) (huid : r.uid = q.resp.uid) (ch : ℕ)
    (hreported : ∀ o r', reportedOf w' o = some r' →
      ∃ r, reportedOf w o = some r ∧ r' = r+if respNames w q.resp o then 1 else 0)
    (hids : w'.ids = w.ids) (hmcs : w'.mcs = w.mcs) (htransit : w'.transit = w.transit)
    (hheld : w'.held = w.held)
    (hctxs : ∀ h c, w'.ctxs h = some c → h ≠ q.ctx →
      c.reported = 0 ∨ ∃ d, w.ctxs h = some d ∧ d.reported = c.reported)
    (hnew : r.event = .connectRequest → ∀ c, w'.ctxs r.id = some c → c.reported = 0) :
    Balanced (reply w' ch r) where
  counts o r' c hr hc := by
    obtain ⟨a,ha,hra⟩ := hreported o r' hr
    have hc : completedOf w o = some c := by
      cases o with
      | id p =>
        rw [completedOf,← hids]
        exact hc
      | mc m =>
        rw [completedOf,← hmcs]
        exact hc
    have hnames : respNames w' r o = respNames w q.resp o := by
      cases o with
      | id p => simp only [respNames,hevent,huid,hmcs]
      | mc m => simp only [respNames,hevent,huid]
    rw [hra,b.counts o a c ha hc,outstanding_reply,hnames,
      outstanding_congr (fun m => by rw [hmcs]) htransit hheld]
    omega
  unreported t ht hreq c hc := by
    rcases List.mem_append.mp ht with ht | ht
    · rw [htransit] at ht
      obtain ⟨p,x,hx,hxw,hxh,-⟩ := hq.names_id n
      have hne : t.2.id ≠ q.ctx := fun heq => (n.offered t ht hreq).2 p x hx hxw (hxh.trans heq.symm)
      rcases hctxs _ c hc hne with hzero | ⟨d,hd,hdc⟩
      · exact hzero
      · exact hdc.symm.trans (b.unreported t ht hreq d hd)
    · obtain rfl := List.mem_singleton.mp ht
      exact hnew hreq c hc

theorem Balanced.report (b : Balanced w) (n : Names w) {ch new : ℕ} {q : Queued} {rest : List Queued}
    (hqueue : w.queue ch = q::rest) (hnew : q.resp.event = .connectRequest → w.ctxs new = none) :
    Balanced (report w ch new q rest) := by
  have hq : Named w q := n.queued ch q (by rw [hqueue]; exact List.mem_cons_self)
  have hcounted : ∀ h c, (w.ctxs h).map (fun c => if h = q.ctx then ⟨c.uid,c.chan,c.reported+1⟩ else c) =
      some c → h ≠ q.ctx → c.reported = 0 ∨ ∃ d, w.ctxs h = some d ∧ d.reported = c.reported := by
    intro h c hc hne
    obtain ⟨d,hd,hdc⟩ := Option.map_eq_some_iff.mp hc
    rw [if_neg hne] at hdc
    exact .inr ⟨d,hd,by rw [hdc]⟩
  rw [CmEvents.report]
  by_cases hreq : q.resp.event = .connectRequest
  · simp only [hreq,if_true]
    have hnone : (countReport {w with queue := Function.update w.queue ch rest} q).ctxs new = none := by
      simp [countReport,hnew hreq]
    have hself : ∀ c d, Function.update (countReport {w with queue := Function.update w.queue ch rest} q).ctxs
        new (some d) new = some c → c = d := by
      intro c d hc
      rw [Function.update_self] at hc
      exact (Option.some.inj hc).symm
    refine b.replied n hq ?_ ?_ ch (fun o r' hr => ?_) ?_ ?_ ?_ ?_ ?_ ?_
    · exact hreq.symm
    · rfl
    · exact reportedOf_countReport n hq _
        (reportedOf_setCtx_new (n.same (same_countReport hqueue)) hnone hr)
    · rfl
    · rfl
    · rfl
    · rfl
    · intro h c hc hne
      by_cases hh : h = new
      · subst hh
        exact .inl (by rw [hself c _ hc])
      · exact hcounted h c ((Function.update_of_ne hh _ _).symm.trans hc) hne
    · intro _ c hc
      rw [hself c _ hc]
  · simp only [hreq,if_false]
    exact b.replied n hq rfl rfl ch (fun o r' hr => reportedOf_countReport n hq _ hr) rfl rfl rfl rfl
      (fun h c hc hne => hcounted h c hc hne) (fun hreq' => absurd hreq' hreq)

/-! ## Events that arrive -/

theorem Balanced.setIdm (b : Balanced w) (f : ℕ → Option ℕ) : Balanced {w with idm := f} :=
  ⟨b.counts,b.unreported⟩

theorem Names.setIdm (n : Names w) (f : ℕ → Option ℕ) : Names {w with idm := f} :=
  n.same {Same.refl w with}

theorem fewer_erase (w : World) (i : ℕ) : Fewer w {w with transit := w.transit.eraseIdx i} :=
  ⟨(Fewer.refl w).ids,(Fewer.refl w).mcs,(Fewer.refl w).ctxs,(Fewer.refl w).groups⟩

theorem fewer_eraseHeld (w : World) (i : ℕ) : Fewer w {w with held := w.held.eraseIdx i} :=
  ⟨(Fewer.refl w).ids,(Fewer.refl w).mcs,(Fewer.refl w).ctxs,(Fewer.refl w).groups⟩

theorem fewer_destroyCtx (w : World) (h : ℕ) : Fewer w (destroyCtx w h) :=
  ⟨(Fewer.refl w).ids,(Fewer.refl w).mcs,fun _ c hc => ⟨c,(destroyCtx_ctxs_eq_some.mp hc).2,rfl⟩,
    fun _ g hg => ⟨g,(mem_destroyCtx_groups.mp hg).1,rfl,rfl⟩⟩

theorem Fewer.trans {u : World} (s : Fewer w w') (t : Fewer w' u) : Fewer w u where
  ids p x hx := by
    obtain ⟨y,hy,hyh,hyw⟩ := t.ids p x hx
    obtain ⟨z,hz,hzh,hzw⟩ := s.ids p y hy
    exact ⟨z,hz,hzh.trans hyh,hzw.trans hyw⟩
  mcs m x hx := by
    obtain ⟨y,hy,hyh,hyw⟩ := t.mcs m x hx
    obtain ⟨z,hz,hzh,hzw⟩ := s.mcs m y hy
    exact ⟨z,hz,hzh.trans hyh,hzw.trans hyw⟩
  ctxs h c hc := by
    obtain ⟨d,hd,hdc⟩ := t.ctxs h c hc
    obtain ⟨e,he,hed⟩ := s.ctxs h d hd
    exact ⟨e,he,hed.trans hdc⟩
  groups k g hg := by
    obtain ⟨d,hd,hdu,hdr⟩ := t.groups k g hg
    obtain ⟨e,he,heu,her⟩ := s.groups k d hd
    exact ⟨e,he,heu.trans hdu,her.trans hdr⟩

/-- A reply becomes an event that is held. -/
theorem Balanced.taken (b : Balanced w) {i : ℕ} {t : ℕ × Resp} (ht : w.transit[i]? = some t)
    {e : Evt} (s : Fewer w w') (hcompleted : ∀ o, completedOf w' o = completedOf w o)
    (hmcs : ∀ m, (w'.mcs m).map Multicast.idPriv = (w.mcs m).map Multicast.idPriv)
    (htransit : w'.transit = w.transit.eraseIdx i) (hheld : w'.held = w.held)
    (hnames : ∀ o, evtNames e o = respNames w t.2 o) : Balanced (hold w' e) := by
  refine b.of_counts (fun o r c hr hc => ⟨s.reportedOf hr,c,?_,?_⟩)
    (fun h c hc => .inr (s.ctxs h c hc)) ?_
  · exact (hcompleted o).symm.trans hc
  · have hout : outstanding w' o = outstanding {w with transit := w.transit.eraseIdx i} o := by
      refine outstanding_congr ?_ ?_ ?_ o
      · exact hmcs
      · exact htransit
      · exact hheld
    rw [outstanding_hold,outstanding_eraseTransit ht,hout,hnames]
  · rw [show (hold w' e).transit = w.transit.eraseIdx i from htransit]
    exact List.eraseIdx_subset

/-- What a regular run keeps. -/
structure Accounted (w : World) : Prop where
  names : Names w
  balanced : Balanced w
  live : w.bad = false

theorem accounted_started : Accounted started := ⟨names_started,balanced_started,rfl⟩

section Arrive

variable {i : ℕ} {t : ℕ × Resp}

theorem Differ.symm {s t : ℕ × Resp} (hst : Differ s t) : Differ t s :=
  fun ht hs => (hst hs ht).symm

/-- A connection request on its way is the only one with its identifier. -/
theorem Names.others_differ (n : Names w) (ht : w.transit[i]? = some t)
    (hreq : t.2.event = .connectRequest) :
    ∀ s ∈ w.transit.eraseIdx i, s.2.event = .connectRequest → s.2.id ≠ t.2.id := by
  have hpair := ((perm_eraseIdx ht).pairwise_iff Differ.symm).mpr n.apart
  intro s hs hsreq
  exact ((List.pairwise_cons.mp hpair).1 s hs hreq hsreq).symm

theorem Accounted.held_as (a : Accounted w) (ht : w.transit[i]? = some t) {u : World}
    (hu : HeldAs {w with transit := w.transit.eraseIdx i} t.2 u) : Accounted u := by
  obtain ⟨v,e,rfl,he,hnames,hcase⟩ := hu
  have n := a.names.same (same_eraseTransit w i)
  have hnames : ∀ o, evtNames e o = respNames w t.2 o := fun o =>
    (hnames o).trans (respNames_congr (fun _ => rfl) _ o)
  rcases hcase with rfl | ⟨x,hx,rfl⟩
  · exact ⟨n.hold he,a.balanced.taken ht (fewer_erase w i) (fun o => by cases o <;> rfl)
      (fun _ => rfl) rfl rfl hnames,a.live⟩
  · have hsame := Same.setId (y := {x with connectError := true}) hx rfl rfl
    refine ⟨(n.same hsame).hold (he.imp hsame.kept),?_,a.live⟩
    have hfewer := fewer_of_same hsame (Fewer.refl w).ctxs (Fewer.refl w).groups
    refine a.balanced.taken ht ((fewer_erase w i).trans hfewer) (fun o => ?_) (fun _ => rfl) rfl rfl hnames
    cases o with
    | id q =>
      by_cases hq : q = t.2.uid
      · subst hq
        have hx : w.ids t.2.uid = some x := hx
        simp [completedOf,setId,hx]
      · simp [completedOf,setId,hq]
    | mc m => rfl

theorem Accounted.completed (a : Accounted w) (ht : w.transit[i]? = some t)
    (hkind : t.2.event.isMulticast = false) (hv : Names w')
    (s : Fewer {w with transit := w.transit.eraseIdx i} w')
    (hids : w'.ids = w.ids) (hmcs : w'.mcs = w.mcs) (htransit : w'.transit = w.transit.eraseIdx i)
    (hheld : w'.held = w.held) (hbad : w'.bad = w.bad) :
    Accounted (ucmaCompleteEvent w' t.2.uid) := by
  obtain ⟨-,hlive⟩ := a.names.coming t (List.mem_of_getElem? ht)
  rw [if_neg (by rw [hkind]; decide)] at hlive
  obtain ⟨x,hx⟩ := hlive
  -- an event that is completed at once is one that is acknowledged at once
  have he : Holding w' ⟨t.2.uid,none,t.2.uid,t.2.event,0⟩ := ⟨⟨x,by rw [hids]; exact hx⟩,by simp⟩
  refine ⟨hv.same (same_completeEvent _ _),?_,(ack_frame he).2.2.2.2.trans (hbad.trans a.live)⟩
  refine a.balanced.ack he ((fewer_erase w i).trans s) (fun o => ?_) (fun o => ?_) ?_
  · cases o with
    | id q => rw [completedOf,completedOf,hids]
    | mc m => rw [completedOf,completedOf,hmcs]
  · have hout : outstanding w' o = outstanding {w with transit := w.transit.eraseIdx i} o := by
      refine outstanding_congr (fun m => ?_) ?_ ?_ o
      · rw [hmcs]
      · exact htransit
      · exact hheld
    rw [outstanding_eraseTransit ht,hout,evtNames_id (w := w) _ _ _ _ rfl hkind]
  · rw [htransit]
    exact List.eraseIdx_subset

theorem Accounted.arrive (a : Accounted w) (ht : w.transit[i]? = some t) {ans : Answers}
    (halloc : ∀ n ∈ ans.alloc, Fresh w n) :
    Accounted (rdmaGetCmEvent {w with transit := w.transit.eraseIdx i} t.2 ans) := by
  have hmem : t ∈ w.transit := List.mem_of_getElem? ht
  have n := a.names.same (same_eraseTransit w i)
  have hcoming : Coming {w with transit := w.transit.eraseIdx i} t.2 := a.names.coming t hmem
  rcases get_cases hcoming ans with hheld | ⟨hkind,heq⟩ | ⟨hreq,x,m,hx,hans,heq⟩ | ⟨hreq,heq⟩
  · exact a.held_as ht hheld
  · rw [heq]
    exact a.completed ht hkind n (Fewer.refl _) rfl rfl rfl rfl rfl
  · have hkind : t.2.event.isMulticast = false := by rw [hreq]; rfl
    have hfresh : Fresh w m := halloc m hans
    have hx : w.ids t.2.uid = some x := hx
    have hoffered := a.names.offered t hmem hreq
    have hne : t.2.uid ≠ m := by
      rintro rfl
      simp [hfresh.2.1] at hx
    rw [heq]
    have hnew := n.setId_new (x := ⟨t.2.id,x.channel,0,false,none⟩) hfresh hoffered.1 hoffered.2
      (a.names.others_differ ht hreq)
    refine ⟨(hnew.setIdm _).hold ⟨⟨x,?_⟩,by simp⟩,?_,a.live⟩
    · exact (Function.update_of_ne hne _ _).trans hx
    · have hset := a.balanced.setId_new (x := ⟨t.2.id,x.channel,0,false,none⟩)
        (a.names.unused_id hfresh.2.1) rfl rfl (a.balanced.unreported t hmem hreq)
      refine hset.taken (i := i) (t := t) ht ?_ (fun o => by cases o <;> rfl) (fun _ => rfl) rfl rfl ?_
      · exact ⟨(Fewer.refl _).ids,(Fewer.refl _).mcs,(Fewer.refl _).ctxs,(Fewer.refl _).groups⟩
      · exact evtNames_id _ _ _ _ rfl hkind
  · have hkind : t.2.event.isMulticast = false := by rw [hreq]; rfl
    have hoffered := a.names.offered t hmem hreq
    have hdestroyed := n.destroyCtx hoffered (a.names.others_differ ht hreq)
    rw [heq]
    exact a.completed ht hkind hdestroyed (fewer_destroyCtx _ _) rfl rfl rfl rfl rfl

end Arrive

/-! ## Steps -/

/-- The kernel ignores what happens to a connection as long as nobody has accepted it, and no request
for an event fails. -/
def Regular (w : World) : Act → Prop
  | .raise h _ _ => ∀ c ∈ w.ctxs h, c.uid ≠ 0
  | .request h => ∀ c ∈ w.ctxs h, c.uid ≠ 0
  | .getFail _ _ => False
  | _ => True

instance (w : World) : (act : Act) → Decidable (Regular w act)
  | .raise h _ _ => inferInstanceAs (Decidable (∀ c ∈ w.ctxs h, c.uid ≠ 0))
  | .request h => inferInstanceAs (Decidable (∀ c ∈ w.ctxs h, c.uid ≠ 0))
  | .getFail _ _ => inferInstanceAs (Decidable False)
  | .create _ _ _ | .accept _ | .join _ _ _ | .raiseMc _ _ _ | .get _ _ | .arrive _ _ | .ack _
  | .destroy _ | .free _ | .leave _ | .freeMc _ | .migrate _ _ => inferInstanceAs (Decidable True)

theorem Accounted.create (a : Accounted w) (hfresh : Fresh w p) (hh : w.ctxs h = none) (ch : ℕ) :
    Accounted (create w p h ch) := by
  refine ⟨a.names.create hfresh hh ch,?_,a.live⟩
  have hctx := a.balanced.setCtx_new a.names hh p ch
  have hunused := a.names.unused_id hfresh.2.1
  have hid := hctx.setId_new (x := ⟨h,ch,0,false,none⟩) (p := p) hunused rfl rfl (fun c hc => by
    obtain rfl := Option.some.inj ((Function.update_self h (some (⟨p,ch,0⟩ : Ctx)) w.ctxs).symm.trans hc)
    rfl)
  exact hid.setIdm _

/-- The kernel changes what it has of an identifier, but not the count. -/
theorem reported_of_update {c d : Ctx} (hc : w.ctxs h = some c) (hd : d.reported = c.reported)
    (b : ℕ) (e : Ctx) (he : Function.update w.ctxs h (some d) b = some e) :
    ∃ f, w.ctxs b = some f ∧ f.reported = e.reported := by
  by_cases hb : b = h
  · rw [hb,Function.update_self] at he
    obtain rfl := Option.some.inj he
    exact ⟨c,hb ▸ hc,hd.symm⟩
  · rw [Function.update_of_ne hb] at he
    exact ⟨e,he,rfl⟩

theorem Accounted.accept (a : Accounted w) {x : IdPriv} {c : Ctx} (hx : w.ids p = some x)
    (hwait : x.waiting = none) (hc : w.ctxs x.handle = some c) :
    Accounted {w with ctxs := Function.update w.ctxs x.handle (some {c with uid := p})} := by
  refine ⟨a.names.setUid hx hwait hc,?_,a.live⟩
  have hfewer : Fewer w {w with ctxs := Function.update w.ctxs x.handle (some {c with uid := p})} :=
    ⟨(Fewer.refl w).ids,(Fewer.refl w).mcs,reported_of_update hc rfl,(Fewer.refl w).groups⟩
  exact a.balanced.fewer hfewer (fun o c hc => by cases o <;> exact hc)
    (outstanding_congr (fun _ => rfl) rfl rfl) rfl

theorem Accounted.raiseOn (a : Accounted w) {q : Queued} (hq : Named w q) (ch : ℕ) :
    Accounted (raiseOn w ch q) :=
  ⟨a.names.raiseOn hq,⟨a.balanced.counts,a.balanced.unreported⟩,a.live⟩

theorem Accounted.ack (a : Accounted w) {i : ℕ} {e : Evt} (he : w.held[i]? = some e) :
    Accounted (rdmaAckCmEvent {w with held := w.held.eraseIdx i} e) := by
  have hholding : Holding {w with held := w.held.eraseIdx i} e :=
    a.names.holding e (List.mem_of_getElem? he)
  refine ⟨(a.names.same (same_eraseHeld w i)).same (same_ack _ e),?_,
    (ack_frame hholding).2.2.2.2.trans a.live⟩
  exact a.balanced.ack hholding (fewer_eraseHeld w i) (fun o => by cases o <;> rfl)
    (outstanding_eraseHeld he) (List.Subset.refl _)

/-- `rdma_destroy_id` waits for a block as long as an event names it. -/
theorem Balanced.unused_id_iff (b : Balanced w) {x : IdPriv} {n : ℕ} (hx : w.ids p = some x)
    (hwait : x.waiting = some n) : n ≤ x.completed ↔ Unused w (.id p) := by
  have hcount := b.counts (.id p) n x.completed (reportedOf_id.mpr ⟨x,hx,.inl hwait⟩)
    (by rw [completedOf,hx,Option.map_some])
  rw [← outstanding_eq_zero]
  omega

theorem Balanced.unused_mc_iff (b : Balanced w) {y : Multicast} {n : ℕ} (hy : w.mcs m = some y)
    (hwait : y.waiting = some n) : n ≤ y.completed ↔ Unused w (.mc m) := by
  have hcount := b.counts (.mc m) n y.completed (reportedOf_mc.mpr ⟨y,hy,.inl hwait⟩)
    (by rw [completedOf,hy,Option.map_some])
  rw [← outstanding_eq_zero]
  omega

theorem Accounted.free (a : Accounted w) {x : IdPriv} {n : ℕ} (hx : w.ids p = some x)
    (hwait : x.waiting = some n) (hdone : n ≤ x.completed) :
    Accounted (ucmaRemoveId (setId w p none) x.handle) := by
  have hunused := (a.balanced.unused_id_iff hx hwait).mp hdone
  have hnames := a.names.free hx (by rw [hwait]; simp) hunused
  have hof : ∀ q y, (setId w p none).ids q = some y → w.ids q = some y :=
    fun _ _ hy => of_update_none hy
  refine ⟨hnames.setIdm _,Balanced.setIdm ?_ _,a.live⟩
  refine a.balanced.fewer ⟨fun q y hy => ⟨y,hof q y hy,rfl,rfl⟩,(Fewer.refl w).mcs,(Fewer.refl w).ctxs,
    (Fewer.refl w).groups⟩ (fun o c hc => ?_) (outstanding_congr (fun _ => rfl) rfl rfl) rfl
  cases o with
  | id q =>
    obtain ⟨y,hy,hyc⟩ := Option.map_eq_some_iff.mp hc
    rw [completedOf,hof q y hy,Option.map_some,hyc]
  | mc m => exact hc

theorem Accounted.freeMc (a : Accounted w) {y : Multicast} {n : ℕ} (hy : w.mcs m = some y)
    (hwait : y.waiting = some n) (hdone : n ≤ y.completed) : Accounted (setMc w m none) := by
  have hunused := (a.balanced.unused_mc_iff hy hwait).mp hdone
  have hof : ∀ b z, (setMc w m none).mcs b = some z → w.mcs b = some z :=
    fun _ _ hz => of_update_none hz
  have hmcs : (setMc w m none).mcs = Function.update w.mcs m none := rfl
  refine ⟨a.names.freeMc hy (by rw [hwait]; simp) hunused,?_,a.live⟩
  refine a.balanced.fewer ⟨(Fewer.refl w).ids,fun b z hz => ⟨z,hof b z hz,rfl,rfl⟩,(Fewer.refl w).ctxs,
    (Fewer.refl w).groups⟩ (fun o c hc => ?_) (outstanding_of_unused hunused hmcs rfl rfl) rfl
  cases o with
  | id q => exact hc
  | mc b =>
    obtain ⟨z,hz,hzc⟩ := Option.map_eq_some_iff.mp hc
    rw [completedOf,hof b z hz,Option.map_some,hzc]

theorem Accounted.migrate (a : Accounted w) {x : IdPriv} {c : Ctx} (hx : w.ids p = some x)
    (hc : w.ctxs x.handle = some c) (ch : ℕ) : Accounted (rdmaMigrateId w p ch x c) := by
  have hsame := same_migrate hx hc ch
  refine ⟨a.names.same hsame,?_,a.live⟩
  have hfewer := fewer_of_same hsame (reported_of_update (d := {c with chan := ch}) hc rfl)
    (Fewer.refl w).groups
  refine a.balanced.fewer hfewer (fun o c hc => ?_) (outstanding_congr (fun _ => rfl) rfl rfl) rfl
  cases o with
  | id q =>
    obtain ⟨y,hy,hyc⟩ := Option.map_eq_some_iff.mp hc
    have hy : Function.update w.ids p (some {x with channel := ch}) q = some y := hy
    by_cases hq : q = p
    · rw [hq,Function.update_self] at hy
      obtain rfl := Option.some.inj hy
      rw [completedOf,hq,hx,Option.map_some,← hyc]
    · rw [Function.update_of_ne hq] at hy
      rw [completedOf,hy,Option.map_some,hyc]
  | mc m => exact hc

theorem named_of_ctx {c : Ctx} (hc : w.ctxs h = some c) (huid : c.uid ≠ 0) {event : EventType}
    (hkind : event.isMulticast = false) (status : ℤ) :
    Named w ⟨h,none,⟨c.uid,h,event,status⟩⟩ :=
  ⟨hkind,huid,c,hc,rfl⟩

theorem Accounted.step (a : Accounted w) {act : Act} (hregular : Regular w act)
    (hstep : step w act = some w') : Accounted w' := by
  cases act with
  | create p h ch =>
    obtain ⟨⟨hfresh,hh⟩,heq⟩ := Option.ite_none_right_eq_some.mp hstep
    obtain rfl := Option.some.inj heq
    exact a.create hfresh hh ch
  | accept p =>
    obtain ⟨⟨x,c⟩,hcur,rfl⟩ := Option.map_eq_some_iff.mp hstep
    obtain ⟨hx,hwait,hc⟩ := current_some hcur
    exact a.accept hx hwait hc
  | raise h event status =>
    obtain ⟨⟨-,hkind⟩,heq⟩ := Option.ite_none_right_eq_some.mp hstep
    obtain ⟨c,hc,rfl⟩ := Option.map_eq_some_iff.mp heq
    exact a.raiseOn (named_of_ctx hc (hregular c hc) hkind status) _
  | request h =>
    obtain ⟨c,hc,rfl⟩ := Option.map_eq_some_iff.mp hstep
    exact a.raiseOn (named_of_ctx hc (hregular c hc) rfl 0) _
  | join p m k =>
    obtain ⟨⟨hfresh,hk⟩,heq⟩ := Option.ite_none_right_eq_some.mp hstep
    obtain ⟨⟨x,c⟩,hcur,rfl⟩ := Option.map_eq_some_iff.mp heq
    obtain ⟨hx,hwait,-⟩ := current_some hcur
    exact ⟨a.names.join hx hwait hfresh hk,a.balanced.join (a.names.unused_mc hfresh.2.2) p k x,a.live⟩
  | raiseMc k event status =>
    obtain ⟨hkind,heq⟩ := Option.ite_none_right_eq_some.mp hstep
    obtain ⟨g,hg,heq⟩ := Option.bind_eq_some_iff.mp heq
    obtain ⟨c,hc,rfl⟩ := Option.map_eq_some_iff.mp heq
    exact a.raiseOn (q := ⟨g.ctx,some k,⟨g.uid,k,event,status⟩⟩) ⟨hkind,g,hg,rfl,rfl⟩ _
  | get ch new =>
    rw [CmEvents.step] at hstep
    cases hqueue : w.queue ch with
    | nil => simp [hqueue] at hstep
    | cons q rest =>
      rw [hqueue] at hstep
      obtain ⟨hnew,heq⟩ := Option.ite_none_right_eq_some.mp hstep
      obtain rfl := Option.some.inj heq
      refine ⟨a.names.report hqueue hnew,a.balanced.report a.names hqueue hnew,?_⟩
      rw [CmEvents.report]
      split
      · exact a.live
      · exact a.live
  | getFail ch junk => exact hregular.elim
  | arrive i ans =>
    obtain ⟨t,ht,heq⟩ := Option.bind_eq_some_iff.mp hstep
    obtain ⟨halloc,heq⟩ := Option.ite_none_right_eq_some.mp heq
    obtain rfl := Option.some.inj heq
    exact a.arrive ht halloc
  | ack i =>
    obtain ⟨e,he,rfl⟩ := Option.map_eq_some_iff.mp hstep
    exact a.ack he
  | destroy p =>
    obtain ⟨⟨x,c⟩,hcur,rfl⟩ := Option.map_eq_some_iff.mp hstep
    obtain ⟨hx,hwait,hc⟩ := current_some hcur
    exact ⟨a.names.destroy hx hwait,a.balanced.destroy hx hwait hc,a.live⟩
  | free p =>
    obtain ⟨x,hx,heq⟩ := Option.bind_eq_some_iff.mp hstep
    obtain ⟨n,hwait,heq⟩ := Option.bind_eq_some_iff.mp heq
    obtain ⟨hdone,heq⟩ := Option.ite_none_right_eq_some.mp heq
    obtain rfl := Option.some.inj heq
    exact a.free hx hwait hdone
  | leave m =>
    obtain ⟨y,hy,heq⟩ := Option.bind_eq_some_iff.mp hstep
    obtain ⟨-,-,heq⟩ := Option.bind_eq_some_iff.mp heq
    obtain ⟨hwait,heq⟩ := Option.ite_none_right_eq_some.mp heq
    obtain ⟨g,hg,rfl⟩ := Option.map_eq_some_iff.mp heq
    obtain ⟨hg,huid⟩ := Option.filter_eq_some_iff.mp hg
    exact ⟨a.names.leave hy g,a.balanced.leave hy hwait hg (of_decide_eq_true huid),a.live⟩
  | freeMc m =>
    obtain ⟨y,hy,heq⟩ := Option.bind_eq_some_iff.mp hstep
    obtain ⟨n,hwait,heq⟩ := Option.bind_eq_some_iff.mp heq
    obtain ⟨hdone,heq⟩ := Option.ite_none_right_eq_some.mp heq
    obtain rfl := Option.some.inj heq
    exact a.freeMc hy hwait hdone
  | migrate p ch =>
    obtain ⟨⟨x,c⟩,hcur,rfl⟩ := Option.map_eq_some_iff.mp hstep
    obtain ⟨hx,-,hc⟩ := current_some hcur
    exact a.migrate hx hc ch

theorem accounted_run {acts : List Act} (hrun : runs started acts = some w)
    (hregular : Along CmEvents.step Regular started acts) : Accounted w :=
  run_invariant CmEvents.step Regular Accounted (fun _ _ _ ha hact hst => ha.step hact hst)
    started acts w accounted_started hregular hrun

end FreeFlow.CmEvents
