import FreeFlow.CmEvents

/-!
# What the events of the connection manager name

As long as the kernel gives every event the address of its block and no request
for an event fails, every event that is queued, on its way or held names blocks
that are allocated. An identifier that was not given to `rdma_destroy_id` is the
only one with its handle, and so is the identifier that a connection request
brings along.
-/

set_option autoImplicit false

namespace FreeFlow.CmEvents

open Runs

variable {w w' : World}

/-- An event in the queue of the kernel. -/
def Named (w : World) (q : Queued) : Prop :=
  match q.mc with
  | none => q.resp.event.isMulticast = false ∧ q.resp.uid ≠ 0 ∧
      ∃ c, w.ctxs q.ctx = some c ∧ c.uid = q.resp.uid
  | some k => q.resp.event.isMulticast = true ∧
      ∃ g, w.groups k = some g ∧ g.ctx = q.ctx ∧ g.uid = q.resp.uid

/-- The identifier of a connection request. -/
def Offered (w : World) (h : ℕ) : Prop :=
  (∃ c, w.ctxs h = some c ∧ c.uid = 0) ∧
    ∀ p x, w.ids p = some x → x.waiting = none → x.handle ≠ h

/-- A reply on its way. -/
def Coming (w : World) (r : Resp) : Prop :=
  r.uid ≠ 0 ∧ if r.event.isMulticast then
    ∃ y x, w.mcs r.uid = some y ∧ w.ids y.idPriv = some x else ∃ x, w.ids r.uid = some x

def Holding (w : World) (e : Evt) : Prop :=
  (∃ x, w.ids e.idPriv = some x) ∧
    ∀ m, e.mc = some m → ∃ y, w.mcs m = some y ∧ y.idPriv = e.idPriv

/-- Two connection requests bring different identifiers. -/
def Differ (s t : ℕ × Resp) : Prop :=
  s.2.event = .connectRequest → t.2.event = .connectRequest → s.2.id ≠ t.2.id

structure Names (w : World) : Prop where
  ids_zero : w.ids 0 = none
  mcs_zero : w.mcs 0 = none
  current : ∀ p x, w.ids p = some x → x.waiting = none →
    ∃ c, w.ctxs x.handle = some c ∧ (c.uid = p ∨ c.uid = 0)
  alone : ∀ p x q y, w.ids p = some x → w.ids q = some y → x.waiting = none → y.waiting = none →
    x.handle = y.handle → p = q
  owner : ∀ h c, w.ctxs h = some c → c.uid ≠ 0 →
    ∃ x, w.ids c.uid = some x ∧ x.handle = h ∧ x.waiting = none
  group : ∀ k g, w.groups k = some g → ∃ y x, w.mcs g.uid = some y ∧ y.handle = k ∧
    y.waiting = none ∧ w.ids y.idPriv = some x ∧ x.handle = g.ctx ∧ x.waiting = none
  queued : ∀ ch, ∀ q ∈ w.queue ch, Named w q
  offered : ∀ t ∈ w.transit, t.2.event = .connectRequest → Offered w t.2.id
  apart : w.transit.Pairwise Differ
  coming : ∀ t ∈ w.transit, Coming w t.2
  holding : ∀ e ∈ w.held, Holding w e

theorem names_started : Names started := by
  constructor <;> simp [started]

/-- What an event is counted for. -/
inductive Owner
  | id (p : ℕ)
  | mc (m : ℕ)
  deriving DecidableEq

def respNames (w : World) (r : Resp) : Owner → Bool
  | .id p => if r.event.isMulticast then decide ((w.mcs r.uid).map Multicast.idPriv = some p)
      else decide (r.uid = p)
  | .mc m => r.event.isMulticast && decide (r.uid = m)

def evtNames (e : Evt) : Owner → Bool
  | .id p => decide (e.idPriv = p)
  | .mc m => decide (e.mc = some m)

/-- No event on its way or held names the block. -/
def Unused (w : World) (o : Owner) : Prop :=
  (∀ t ∈ w.transit, respNames w t.2 o = false) ∧ ∀ e ∈ w.held, evtNames e o = false

instance (w : World) (o : Owner) : Decidable (Unused w o) := inferInstanceAs (Decidable (_ ∧ _))

/-! ## Changes that no name notices -/

/-- The counters, channels and flags may differ, and events may be gone. -/
structure Same (w w' : World) : Prop where
  ids : ∀ p, (w'.ids p).map (fun x => (x.handle,x.waiting)) =
    (w.ids p).map fun x => (x.handle,x.waiting)
  mcs : ∀ m, (w'.mcs m).map (fun y => (y.idPriv,y.handle,y.waiting)) =
    (w.mcs m).map fun y => (y.idPriv,y.handle,y.waiting)
  ctxs : ∀ h, (w'.ctxs h).map Ctx.uid = (w.ctxs h).map Ctx.uid
  groups : ∀ k, (w'.groups k).map (fun g => (g.uid,g.ctx)) = (w.groups k).map fun g => (g.uid,g.ctx)
  queue : ∀ ch, ∀ q ∈ w'.queue ch, ∃ ch, q ∈ w.queue ch
  transit : w'.transit.Sublist w.transit
  held : ∀ e ∈ w'.held, e ∈ w.held

variable {p h k m : ℕ}

theorem Same.symm_ids (s : Same w w') {x : IdPriv} (hx : w'.ids p = some x) :
    ∃ y, w.ids p = some y ∧ y.handle = x.handle ∧ y.waiting = x.waiting := by
  have heq := s.ids p
  rw [hx] at heq
  obtain ⟨y,hy,hxy⟩ := Option.map_eq_some_iff.mp heq.symm
  exact ⟨y,hy,(Prod.mk.inj hxy).1,(Prod.mk.inj hxy).2⟩

theorem Same.to_ids (s : Same w w') {x : IdPriv} (hx : w.ids p = some x) :
    ∃ y, w'.ids p = some y ∧ y.handle = x.handle ∧ y.waiting = x.waiting := by
  have heq := s.ids p
  rw [hx] at heq
  obtain ⟨y,hy,hxy⟩ := Option.map_eq_some_iff.mp heq
  exact ⟨y,hy,(Prod.mk.inj hxy).1,(Prod.mk.inj hxy).2⟩

theorem Same.to_mcs (s : Same w w') {x : Multicast} (hx : w.mcs m = some x) :
    ∃ y, w'.mcs m = some y ∧ y.idPriv = x.idPriv ∧ y.handle = x.handle ∧ y.waiting = x.waiting := by
  have heq := s.mcs m
  rw [hx] at heq
  obtain ⟨y,hy,hxy⟩ := Option.map_eq_some_iff.mp heq
  obtain ⟨hid,hrest⟩ := Prod.mk.inj hxy
  exact ⟨y,hy,hid,(Prod.mk.inj hrest).1,(Prod.mk.inj hrest).2⟩

theorem Same.to_ctxs (s : Same w w') {c : Ctx} (hc : w.ctxs h = some c) :
    ∃ d, w'.ctxs h = some d ∧ d.uid = c.uid := by
  have heq := s.ctxs h
  rw [hc] at heq
  exact Option.map_eq_some_iff.mp heq

theorem Same.symm_ctxs (s : Same w w') {c : Ctx} (hc : w'.ctxs h = some c) :
    ∃ d, w.ctxs h = some d ∧ d.uid = c.uid := by
  have heq := s.ctxs h
  rw [hc] at heq
  exact Option.map_eq_some_iff.mp heq.symm

theorem Same.to_groups (s : Same w w') {g : McCtx} (hg : w.groups k = some g) :
    ∃ d, w'.groups k = some d ∧ d.uid = g.uid ∧ d.ctx = g.ctx := by
  have heq := s.groups k
  rw [hg] at heq
  obtain ⟨d,hd,hgd⟩ := Option.map_eq_some_iff.mp heq
  exact ⟨d,hd,(Prod.mk.inj hgd).1,(Prod.mk.inj hgd).2⟩

theorem Same.symm_groups (s : Same w w') {g : McCtx} (hg : w'.groups k = some g) :
    ∃ d, w.groups k = some d ∧ d.uid = g.uid ∧ d.ctx = g.ctx := by
  have heq := s.groups k
  rw [hg] at heq
  obtain ⟨d,hd,hgd⟩ := Option.map_eq_some_iff.mp heq.symm
  exact ⟨d,hd,(Prod.mk.inj hgd).1,(Prod.mk.inj hgd).2⟩

theorem Same.none_ids (s : Same w w') (hp : w.ids p = none) : w'.ids p = none := by
  have heq := s.ids p
  rw [hp] at heq
  exact Option.map_eq_none_iff.mp heq

theorem Same.none_mcs (s : Same w w') (hm : w.mcs m = none) : w'.mcs m = none := by
  have heq := s.mcs m
  rw [hm] at heq
  exact Option.map_eq_none_iff.mp heq

theorem Named.same (s : Same w w') {q : Queued} (hq : Named w q) : Named w' q := by
  rw [Named] at hq ⊢
  cases hmc : q.mc with
  | none =>
    rw [hmc] at hq
    obtain ⟨hkind,hne,c,hc,huid⟩ := hq
    obtain ⟨d,hd,hdc⟩ := s.to_ctxs hc
    exact ⟨hkind,hne,d,hd,hdc.trans huid⟩
  | some k =>
    rw [hmc] at hq
    obtain ⟨hkind,g,hg,hctx,huid⟩ := hq
    obtain ⟨d,hd,hduid,hdctx⟩ := s.to_groups hg
    exact ⟨hkind,d,hd,hdctx.trans hctx,hduid.trans huid⟩

theorem Offered.same (s : Same w w') (ho : Offered w h) : Offered w' h := by
  obtain ⟨⟨c,hc,hzero⟩,hno⟩ := ho
  obtain ⟨d,hd,hdc⟩ := s.to_ctxs hc
  refine ⟨⟨d,hd,hdc.trans hzero⟩,fun p x hx hwait => ?_⟩
  obtain ⟨y,hy,hyh,hyw⟩ := s.symm_ids hx
  rw [← hyh]
  exact hno p y hy (hyw.trans hwait)

/-- Blocks that stay allocated. -/
def Kept (w w' : World) : Prop :=
  (∀ p x, w.ids p = some x → ∃ y, w'.ids p = some y) ∧
    ∀ m y, w.mcs m = some y → ∃ z, w'.mcs m = some z ∧ z.idPriv = y.idPriv

theorem Coming.imp (s : Kept w w') {r : Resp} (hr : Coming w r) : Coming w' r := by
  refine ⟨hr.1,?_⟩
  have hr := hr.2
  by_cases hkind : r.event.isMulticast = true
  · rw [if_pos hkind] at hr ⊢
    obtain ⟨y,x,hy,hx⟩ := hr
    obtain ⟨z,hz,hid⟩ := s.2 _ y hy
    obtain ⟨x',hx'⟩ := s.1 _ x hx
    exact ⟨z,x',hz,hid ▸ hx'⟩
  · rw [if_neg hkind] at hr ⊢
    obtain ⟨x,hx⟩ := hr
    exact s.1 _ x hx

theorem Holding.imp (s : Kept w w') {e : Evt} (he : Holding w e) : Holding w' e := by
  obtain ⟨⟨x,hx⟩,hmc⟩ := he
  refine ⟨s.1 _ x hx,fun m hm => ?_⟩
  obtain ⟨y,hy,hid⟩ := hmc m hm
  obtain ⟨z,hz,hzy⟩ := s.2 m y hy
  exact ⟨z,hz,hzy.trans hid⟩

theorem Same.kept (s : Same w w') : Kept w w' := by
  constructor
  · intro p x hx
    obtain ⟨y,hy,-⟩ := s.to_ids hx
    exact ⟨y,hy⟩
  · intro m y hy
    obtain ⟨z,hz,hid,-⟩ := s.to_mcs hy
    exact ⟨z,hz,hid⟩

theorem Names.same (n : Names w) (s : Same w w') : Names w' where
  ids_zero := s.none_ids n.ids_zero
  mcs_zero := s.none_mcs n.mcs_zero
  current p x hx hwait := by
    obtain ⟨y,hy,hyh,hyw⟩ := s.symm_ids hx
    obtain ⟨c,hc,huid⟩ := n.current p y hy (hyw.trans hwait)
    obtain ⟨d,hd,hdc⟩ := s.to_ctxs hc
    exact ⟨d,hyh ▸ hd,hdc.symm ▸ huid⟩
  alone p x q y hx hy hxw hyw hxy := by
    obtain ⟨x',hx',hxh,hxw'⟩ := s.symm_ids hx
    obtain ⟨y',hy',hyh,hyw'⟩ := s.symm_ids hy
    exact n.alone p x' q y' hx' hy' (hxw'.trans hxw) (hyw'.trans hyw) (hxh.trans (hxy.trans hyh.symm))
  owner h c hc huid := by
    obtain ⟨d,hd,hdc⟩ := s.symm_ctxs hc
    obtain ⟨x,hx,hxh,hxw⟩ := n.owner h d hd (hdc.symm ▸ huid)
    obtain ⟨x',hx',hxh',hxw'⟩ := s.to_ids hx
    exact ⟨x',hdc ▸ hx',hxh'.trans hxh,hxw'.trans hxw⟩
  group k g hg := by
    obtain ⟨d,hd,hduid,hdctx⟩ := s.symm_groups hg
    obtain ⟨y,x,hy,hyh,hyw,hx,hxh,hxw⟩ := n.group k d hd
    obtain ⟨y',hy',hid',hyh',hyw'⟩ := s.to_mcs hy
    obtain ⟨x',hx',hxh',hxw'⟩ := s.to_ids hx
    exact ⟨y',x',hduid ▸ hy',hyh'.trans hyh,hyw'.trans hyw,hid' ▸ hx',hxh'.trans (hxh.trans hdctx),
      hxw'.trans hxw⟩
  queued ch q hq := by
    obtain ⟨ch',hq'⟩ := s.queue ch q hq
    exact (n.queued ch' q hq').same s
  offered t ht hreq := (n.offered t (s.transit.subset ht) hreq).same s
  apart := n.apart.sublist s.transit
  coming t ht := (n.coming t (s.transit.subset ht)).imp s.kept
  holding e he := (n.holding e (s.held e he)).imp s.kept

theorem Same.refl (w : World) : Same w w :=
  ⟨fun _ => rfl,fun _ => rfl,fun _ => rfl,fun _ => rfl,fun ch _ hq => ⟨ch,hq⟩,List.Sublist.refl _,
    fun _ he => he⟩

theorem Same.trans {u : World} (s : Same w w') (t : Same w' u) : Same w u where
  ids p := (t.ids p).trans (s.ids p)
  mcs m := (t.mcs m).trans (s.mcs m)
  ctxs h := (t.ctxs h).trans (s.ctxs h)
  groups k := (t.groups k).trans (s.groups k)
  queue ch q hq := by
    obtain ⟨ch',hq'⟩ := t.queue ch q hq
    exact s.queue ch' q hq'
  transit := t.transit.trans s.transit
  held e he := s.held e (t.held e he)

/-- A block is written and keeps what names it. -/
theorem Same.setId {x y : IdPriv} (hx : w.ids p = some x) (hh : y.handle = x.handle)
    (hw : y.waiting = x.waiting) : Same w (setId w p (some y)) := by
  refine {Same.refl w with ids := fun q => ?_}
  show (Function.update w.ids p (some y) q).map _ = _
  by_cases hq : q = p
  · rw [hq,Function.update_self,hx,Option.map_some,Option.map_some,hh,hw]
  · rw [Function.update_of_ne hq]

theorem same_completeEvent (w : World) (p : ℕ) : Same w (ucmaCompleteEvent w p) := by
  rw [ucmaCompleteEvent]
  cases hx : w.ids p with
  | none => exact {Same.refl w with}
  | some x => exact Same.setId hx rfl rfl

theorem Same.setMc {x y : Multicast} (hx : w.mcs m = some x) (hid : y.idPriv = x.idPriv)
    (hh : y.handle = x.handle) (hw : y.waiting = x.waiting) : Same w (setMc w m (some y)) := by
  refine {Same.refl w with mcs := fun k => ?_}
  show (Function.update w.mcs m (some y) k).map _ = _
  by_cases hk : k = m
  · rw [hk,Function.update_self,hx,Option.map_some,Option.map_some,hid,hh,hw]
  · rw [Function.update_of_ne hk]

theorem same_completeMcEvent (w : World) (m : ℕ) : Same w (ucmaCompleteMcEvent w m) := by
  rw [ucmaCompleteMcEvent]
  cases hy : w.mcs m with
  | none => exact {Same.refl w with}
  | some y =>
    have hset := Same.setMc (y := {y with completed := y.completed+1}) hy rfl rfl rfl
    exact hset.trans (same_completeEvent _ y.idPriv)

theorem same_ack (w : World) (e : Evt) : Same w (rdmaAckCmEvent w e) := by
  rw [rdmaAckCmEvent]
  cases e.mc with
  | none => exact same_completeEvent w e.idPriv
  | some m => exact same_completeMcEvent w m

theorem same_eraseTransit (w : World) (i : ℕ) : Same w {w with transit := w.transit.eraseIdx i} :=
  {Same.refl w with transit := List.eraseIdx_sublist _ _}

theorem same_eraseHeld (w : World) (i : ℕ) : Same w {w with held := w.held.eraseIdx i} :=
  {Same.refl w with held := fun _ he => (List.eraseIdx_sublist _ _).subset he}

/-- An event leaves its queue and is counted. -/
theorem same_countReport {ch : ℕ} {q : Queued} {rest : List Queued} (hqueue : w.queue ch = q::rest) :
    Same w (countReport {w with queue := Function.update w.queue ch rest} q) where
  ids _ := rfl
  mcs _ := rfl
  ctxs h := by
    show ((w.ctxs h).map _).map _ = _
    cases w.ctxs h with
    | none => rfl
    | some c =>
      by_cases hh : h = q.ctx
      · simp [hh]
      · simp [hh]
  groups k := by
    show ((w.groups k).map _).map _ = _
    cases w.groups k with
    | none => rfl
    | some g =>
      by_cases hk : some k = q.mc
      · simp [hk]
      · simp [hk]
  queue ch' q' hq' := by
    have hq' : q' ∈ Function.update w.queue ch rest ch' := hq'
    by_cases hch : ch' = ch
    · rw [hch,Function.update_self] at hq'
      exact ⟨ch,hqueue ▸ List.mem_cons_of_mem q hq'⟩
    · rw [Function.update_of_ne hch] at hq'
      exact ⟨ch',hq'⟩
  transit := List.Sublist.refl _
  held _ he := he

/-! ## Events come in -/

theorem Names.hold (n : Names w) {e : Evt} (he : Holding w e) : Names (hold w e) :=
  {n with
    holding := fun e' he' => by
      rcases List.mem_append.mp he' with he' | he'
      · exact n.holding e' he'
      · rw [List.mem_singleton.mp he']
        exact he}

theorem Names.reply (n : Names w) {ch : ℕ} {r : Resp} (hr : Coming w r)
    (hreq : r.event = .connectRequest → Offered w r.id)
    (hnew : r.event = .connectRequest → ∀ t ∈ w.transit, t.2.event = .connectRequest → t.2.id ≠ r.id) :
    Names (reply w ch r) :=
  {n with
    offered := fun t ht => by
      rcases List.mem_append.mp ht with ht | ht
      · exact n.offered t ht
      · rw [List.mem_singleton.mp ht]
        exact hreq
    apart := by
      refine List.pairwise_append.mpr ⟨n.apart,List.pairwise_singleton _ _,fun s hs t ht => ?_⟩
      rw [List.mem_singleton.mp ht]
      exact fun hs' ht' => hnew ht' s hs hs'
    coming := fun t ht => by
      rcases List.mem_append.mp ht with ht | ht
      · exact n.coming t ht
      · rw [List.mem_singleton.mp ht]
        exact hr}

theorem Names.raiseOn (n : Names w) {ch : ℕ} {q : Queued} (hq : Named w q) :
    Names (raiseOn w ch q) :=
  {n with
    queued := fun ch' q' hq' => by
      have hq' : q' ∈ Function.update w.queue ch (w.queue ch++[q]) ch' := hq'
      by_cases hch : ch' = ch
      · rw [hch,Function.update_self] at hq'
        rcases List.mem_append.mp hq' with hq' | hq'
        · exact n.queued ch q' hq'
        · rw [List.mem_singleton.mp hq']
          exact hq
      · rw [Function.update_of_ne hch] at hq'
        exact n.queued ch' q' hq'}

/-- What is named in the queue is there. -/
theorem Named.coming (n : Names w) {q : Queued} (hq : Named w q) : Coming w q.resp := by
  rw [Named] at hq
  cases hmc : q.mc with
  | none =>
    rw [hmc] at hq
    obtain ⟨hkind,hne,c,hc,huid⟩ := hq
    obtain ⟨x,hx,-⟩ := n.owner q.ctx c hc (huid ▸ hne)
    refine ⟨hne,?_⟩
    rw [if_neg (by rw [hkind]; decide)]
    exact ⟨x,huid ▸ hx⟩
  | some k =>
    rw [hmc] at hq
    obtain ⟨hkind,g,hg,-,huid⟩ := hq
    obtain ⟨y,x,hy,-,-,hx,-,-⟩ := n.group k g hg
    refine ⟨?_,?_⟩
    · rintro hzero
      rw [huid,hzero,n.mcs_zero] at hy
      cases hy
    · rw [if_pos hkind]
      exact ⟨y,x,huid ▸ hy,hx⟩

/-! ## Blocks come and go -/

theorem current_some {x : IdPriv} {c : Ctx} (hcur : CmEvents.current w p = some (x,c)) :
    w.ids p = some x ∧ x.waiting = none ∧ w.ctxs x.handle = some c := by
  obtain ⟨y,hy,hcur⟩ := Option.bind_eq_some_iff.mp hcur
  obtain ⟨hwait,hcur⟩ := Option.ite_none_right_eq_some.mp hcur
  obtain ⟨d,hd,heq⟩ := Option.map_eq_some_iff.mp hcur
  obtain ⟨rfl,rfl⟩ := Prod.mk.inj heq
  exact ⟨hy,hwait,hd⟩

/-- A new block, of an identifier that no other block has. -/
theorem Names.setId_new (n : Names w) (hfresh : Fresh w p) {x : IdPriv}
    (hctx : ∃ c, w.ctxs x.handle = some c ∧ c.uid = 0)
    (hno : ∀ q y, w.ids q = some y → y.waiting = none → y.handle ≠ x.handle)
    (htransit : ∀ t ∈ w.transit, t.2.event = .connectRequest → t.2.id ≠ x.handle) :
    Names (setId w p (some x)) := by
  obtain ⟨hne,hids,hmcs⟩ := hfresh
  have hof : ∀ q, q ≠ p → (setId w p (some x)).ids q = w.ids q := fun q hq => Function.update_of_ne hq _ _
  have hself : (setId w p (some x)).ids p = some x := Function.update_self _ _ _
  have hold : ∀ q y, w.ids q = some y → (setId w p (some x)).ids q = some y := by
    intro q y hy
    rw [hof q (by rintro rfl; simp [hids] at hy),hy]
  have hkept : Kept w (setId w p (some x)) := ⟨fun q y hy => ⟨y,hold q y hy⟩,fun m y hy => ⟨y,hy,rfl⟩⟩
  exact {n with
    ids_zero := by rw [hof 0 hne.symm]; exact n.ids_zero
    current := fun q y hy hyw => by
      by_cases hq : q = p
      · subst hq
        obtain rfl := Option.some.inj (hself.symm.trans hy)
        obtain ⟨c,hc,hzero⟩ := hctx
        exact ⟨c,hc,.inr hzero⟩
      · rw [hof q hq] at hy
        exact n.current q y hy hyw
    alone := fun q y r z hy hz hyw hzw hyz => by
      by_cases hq : q = p
      · by_cases hr : r = p
        · exact hq.trans hr.symm
        · subst hq
          obtain rfl := Option.some.inj (hself.symm.trans hy)
          rw [hof r hr] at hz
          exact absurd hyz.symm (hno r z hz hzw)
      · rw [hof q hq] at hy
        by_cases hr : r = p
        · subst hr
          obtain rfl := Option.some.inj (hself.symm.trans hz)
          exact absurd hyz (hno q y hy hyw)
        · rw [hof r hr] at hz
          exact n.alone q y r z hy hz hyw hzw hyz
    owner := fun h c hc huid => by
      obtain ⟨y,hy,hyh,hyw⟩ := n.owner h c hc huid
      exact ⟨y,hold _ y hy,hyh,hyw⟩
    group := fun k g hg => by
      obtain ⟨y,z,hy,hyh,hyw,hz,hzh,hzw⟩ := n.group k g hg
      exact ⟨y,z,hy,hyh,hyw,hold _ z hz,hzh,hzw⟩
    offered := fun t ht hreq => by
      obtain ⟨hc,hnone⟩ := n.offered t ht hreq
      refine ⟨hc,fun q y hy hyw => ?_⟩
      by_cases hq : q = p
      · subst hq
        obtain rfl := Option.some.inj (hself.symm.trans hy)
        exact (htransit t ht hreq).symm
      · rw [hof q hq] at hy
        exact hnone q y hy hyw
    coming := fun t ht => (n.coming t ht).imp hkept
    holding := fun e he => (n.holding e he).imp hkept}

/-- The kernel makes an identifier that has no block yet. -/
theorem Names.setCtx_new (n : Names w) (hh : w.ctxs h = none) (ch : ℕ) :
    Names {w with ctxs := Function.update w.ctxs h (some ⟨0,ch,0⟩)} := by
  have hof : ∀ a c, w.ctxs a = some c → Function.update w.ctxs h (some (⟨0,ch,0⟩ : Ctx)) a = some c := by
    intro a c hc
    rw [Function.update_of_ne (by rintro rfl; simp [hh] at hc),hc]
  exact {n with
    current := fun p x hx hwait => by
      obtain ⟨c,hc,huid⟩ := n.current p x hx hwait
      exact ⟨c,hof _ c hc,huid⟩
    owner := fun a c hc huid => by
      have hc : Function.update w.ctxs h (some (⟨0,ch,0⟩ : Ctx)) a = some c := hc
      by_cases ha : a = h
      · rw [ha,Function.update_self] at hc
        obtain rfl := Option.some.inj hc
        exact absurd rfl huid
      · rw [Function.update_of_ne ha] at hc
        exact n.owner a c hc huid
    queued := fun a q hq => by
      have hq := n.queued a q hq
      rw [Named] at hq ⊢
      cases hmc : q.mc with
      | none =>
        rw [hmc] at hq
        obtain ⟨hkind,hne,c,hc,huid⟩ := hq
        exact ⟨hkind,hne,c,hof _ c hc,huid⟩
      | some k =>
        rw [hmc] at hq
        exact hq
    offered := fun t ht hreq => by
      obtain ⟨⟨c,hc,hzero⟩,hnone⟩ := n.offered t ht hreq
      exact ⟨⟨c,hof _ c hc,hzero⟩,hnone⟩}

/-- A connection is accepted, or an identifier gets its block. -/
theorem Names.setUid (n : Names w) {x : IdPriv} {c : Ctx} (hx : w.ids p = some x)
    (hwait : x.waiting = none) (hc : w.ctxs x.handle = some c) :
    Names {w with ctxs := Function.update w.ctxs x.handle (some ⟨p,c.chan,c.reported⟩)} := by
  have huid : c.uid = p ∨ c.uid = 0 := by
    obtain ⟨d,hd,huid⟩ := n.current p x hx hwait
    obtain rfl := Option.some.inj (hc.symm.trans hd)
    exact huid
  have hof : ∀ a, a ≠ x.handle →
      Function.update w.ctxs x.handle (some (⟨p,c.chan,c.reported⟩ : Ctx)) a = w.ctxs a :=
    fun a ha => Function.update_of_ne ha _ _
  have hself : Function.update w.ctxs x.handle (some (⟨p,c.chan,c.reported⟩ : Ctx)) x.handle =
      some ⟨p,c.chan,c.reported⟩ := Function.update_self _ _ _
  exact {n with
    current := fun q y hy hyw => by
      by_cases hq : y.handle = x.handle
      · obtain rfl := n.alone q y p x hy hx hyw hwait hq
        exact ⟨_,(congrArg _ hq).trans hself,.inl rfl⟩
      · obtain ⟨d,hd,hduid⟩ := n.current q y hy hyw
        exact ⟨d,(hof _ hq).trans hd,hduid⟩
    owner := fun a d hd hduid => by
      by_cases ha : a = x.handle
      · subst ha
        obtain rfl := Option.some.inj (hself.symm.trans hd)
        exact ⟨x,hx,rfl,hwait⟩
      · exact n.owner a d ((hof a ha).symm.trans hd) hduid
    queued := fun a q hq => by
      have hq := n.queued a q hq
      rw [Named] at hq ⊢
      cases hmc : q.mc with
      | none =>
        rw [hmc] at hq
        obtain ⟨hkind,hne,d,hd,hduid⟩ := hq
        by_cases ha : q.ctx = x.handle
        · rw [ha] at hd
          obtain rfl := Option.some.inj (hc.symm.trans hd)
          -- an event was raised, so the identifier had its block before
          have hp : p = q.resp.uid := by
            rcases huid with huid | huid
            · exact huid.symm.trans hduid
            · exact absurd (hduid.symm.trans huid) hne
          exact ⟨hkind,hne,_,(congrArg _ ha).trans hself,hp⟩
        · exact ⟨hkind,hne,d,(hof _ ha).trans hd,hduid⟩
      | some k =>
        rw [hmc] at hq
        exact hq
    offered := fun t ht hreq => by
      obtain ⟨⟨d,hd,hzero⟩,hnone⟩ := n.offered t ht hreq
      exact ⟨⟨d,(hof _ (hnone p x hx hwait).symm).trans hd,hzero⟩,hnone⟩}

theorem Offered.new (n : Names w) (hh : w.ctxs h = none) (ch : ℕ) :
    Offered {w with ctxs := Function.update w.ctxs h (some ⟨0,ch,0⟩)} h := by
  refine ⟨⟨_,Function.update_self _ _ _,rfl⟩,fun p x hx hwait hxh => ?_⟩
  obtain ⟨c,hc,-⟩ := n.current p x hx hwait
  rw [hxh,hh] at hc
  cases hc

theorem Names.offered_ne (n : Names w) (hh : w.ctxs h = none) :
    ∀ t ∈ w.transit, t.2.event = .connectRequest → t.2.id ≠ h := by
  intro t ht hreq hid
  obtain ⟨⟨c,hc,-⟩,-⟩ := n.offered t ht hreq
  rw [hid,hh] at hc
  cases hc

/-- The event that is reported comes with its reply. -/
theorem Names.report (n : Names w) {ch new : ℕ} {q : Queued} {rest : List Queued}
    (hqueue : w.queue ch = q::rest) (hnew : q.resp.event = .connectRequest → w.ctxs new = none) :
    Names (report w ch new q rest) := by
  have hsame := same_countReport hqueue
  have hq : Coming w q.resp := (n.queued ch q (by rw [hqueue]; exact List.mem_cons_self)).coming n
  rw [CmEvents.report]
  obtain ⟨u,hu⟩ : ∃ u, u = countReport {w with queue := Function.update w.queue ch rest} q := ⟨_,rfl⟩
  rw [← hu] at hsame
  have hnames := n.same hsame
  have hcoming := hq.imp hsame.kept
  simp only [← hu]
  by_cases hreq : q.resp.event = .connectRequest
  · rw [if_pos hreq]
    have hnone : u.ctxs new = none := by
      have heq := hsame.ctxs new
      rw [hnew hreq] at heq
      exact Option.map_eq_none_iff.mp heq
    have hctx : Names {u with
        ctxs := Function.update u.ctxs new (some ⟨0,ch,0⟩)
        last := Function.update u.last ch (some {q.resp with id := new})} :=
      (hnames.setCtx_new hnone ch).same {Same.refl _ with}
    refine hctx.reply hcoming (fun _ => Offered.new hnames hnone ch) (fun _ => ?_)
    exact hnames.offered_ne hnone
  · rw [if_neg hreq]
    have hlast : Names {u with last := Function.update u.last ch (some q.resp)} :=
      hnames.same {Same.refl _ with}
    exact hlast.reply hcoming (fun h => absurd h hreq) (fun h => absurd h hreq)

theorem Names.create (n : Names w) (hfresh : Fresh w p) (hh : w.ctxs h = none) (ch : ℕ) :
    Names (create w p h ch) := by
  have hctx := n.setCtx_new hh ch
  have hoffered := Offered.new n hh ch
  have hid := hctx.setId_new (x := ⟨h,ch,0,false,none⟩) hfresh hoffered.1 hoffered.2 (n.offered_ne hh)
  have huid := hid.setUid (p := p) (Function.update_self _ _ _) rfl (Function.update_self _ _ _)
  refine huid.same {Same.refl _ with ctxs := fun a => ?_}
  show (Function.update w.ctxs h (some (⟨p,ch,0⟩ : Ctx)) a).map _ =
    (Function.update (Function.update w.ctxs h (some (⟨0,ch,0⟩ : Ctx))) h (some ⟨p,ch,0⟩) a).map _
  rw [Function.update_idem]

theorem mem_destroyCtx_groups {g : McCtx} :
    (destroyCtx w h).groups k = some g ↔ w.groups k = some g ∧ g.ctx ≠ h := by
  simp [destroyCtx,Option.filter_eq_some_iff]

theorem mem_destroyCtx_queue {ch : ℕ} {q : Queued} :
    q ∈ (destroyCtx w h).queue ch ↔ q ∈ w.queue ch ∧ q.ctx ≠ h := by
  simp [destroyCtx]

theorem destroyCtx_ctxs_of_ne {a : ℕ} (ha : a ≠ h) : (destroyCtx w h).ctxs a = w.ctxs a :=
  Function.update_of_ne ha _ _

theorem destroyCtx_ctxs_eq_some {a : ℕ} {c : Ctx} :
    (destroyCtx w h).ctxs a = some c ↔ a ≠ h ∧ w.ctxs a = some c := by
  by_cases ha : a = h
  · subst ha
    simp [destroyCtx]
  · simp [ha,destroyCtx_ctxs_of_ne ha]

theorem Named.destroyCtx {q : Queued} (hq : Named w q) (hne : q.ctx ≠ h) :
    Named (destroyCtx w h) q := by
  rw [Named] at hq ⊢
  cases hmc : q.mc with
  | none =>
    rw [hmc] at hq
    obtain ⟨hkind,hzero,c,hc,huid⟩ := hq
    exact ⟨hkind,hzero,c,(destroyCtx_ctxs_of_ne hne).trans hc,huid⟩
  | some k =>
    rw [hmc] at hq
    obtain ⟨hkind,g,hg,hctx,huid⟩ := hq
    exact ⟨hkind,g,mem_destroyCtx_groups.mpr ⟨hg,hctx ▸ hne⟩,hctx,huid⟩

/-- An identifier without a block is taken out of the kernel. -/
theorem Names.destroyCtx (n : Names w) (ho : Offered w h)
    (htransit : ∀ t ∈ w.transit, t.2.event = .connectRequest → t.2.id ≠ h) :
    Names (destroyCtx w h) :=
  {n with
    current := fun p x hx hwait => by
      obtain ⟨c,hc,huid⟩ := n.current p x hx hwait
      exact ⟨c,(destroyCtx_ctxs_of_ne (ho.2 p x hx hwait)).trans hc,huid⟩
    owner := fun a c hc huid => n.owner a c (destroyCtx_ctxs_eq_some.mp hc).2 huid
    group := fun k g hg => n.group k g (mem_destroyCtx_groups.mp hg).1
    queued := fun ch q hq => by
      obtain ⟨hq,hne⟩ := mem_destroyCtx_queue.mp hq
      exact (n.queued ch q hq).destroyCtx hne
    offered := fun t ht hreq => by
      obtain ⟨⟨c,hc,hzero⟩,hnone⟩ := n.offered t ht hreq
      exact ⟨⟨c,(destroyCtx_ctxs_of_ne (htransit t ht hreq)).trans hc,hzero⟩,hnone⟩}

theorem kept_destroy (w : World) (p : ℕ) (x : IdPriv) (c : Ctx) :
    Kept w (rdmaDestroyId w p x c) := by
  refine ⟨fun q y hy => ?_,fun m y hy => ⟨y,hy,rfl⟩⟩
  by_cases hq : q = p
  · rw [hq]
    exact ⟨_,Function.update_self _ _ _⟩
  · exact ⟨y,(Function.update_of_ne hq _ _).trans hy⟩

/-- The identifier of a block is taken out, and the block waits. -/
theorem Names.destroy (n : Names w) {x : IdPriv} {c : Ctx} (hx : w.ids p = some x)
    (hwait : x.waiting = none) : Names (rdmaDestroyId w p x c) := by
  obtain ⟨ids',hids'⟩ : ∃ f, f = Function.update w.ids p (some {x with waiting := some c.reported}) :=
    ⟨_,rfl⟩
  have hof : ∀ q, q ≠ p → ids' q = w.ids q := fun q hq => by rw [hids',Function.update_of_ne hq]
  have hself : ids' p = some {x with waiting := some c.reported} := by
    rw [hids',Function.update_self]
  have hcur : ∀ q y, ids' q = some y → y.waiting = none → q ≠ p ∧ w.ids q = some y := by
    intro q y hy hyw
    have hq : q ≠ p := by
      rintro rfl
      obtain rfl := Option.some.inj (hself.symm.trans hy)
      cases hyw
    exact ⟨hq,(hof q hq).symm.trans hy⟩
  have hother : ∀ q y, w.ids q = some y → y.waiting = none → y.handle ≠ x.handle → ids' q = some y := by
    intro q y hy hyw hne
    refine (hof q ?_).trans hy
    rintro rfl
    obtain rfl := Option.some.inj (hx.symm.trans hy)
    exact hne rfl
  have hnames : ids' = (rdmaDestroyId w p x c).ids := hids'
  have hkept := kept_destroy w p x c
  exact {n with
    ids_zero := by
      rw [← hnames,hof 0 (by rintro rfl; simp [n.ids_zero] at hx)]
      exact n.ids_zero
    current := fun q y hy hyw => by
      obtain ⟨hq,hy⟩ := hcur q y (hnames ▸ hy) hyw
      obtain ⟨d,hd,huid⟩ := n.current q y hy hyw
      refine ⟨d,destroyCtx_ctxs_eq_some.mpr ⟨fun hh => hq ?_,hd⟩,huid⟩
      exact n.alone q y p x hy hx hyw hwait hh
    alone := fun q y r z hy hz hyw hzw hyz => by
      obtain ⟨-,hy⟩ := hcur q y (hnames ▸ hy) hyw
      obtain ⟨-,hz⟩ := hcur r z (hnames ▸ hz) hzw
      exact n.alone q y r z hy hz hyw hzw hyz
    owner := fun a d hd huid => by
      obtain ⟨ha,hd⟩ := destroyCtx_ctxs_eq_some.mp hd
      obtain ⟨y,hy,hyh,hyw⟩ := n.owner a d hd huid
      exact ⟨y,hnames ▸ hother _ y hy hyw (hyh ▸ ha),hyh,hyw⟩
    group := fun k g hg => by
      obtain ⟨hg,hne⟩ := mem_destroyCtx_groups.mp hg
      obtain ⟨y,z,hy,hyh,hyw,hz,hzh,hzw⟩ := n.group k g hg
      exact ⟨y,z,hy,hyh,hyw,hnames ▸ hother _ z hz hzw (hzh ▸ hne),hzh,hzw⟩
    queued := fun ch q hq => by
      obtain ⟨hq,hne⟩ := mem_destroyCtx_queue.mp hq
      exact (n.queued ch q hq).destroyCtx hne
    offered := fun t ht hreq => by
      obtain ⟨⟨d,hd,hzero⟩,hnone⟩ := n.offered t ht hreq
      refine ⟨⟨d,destroyCtx_ctxs_eq_some.mpr ⟨(hnone p x hx hwait).symm,hd⟩,hzero⟩,fun q y hy hyw => ?_⟩
      exact hnone q y (hcur q y (hnames ▸ hy) hyw).2 hyw
    coming := fun t ht => (n.coming t ht).imp hkept
    holding := fun e he => (n.holding e he).imp hkept}

/-- A block that waits is freed. -/
theorem Names.free (n : Names w) {x : IdPriv} (hx : w.ids p = some x) (hwait : x.waiting ≠ none)
    (hunused : Unused w (.id p)) : Names (setId w p none) := by
  have hof : ∀ q, q ≠ p → (setId w p none).ids q = w.ids q := fun q hq => Function.update_of_ne hq _ _
  have hself : (setId w p none).ids p = none := Function.update_self _ _ _
  have hback : ∀ q y, (setId w p none).ids q = some y → w.ids q = some y := by
    intro q y hy
    rwa [hof q (by rintro rfl; simp [hself] at hy)] at hy
  have hcur : ∀ q y, w.ids q = some y → y.waiting = none → (setId w p none).ids q = some y := by
    intro q y hy hyw
    refine (hof q ?_).trans hy
    rintro rfl
    obtain rfl := Option.some.inj (hx.symm.trans hy)
    exact hwait hyw
  exact {n with
    ids_zero := by
      rw [hof 0 (by rintro rfl; simp [n.ids_zero] at hx)]
      exact n.ids_zero
    current := fun q y hy hyw => n.current q y (hback q y hy) hyw
    alone := fun q y r z hy hz => n.alone q y r z (hback q y hy) (hback r z hz)
    owner := fun h c hc huid => by
      obtain ⟨y,hy,hyh,hyw⟩ := n.owner h c hc huid
      exact ⟨y,hcur _ y hy hyw,hyh,hyw⟩
    group := fun k g hg => by
      obtain ⟨y,z,hy,hyh,hyw,hz,hzh,hzw⟩ := n.group k g hg
      exact ⟨y,z,hy,hyh,hyw,hcur _ z hz hzw,hzh,hzw⟩
    offered := fun t ht hreq => by
      obtain ⟨hc,hnone⟩ := n.offered t ht hreq
      exact ⟨hc,fun q y hy => hnone q y (hback q y hy)⟩
    coming := fun t ht => by
      obtain ⟨hne,hr⟩ := n.coming t ht
      have hno := hunused.1 t ht
      refine ⟨hne,?_⟩
      rw [respNames] at hno
      by_cases hkind : t.2.event.isMulticast = true
      · rw [if_pos hkind] at hr hno ⊢
        obtain ⟨y,z,hy,hz⟩ := hr
        rw [hy] at hno
        exact ⟨y,z,hy,(hof _ (by simpa using hno)).trans hz⟩
      · rw [if_neg hkind] at hr hno ⊢
        obtain ⟨z,hz⟩ := hr
        exact ⟨z,(hof _ (by simpa using hno)).trans hz⟩
    holding := fun e he => by
      obtain ⟨⟨z,hz⟩,hmc⟩ := n.holding e he
      have hno := hunused.2 e he
      exact ⟨⟨z,(hof _ (by simpa [evtNames] using hno)).trans hz⟩,hmc⟩}

/-! ## Multicast groups -/

theorem Names.join (n : Names w) {x : IdPriv} (hx : w.ids p = some x) (hwait : x.waiting = none)
    (hfresh : Fresh w m) (hk : w.groups k = none) : Names (join w p m k x) := by
  obtain ⟨hne,-,hmcs⟩ := hfresh
  have hof : ∀ b, b ≠ m → (CmEvents.join w p m k x).mcs b = w.mcs b := fun b hb => Function.update_of_ne hb _ _
  have hself : (CmEvents.join w p m k x).mcs m = some ⟨p,k,0,none⟩ := Function.update_self _ _ _
  have hold : ∀ b y, w.mcs b = some y → (CmEvents.join w p m k x).mcs b = some y := by
    intro b y hy
    rw [hof b (by rintro rfl; simp [hmcs] at hy),hy]
  have hgroup : ∀ a, a ≠ k → (CmEvents.join w p m k x).groups a = w.groups a :=
    fun a ha => Function.update_of_ne ha _ _
  have hkept : Kept w (CmEvents.join w p m k x) := ⟨fun q y hy => ⟨y,hy⟩,fun b y hy => ⟨y,hold b y hy,rfl⟩⟩
  exact {n with
    mcs_zero := (hof 0 hne.symm).trans n.mcs_zero
    group := fun a g hg => by
      by_cases ha : a = k
      · subst ha
        obtain rfl := Option.some.inj ((Function.update_self a _ w.groups).symm.trans hg)
        exact ⟨_,x,hself,rfl,rfl,hx,rfl,hwait⟩
      · obtain ⟨y,z,hy,hyh,hyw,hz,hzh,hzw⟩ := n.group a g ((hgroup a ha).symm.trans hg)
        exact ⟨y,z,hold _ y hy,hyh,hyw,hz,hzh,hzw⟩
    queued := fun ch q hq => by
      have hq := n.queued ch q hq
      rw [Named] at hq ⊢
      cases hmc : q.mc with
      | none =>
        rw [hmc] at hq
        exact hq
      | some a =>
        rw [hmc] at hq
        obtain ⟨hkind,g,hg,hctx,huid⟩ := hq
        exact ⟨hkind,g,(hgroup a (by rintro rfl; simp [hk] at hg)).trans hg,hctx,huid⟩
    coming := fun t ht => (n.coming t ht).imp hkept
    holding := fun e he => (n.holding e he).imp hkept}

theorem Names.leave (n : Names w) {y : Multicast} (hy : w.mcs m = some y) (g : McCtx) :
    Names (rdmaLeaveMulticast w m y g) := by
  have hof : ∀ b, b ≠ m → (rdmaLeaveMulticast w m y g).mcs b = w.mcs b :=
    fun b hb => Function.update_of_ne hb _ _
  have hself : (rdmaLeaveMulticast w m y g).mcs m = some {y with waiting := some g.reported} :=
    Function.update_self _ _ _
  have hgroup : ∀ a d, (rdmaLeaveMulticast w m y g).groups a = some d ↔
      a ≠ y.handle ∧ w.groups a = some d := by
    intro a d
    show Function.update w.groups y.handle none a = some d ↔ _
    by_cases ha : a = y.handle
    · simp [ha]
    · simp [ha]
  have hkept : Kept w (rdmaLeaveMulticast w m y g) := by
    refine ⟨fun q x hx => ⟨x,hx⟩,fun b z hz => ?_⟩
    by_cases hb : b = m
    · subst hb
      obtain rfl := Option.some.inj (hy.symm.trans hz)
      exact ⟨_,hself,rfl⟩
    · exact ⟨z,(hof b hb).trans hz,rfl⟩
  exact {n with
    mcs_zero := (hof 0 (by rintro rfl; simp [n.mcs_zero] at hy)).trans n.mcs_zero
    group := fun a d hd => by
      obtain ⟨ha,hd⟩ := (hgroup a d).mp hd
      obtain ⟨z,x,hz,hzh,hzw,hx,hxh,hxw⟩ := n.group a d hd
      refine ⟨z,x,(hof _ ?_).trans hz,hzh,hzw,hx,hxh,hxw⟩
      intro hb
      rw [hb] at hz
      obtain rfl := Option.some.inj (hy.symm.trans hz)
      exact ha hzh.symm
    queued := fun ch q hq => by
      obtain ⟨hq,hne⟩ := List.mem_filter.mp hq
      have hq := n.queued ch q hq
      rw [Named] at hq ⊢
      cases hmc : q.mc with
      | none =>
        rw [hmc] at hq
        exact hq
      | some a =>
        rw [hmc] at hq hne
        obtain ⟨hkind,d,hd,hctx,hduid⟩ := hq
        exact ⟨hkind,d,(hgroup a d).mpr ⟨by simpa using hne,hd⟩,hctx,hduid⟩
    coming := fun t ht => (n.coming t ht).imp hkept
    holding := fun e he => (n.holding e he).imp hkept}

theorem Names.freeMc (n : Names w) {y : Multicast} (hy : w.mcs m = some y) (hwait : y.waiting ≠ none)
    (hunused : Unused w (.mc m)) : Names (setMc w m none) := by
  have hof : ∀ b, b ≠ m → (setMc w m none).mcs b = w.mcs b := fun b hb => Function.update_of_ne hb _ _
  exact {n with
    mcs_zero := (hof 0 (by rintro rfl; simp [n.mcs_zero] at hy)).trans n.mcs_zero
    group := fun a g hg => by
      obtain ⟨z,x,hz,hzh,hzw,hx,hxh,hxw⟩ := n.group a g hg
      refine ⟨z,x,(hof _ ?_).trans hz,hzh,hzw,hx,hxh,hxw⟩
      intro hb
      rw [hb] at hz
      obtain rfl := Option.some.inj (hy.symm.trans hz)
      exact hwait hzw
    coming := fun t ht => by
      obtain ⟨hne,hr⟩ := n.coming t ht
      have hno := hunused.1 t ht
      refine ⟨hne,?_⟩
      by_cases hkind : t.2.event.isMulticast = true
      · rw [if_pos hkind] at hr ⊢
        obtain ⟨z,x,hz,hx⟩ := hr
        exact ⟨z,x,(hof _ (by simpa [respNames,hkind] using hno)).trans hz,hx⟩
      · rw [if_neg hkind] at hr ⊢
        exact hr
    holding := fun e he => by
      obtain ⟨hx,hmc⟩ := n.holding e he
      have hno := hunused.2 e he
      refine ⟨hx,fun b hb => ?_⟩
      obtain ⟨z,hz,hid⟩ := hmc b hb
      refine ⟨z,(hof b ?_).trans hz,hid⟩
      rintro rfl
      simp [evtNames,hb] at hno}

/-- The channel of an identifier changes. -/
theorem same_migrate {x : IdPriv} {c : Ctx} (hx : w.ids p = some x) (hc : w.ctxs x.handle = some c)
    (ch : ℕ) : Same w (rdmaMigrateId w p ch x c) where
  ids := (Same.setId (y := {x with channel := ch}) hx rfl rfl).ids
  mcs _ := rfl
  ctxs h := by
    show (Function.update w.ctxs x.handle (some {c with chan := ch}) h).map _ = _
    by_cases hh : h = x.handle
    · rw [hh,Function.update_self,hc]
      rfl
    · rw [Function.update_of_ne hh]
  groups _ := rfl
  queue a q hq := by
    simp only [rdmaMigrateId] at hq
    by_cases hsame : ch = c.chan
    · rw [if_pos hsame] at hq
      exact ⟨a,hq⟩
    rw [if_neg hsame] at hq
    by_cases ha : a = ch
    · rw [ha,Function.update_self] at hq
      rcases List.mem_append.mp hq with hq | hq
      · exact ⟨ch,hq⟩
      · exact ⟨c.chan,(List.mem_filter.mp hq).1⟩
    · rw [Function.update_of_ne ha] at hq
      by_cases hb : a = c.chan
      · rw [hb,Function.update_self] at hq
        exact ⟨c.chan,(List.mem_filter.mp hq).1⟩
      · rw [Function.update_of_ne hb] at hq
        exact ⟨a,hq⟩
  transit := List.Sublist.refl _
  held _ he := he

end FreeFlow.CmEvents
