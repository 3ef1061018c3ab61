import FreeFlow.CmEventAccounts

/-!
# When `rdma_destroy_id` returns

In a regular run a block is freed when nothing names it, and not before, so no
event is ever used after its identifier. Deliveries and acknowledgements are
enough to get there: no event is lost. A request for an event that fails
delivers the event before once more; `rdma_destroy_id` then returns while an
event still names the block, and its acknowledgement writes to freed memory.
-/

set_option autoImplicit false

namespace FreeFlow.CmEvents

open Runs

variable {w w' : World} {p m : ℕ}

/-- Whatever the order of events, acknowledgements and destructions, no block is used after it was
freed, and every event that is held or on its way names blocks that are allocated. -/
theorem events_name_live_blocks (acts : List Act) (hrun : runs started acts = some w)
    (hregular : Along CmEvents.step Regular started acts) :
    w.bad = false ∧ (∀ e ∈ w.held, Holding w e) ∧ ∀ t ∈ w.transit, Coming w t.2 := by
  have a := accounted_run hrun hregular
  exact ⟨a.live,a.names.holding,a.names.coming⟩

/-- A listener got a request and has joined a group, and is destroyed; the request is acknowledged,
the event of the group is still held. -/
def listened : List Act :=
  [.create 1 5 0,.request 5,.get 0 6,.arrive 0 ⟨some 2,0,true⟩,.join 1 3 9,.raiseMc 9 .multicastJoin 0,
    .get 0 0,.arrive 0 ⟨none,0,true⟩,.destroy 1,.ack 0]

theorem events_name_live_blocks_listened : ∃ w, runs started listened = some w ∧ w.held.length = 1 ∧
    w.bad = false ∧ (∀ e ∈ w.held, Holding w e) ∧ ∀ t ∈ w.transit, Coming w t.2 :=
  ⟨_,rfl,rfl,events_name_live_blocks listened rfl (by decide)⟩

/-! ## When the waiting calls return -/

theorem free_isSome {x : IdPriv} {n : ℕ} (hx : w.ids p = some x) (hwait : x.waiting = some n) :
    (CmEvents.step w (.free p)).isSome = true ↔ n ≤ x.completed := by
  simp [CmEvents.step,hx,hwait]

theorem freeMc_isSome {y : Multicast} {n : ℕ} (hy : w.mcs m = some y) (hwait : y.waiting = some n) :
    (CmEvents.step w (.freeMc m)).isSome = true ↔ n ≤ y.completed := by
  simp [CmEvents.step,hy,hwait]

/-- `rdma_destroy_id` and `rdma_leave_multicast` return exactly when nothing names their block. -/
theorem waiting_returns_iff (acts : List Act) (hrun : runs started acts = some w)
    (hregular : Along CmEvents.step Regular started acts) :
    (∀ p x n, w.ids p = some x → x.waiting = some n →
      ((CmEvents.step w (.free p)).isSome = true ↔ Unused w (.id p))) ∧
    ∀ m y n, w.mcs m = some y → y.waiting = some n →
      ((CmEvents.step w (.freeMc m)).isSome = true ↔ Unused w (.mc m)) := by
  have b := (accounted_run hrun hregular).balanced
  constructor
  · intro p x n hx hwait
    rw [free_isSome hx hwait]
    exact b.unused_id_iff hx hwait
  · intro m y n hy hwait
    rw [freeMc_isSome hy hwait]
    exact b.unused_mc_iff hy hwait

/-- The identifier waits for the event of its group, and can be freed when that is acknowledged. -/
theorem waiting_returns_iff_listened : ∃ w w', runs started listened = some w ∧
    (¬(CmEvents.step w (.free 1)).isSome = true) ∧ runs started (listened++[.ack 0]) = some w' ∧
    (CmEvents.step w' (.free 1)).isSome = true :=
  ⟨_,_,rfl,fun h => absurd (((waiting_returns_iff listened rfl (by decide)).1 1 _ _ rfl rfl).mp h) (by decide),
    rfl,((waiting_returns_iff (listened++[.ack 0]) rfl (by decide)).1 1 _ _ rfl rfl).mpr (by decide)⟩

/-- The answers under which `rdma_get_cm_event` allocates nothing. -/
def refused : Answers := ⟨none,0,false⟩

theorem Same.waiting (s : Same w w') (p : ℕ) :
    (w'.ids p).map IdPriv.waiting = (w.ids p).map IdPriv.waiting := by
  simpa only [Option.map_map,Function.comp_def] using congrArg (Option.map Prod.snd) (s.ids p)

/-- An arrival takes one event off the way and leaves the waiting identifiers as they are. -/
theorem arrive_measure {r : Resp} (hr : Coming w r) :
    (rdmaGetCmEvent w r refused).transit = w.transit ∧
    (rdmaGetCmEvent w r refused).held.length ≤ w.held.length+1 ∧
    ∀ p, ((rdmaGetCmEvent w r refused).ids p).map IdPriv.waiting = (w.ids p).map IdPriv.waiting := by
  have hcomplete : ∀ (u : World) (x : IdPriv), u.ids r.uid = some x →
      (ucmaCompleteEvent u r.uid).transit = u.transit ∧ (ucmaCompleteEvent u r.uid).held = u.held := by
    intro u x hx
    have hframe := ack_frame (w := u) (e := ⟨r.uid,none,r.uid,r.event,0⟩) ⟨⟨x,hx⟩,by simp⟩
    exact ⟨hframe.2.2.1,hframe.2.2.2.1⟩
  have hlive : r.event.isMulticast = false → ∃ x, w.ids r.uid = some x := by
    intro hkind
    simpa [hkind] using hr.2
  rcases get_cases hr refused with ⟨v,e,heq,-,-,hcase⟩ | ⟨hkind,heq⟩ | ⟨-,x,n,-,hans,-⟩ | ⟨hreq,heq⟩
  · rw [heq]
    rcases hcase with rfl | ⟨x,hx,rfl⟩
    · exact ⟨rfl,by simp [hold],fun _ => rfl⟩
    · have hsame := Same.setId (y := {x with connectError := true}) hx rfl rfl
      exact ⟨rfl,by simp [hold,setId],fun p => hsame.waiting p⟩
  · obtain ⟨x,hx⟩ := hlive hkind
    rw [heq,(hcomplete w x hx).1,(hcomplete w x hx).2]
    exact ⟨rfl,Nat.le_succ _,fun p => (same_completeEvent w r.uid).waiting p⟩
  · cases hans
  · obtain ⟨x,hx⟩ := hlive (by rw [hreq]; rfl)
    rw [heq,(hcomplete (destroyCtx w r.id) x hx).1,(hcomplete (destroyCtx w r.id) x hx).2]
    exact ⟨rfl,Nat.le_succ _,fun p => (same_completeEvent (destroyCtx w r.id) r.uid).waiting p⟩

/-- A delivery or an acknowledgement. -/
def Act.isDrain : Act → Bool
  | .arrive _ _ => true
  | .ack _ => true
  | _ => false

theorem Accounted.free_of_idle (a : Accounted w) {n : ℕ}
    (hwaiting : (w.ids p).map IdPriv.waiting = some (some n)) (htransit : w.transit = [])
    (hheld : w.held = []) : (CmEvents.step w (.free p)).isSome = true := by
  obtain ⟨x,hx,hwait⟩ := Option.map_eq_some_iff.mp hwaiting
  rw [free_isSome hx hwait,a.balanced.unused_id_iff hx hwait]
  exact ⟨by simp [htransit],by simp [hheld]⟩

/-- By induction on the events that are on their way or held; an arrival may turn the one into the
other. -/
theorem Accounted.drain {n : ℕ} (b : ℕ) : ∀ w, Accounted w →
    2*w.transit.length+w.held.length ≤ b → (w.ids p).map IdPriv.waiting = some (some n) →
    ∃ acts w', (∀ act ∈ acts, act.isDrain = true) ∧ runs w acts = some w' ∧
      (CmEvents.step w' (.free p)).isSome = true := by
  induction b with
  | zero =>
    intro w a hb hwaiting
    have htransit : w.transit = [] := List.eq_nil_of_length_eq_zero (by omega)
    have hheld : w.held = [] := List.eq_nil_of_length_eq_zero (by omega)
    exact ⟨[],w,by simp,rfl,a.free_of_idle hwaiting htransit hheld⟩
  | succ b ih =>
    intro w a hb hwaiting
    -- one step towards fewer events, and then the rest
    have hnext : ∀ act u, act.isDrain = true → CmEvents.step w act = some u → Regular w act →
        2*u.transit.length+u.held.length ≤ b → (u.ids p).map IdPriv.waiting = (w.ids p).map IdPriv.waiting →
        ∃ acts w', (∀ act ∈ acts, act.isDrain = true) ∧ runs w acts = some w' ∧
          (CmEvents.step w' (.free p)).isSome = true := by
      intro act u hact hst hregular hless hsame
      obtain ⟨acts,w',hacts,hrun,hfree⟩ := ih u (a.step hregular hst) hless (hsame.trans hwaiting)
      exact ⟨act::acts,w',List.forall_mem_cons.mpr ⟨hact,hacts⟩,
        (run_cons CmEvents.step w act acts w').mpr ⟨u,hst,hrun⟩,hfree⟩
    cases htransit : w.transit with
    | cons t ts =>
      have ht : w.transit[0]? = some t := by rw [htransit]; rfl
      obtain ⟨hafter,hheld,hids⟩ := arrive_measure (w := {w with transit := w.transit.eraseIdx 0})
        (a.names.coming t (List.mem_of_getElem? ht))
      refine hnext (.arrive 0 refused)
        (rdmaGetCmEvent {w with transit := w.transit.eraseIdx 0} t.2 refused) rfl ?_ trivial ?_ (hids p)
      · simp [CmEvents.step,ht,refused]
      · rw [hafter]
        simp only [htransit,List.eraseIdx_zero,List.tail_cons,List.length_cons] at hb hheld ⊢
        omega
    | nil =>
      cases hheld : w.held with
      | cons e es =>
        have he : w.held[0]? = some e := by rw [hheld]; rfl
        have hholding : Holding {w with held := w.held.eraseIdx 0} e :=
          a.names.holding e (List.mem_of_getElem? he)
        obtain ⟨-,-,htr,hhe,-⟩ := ack_frame hholding
        refine hnext (.ack 0) (rdmaAckCmEvent {w with held := w.held.eraseIdx 0} e) rfl ?_ trivial ?_
          ((same_ack {w with held := w.held.eraseIdx 0} e).waiting p)
        · rw [CmEvents.step,he,Option.map_some]
        · rw [htr,hhe]
          simp only [htransit,hheld,List.eraseIdx_zero,List.tail_cons,List.length_cons,List.length_nil] at hb ⊢
          omega
      | nil => exact ⟨[],w,by simp,rfl,a.free_of_idle hwaiting htransit hheld⟩

/-- No event is lost: after any regular run, deliveries and acknowledgements alone let a waiting
`rdma_destroy_id` return. -/
theorem destroy_can_return (acts : List Act) (hrun : runs started acts = some w)
    (hregular : Along CmEvents.step Regular started acts) {x : IdPriv} {n : ℕ}
    (hx : w.ids p = some x) (hwait : x.waiting = some n) :
    ∃ rest w', (∀ act ∈ rest, act.isDrain = true) ∧ runs w rest = some w' ∧
      (CmEvents.step w' (.free p)).isSome = true :=
  (accounted_run hrun hregular).drain _ w le_rfl (by rw [hx,Option.map_some,hwait])

theorem destroy_can_return_listened : ∃ w, runs started listened = some w ∧
    ∃ rest w', (∀ act ∈ rest, act.isDrain = true) ∧ runs w rest = some w' ∧
      (CmEvents.step w' (.free 1)).isSome = true :=
  ⟨_,rfl,destroy_can_return listened rfl (by decide) rfl rfl⟩

/-! ## A request that fails -/

/-- The client will complete one event more than the kernel has reported. The other names need not
hold: a connection request that comes twice offers one identifier twice. -/
structure Ahead (p : ℕ) (w : World) : Prop where
  coming : ∀ t ∈ w.transit, Coming w t.2
  holding : ∀ e ∈ w.held, Holding w e
  live : w.bad = false
  surplus : ∀ r c, reportedOf w (.id p) = some r → completedOf w (.id p) = some c →
    r+1 = c+outstanding w (.id p)

theorem Ahead.of_counts (a : Ahead p w) (hkept : Kept w w') (htransit : w'.transit ⊆ w.transit)
    (hheld : w'.held ⊆ w.held) (hbad : w'.bad = w.bad)
    (hcounts : ∀ r c, reportedOf w' (.id p) = some r → completedOf w' (.id p) = some c →
      reportedOf w (.id p) = some r ∧
        ∃ d, completedOf w (.id p) = some d ∧ c+outstanding w' (.id p) = d+outstanding w (.id p)) :
    Ahead p w' := by
  refine ⟨fun t ht => (a.coming t (htransit ht)).imp hkept,
    fun e he => (a.holding e (hheld he)).imp hkept,hbad.trans a.live,fun r c hr hc => ?_⟩
  obtain ⟨hr,d,hd,heq⟩ := hcounts r c hr hc
  rw [heq]
  exact a.surplus r d hr hd

theorem group_of_respNames {r : Resp} (hkind : r.event.isMulticast = true)
    (hnames : respNames w r (.id p) = true) : ∃ y, w.mcs r.uid = some y ∧ y.idPriv = p := by
  rw [respNames,if_pos hkind,decide_eq_true_eq] at hnames
  exact Option.map_eq_some_iff.mp hnames

theorem uid_of_respNames {r : Resp} (hkind : ¬r.event.isMulticast = true)
    (hnames : respNames w r (.id p) = true) : r.uid = p := by
  rwa [respNames,if_neg hkind,decide_eq_true_eq] at hnames

/-- The reply before is sent once more. -/
theorem Accounted.repeated (a : Accounted w) {x : IdPriv} (hx : w.ids p = some x) {r : Resp}
    (hnames : respNames w r (.id p) = true) (ch : ℕ) : Ahead p (reply w ch r) := by
  have hcoming : Coming w r := by
    by_cases hkind : r.event.isMulticast = true
    · obtain ⟨y,hy,hid⟩ := group_of_respNames hkind hnames
      refine ⟨?_,by rw [if_pos hkind]; exact ⟨y,x,hy,hid ▸ hx⟩⟩
      intro hzero
      rw [hzero,a.names.mcs_zero] at hy
      cases hy
    · have huid := uid_of_respNames hkind hnames
      refine ⟨?_,by rw [if_neg hkind]; exact ⟨x,huid ▸ hx⟩⟩
      intro hzero
      rw [← huid,hzero,a.names.ids_zero] at hx
      cases hx
  refine ⟨fun t ht => ?_,a.names.holding,a.live,fun n c hn hc => ?_⟩
  · rcases List.mem_append.mp ht with ht | ht
    · exact a.names.coming t ht
    · rw [List.mem_singleton.mp ht]
      exact hcoming
  · have hcount := a.balanced.counts (.id p) n c hn hc
    rw [outstanding_reply,if_pos hnames,hcount]
    omega

theorem Ahead.ack (a : Ahead p w) {i : ℕ} {e : Evt} (he : w.held[i]? = some e) :
    Ahead p (rdmaAckCmEvent {w with held := w.held.eraseIdx i} e) := by
  have hholding : Holding {w with held := w.held.eraseIdx i} e :=
    a.holding e (List.mem_of_getElem? he)
  obtain ⟨-,-,htransit,hheld,hbad⟩ := ack_frame hholding
  refine a.of_counts ((same_eraseHeld w i).trans (same_ack _ e)).kept (by rw [htransit]; exact fun _ h => h)
    (by rw [hheld]; exact List.eraseIdx_subset) hbad fun r c hr hc => ?_
  exact counts_ack hholding (fewer_eraseHeld w i) (fun o => by cases o <;> rfl)
    (outstanding_eraseHeld he) hr hc

theorem Ahead.acks {n : ℕ} (is : List ℕ) : ∀ w, Ahead p w →
    (w.ids p).map IdPriv.waiting = some (some n) → runs w (is.map Act.ack) = some w' →
    Ahead p w' ∧ (w'.ids p).map IdPriv.waiting = some (some n) := by
  induction is with
  | nil =>
    intro w a hwaiting hrun
    obtain rfl := Option.some.inj hrun
    exact ⟨a,hwaiting⟩
  | cons i is ih =>
    intro w a hwaiting hrun
    obtain ⟨u,hst,hrun⟩ := (run_cons CmEvents.step w (.ack i) (is.map Act.ack) w').mp hrun
    obtain ⟨e,he,rfl⟩ := Option.map_eq_some_iff.mp hst
    exact ih _ (a.ack he) (((same_ack {w with held := w.held.eraseIdx i} e).waiting p).trans hwaiting) hrun

/-- The acknowledgement of an event whose identifier was freed. -/
theorem bad_of_ack {i : ℕ} {e : Evt} (he : w.held[i]? = some e) (hid : w.ids e.idPriv = none)
    (hmc : ∀ m, e.mc = some m → ∃ y, w.mcs m = some y ∧ y.idPriv = e.idPriv) :
    ∃ w', CmEvents.step w (.ack i) = some w' ∧ w'.bad = true := by
  rw [CmEvents.step,he]
  refine ⟨_,rfl,?_⟩
  cases hm : e.mc with
  | none => simp [rdmaAckCmEvent,hm,ucmaCompleteEvent,hid]
  | some m =>
    obtain ⟨y,hy,hyid⟩ := hmc m hm
    simp [rdmaAckCmEvent,hm,ucmaCompleteMcEvent,hy,ucmaCompleteEvent,setMc,hyid,hid]

/-- The delivery of an event whose identifier was freed. The event of a group is held first, and its
acknowledgement goes to the identifier. -/
theorem bad_of_arrive {i : ℕ} {t : ℕ × Resp} (hi : w.transit[i]? = some t) (huid : t.2.uid ≠ 0)
    (hnames : respNames w t.2 (.id p) = true) (hgone : w.ids p = none) :
    ∃ rest v', (∀ act ∈ rest, act.isDrain = true) ∧ runs w rest = some v' ∧ v'.bad = true := by
  obtain ⟨u,hu⟩ : ∃ u, u = process {w with transit := w.transit.eraseIdx i} t.2.uid t.2 refused :=
    ⟨_,rfl⟩
  have harrive : CmEvents.step w (.arrive i refused) = some u := by
    rw [CmEvents.step,hi]
    simp [refused,rdmaGetCmEvent,huid,hu]
  by_cases hkind : t.2.event.isMulticast = true
  · obtain ⟨y,hy,hid⟩ := group_of_respNames hkind hnames
    obtain ⟨e,he,heid,hemc⟩ : ∃ e, u.held = w.held++[e] ∧ e.idPriv = p ∧ e.mc = some t.2.uid := by
      rw [hu,process,if_pos hkind]
      simp [hy,processMc,hold,hid]
    have hsame : u.ids = w.ids ∧ u.mcs = w.mcs := by
      rw [hu,process,if_pos hkind]
      simp [hy,processMc,hold]
    have hget : u.held[w.held.length]? = some e := by simp [he]
    obtain ⟨v',hv',hbad⟩ := bad_of_ack hget (by rw [hsame.1,heid,hgone]) fun m hm => by
      obtain rfl : t.2.uid = m := Option.some.inj (hemc.symm.trans hm)
      exact ⟨y,by rw [hsame.2,hy],hid.trans heid.symm⟩
    refine ⟨[.arrive i refused,.ack w.held.length],v',by simp [Act.isDrain],?_,hbad⟩
    exact (run_cons CmEvents.step w _ _ v').mpr ⟨u,harrive,
      (run_cons CmEvents.step u _ _ v').mpr ⟨v',hv',rfl⟩⟩
  · refine ⟨[.arrive i refused],u,by simp [Act.isDrain],
      (run_cons CmEvents.step w _ _ u).mpr ⟨u,harrive,rfl⟩,?_⟩
    simp [hu,process,hkind,uid_of_respNames hkind hnames,hgone]

/-- Once the identifier is freed, an event that names it is used all the same: when it is delivered,
or when it is acknowledged. -/
theorem Ahead.used_after_free (a : Ahead p w) (hpos : 0 < outstanding w (.id p)) {v : World}
    (hfree : CmEvents.step w (.free p) = some v) :
    ∃ rest v', (∀ act ∈ rest, act.isDrain = true) ∧ runs v rest = some v' ∧ v'.bad = true := by
  obtain ⟨x,-,heq⟩ := Option.bind_eq_some_iff.mp hfree
  obtain ⟨n,-,heq⟩ := Option.bind_eq_some_iff.mp heq
  obtain ⟨-,heq⟩ := Option.ite_none_right_eq_some.mp heq
  obtain rfl := Option.some.inj heq
  have hgone : (ucmaRemoveId (setId w p none) x.handle).ids p = none := Function.update_self _ _ _
  rcases Nat.add_pos_iff_pos_or_pos.mp hpos with hcount | hcount
  · obtain ⟨t,ht,hnames⟩ := List.countP_pos_iff.mp hcount
    obtain ⟨i,hi⟩ := List.mem_iff_getElem?.mp ht
    exact bad_of_arrive (w := ucmaRemoveId (setId w p none) x.handle) hi (a.coming t ht).1 hnames hgone
  · obtain ⟨e,he,hnames⟩ := List.countP_pos_iff.mp hcount
    obtain ⟨i,hi⟩ := List.mem_iff_getElem?.mp he
    have hid : e.idPriv = p := of_decide_eq_true hnames
    obtain ⟨v',hv',hbad⟩ := bad_of_ack (w := ucmaRemoveId (setId w p none) x.handle) hi (hid ▸ hgone)
      (a.holding e he).2
    exact ⟨[.ack i],v',by simp [Act.isDrain],(run_cons CmEvents.step _ _ _ v').mpr ⟨v',hv',rfl⟩,hbad⟩

/-- After a request that has failed behind an event of an identifier, `rdma_destroy_id` for that
identifier does not wait for the last acknowledgement, and the event that is left is used after the
identifier was freed. -/
theorem destroy_returns_early (acts : List Act) (hrun : runs started acts = some w)
    (hregular : Along CmEvents.step Regular started acts) {ch : ℕ} {r junk : Resp}
    (hlast : w.last ch = some r) (hnames : respNames w r (.id p) = true) {u : World}
    (hcalls : runs w [.getFail ch junk,.destroy p] = some u) (is : List ℕ)
    (hacks : runs u (is.map Act.ack) = some w') :
    ((CmEvents.step w' (.free p)).isSome = true ↔ outstanding w' (.id p) ≤ 1) ∧
      w'.bad = false ∧
      (outstanding w' (.id p) = 1 → ∃ v, CmEvents.step w' (.free p) = some v ∧
        ∃ rest v', (∀ act ∈ rest, act.isDrain = true) ∧ runs v rest = some v' ∧ v'.bad = true) := by
  have a := accounted_run hrun hregular
  obtain ⟨v,hfail,hcalls⟩ := (run_cons CmEvents.step w _ _ u).mp hcalls
  obtain ⟨u',hdestroy,hcalls⟩ := (run_cons CmEvents.step v _ _ u).mp hcalls
  obtain rfl := Option.some.inj hcalls
  obtain rfl := Option.some.inj hfail
  obtain ⟨⟨x,c⟩,hcur,rfl⟩ := Option.map_eq_some_iff.mp hdestroy
  obtain ⟨hx,hwait,hc⟩ := current_some hcur
  rw [hlast,Option.getD_some] at hx hc hacks
  have hahead := a.repeated hx hnames ch
  have hdestroyed := hahead.of_counts (kept_destroy (reply w ch r) p x c) (fun _ h => h) (fun _ h => h)
    rfl fun n d hn hd => counts_destroy hx hwait hc hn hd
  obtain ⟨hend,hwaiting⟩ := hdestroyed.acks is _
    (by rw [show (rdmaDestroyId (reply w ch r) p x c).ids p = _ from Function.update_self _ _ _]; rfl) hacks
  obtain ⟨y,hy,hyw⟩ := Option.map_eq_some_iff.mp hwaiting
  have hover := hend.surplus _ y.completed (reportedOf_id.mpr ⟨y,hy,.inl hyw⟩)
    (by rw [completedOf,hy,Option.map_some])
  have hreturns : (CmEvents.step w' (.free p)).isSome = true ↔ outstanding w' (.id p) ≤ 1 := by
    rw [free_isSome hy hyw]
    omega
  refine ⟨hreturns,hend.live,fun hone => ?_⟩
  obtain ⟨v,hv⟩ := Option.isSome_iff_exists.mp (hreturns.mpr hone.le)
  exact ⟨v,hv,hend.used_after_free (by omega) hv⟩

/-- The connection request of a listener comes twice, and the listener is destroyed; with the
acknowledgement of the first one it is freed, and the second one is taken for it. -/
theorem destroy_returns_early_repeated : ∃ w u w',
    runs started [.create 1 5 0,.request 5,.get 0 6,.arrive 0 ⟨some 2,0,true⟩] = some w ∧
    runs w [.getFail 0 ⟨0,0,.unreachable,0⟩,.destroy 1] = some u ∧
    runs u ([0].map Act.ack) = some w' ∧ outstanding w' (.id 1) = 1 ∧
    ∃ v, CmEvents.step w' (.free 1) = some v ∧
      ∃ rest v', (∀ act ∈ rest, act.isDrain = true) ∧ runs v rest = some v' ∧ v'.bad = true :=
  ⟨_,_,_,rfl,rfl,rfl,rfl,(destroy_returns_early
    [.create 1 5 0,.request 5,.get 0 6,.arrive 0 ⟨some 2,0,true⟩] rfl (by decide)
    (r := ⟨1,6,.connectRequest,0⟩) rfl (by decide) rfl [0] rfl).2.2 rfl⟩

end FreeFlow.CmEvents
