import FreeFlow.CmCalls
import Mathlib.Logic.Function.Basic

/-!
# Failures of the connection manager

A failed response reaches the caller if the call returns a failure and leaves the
same behind whatever data came with the response. Only the two bind requests look
at `ret_errno`. Behind the other requests a call returns zero, or what its next
step returns: a query, or the wait of a synchronous id for an event, which does not
come for a request that failed in the kernel.
-/

set_option autoImplicit false

namespace FreeFlow.CmFailures

open ByteMemory CmCalls

/-- The router differs in the data of one response. -/
def SameBut (k : Kind) (router router' : Router) : Prop :=
  (router' k).retErrno = (router k).retErrno ∧ ∀ j, j ≠ k → router' j = router j

/-- The call fails, and the data of the response is not used. -/
def Reaches (c : Call) (e : Env) (id : CmId) (router : Router) (k : Kind) : Prop :=
  (c.run e id router).Fails ∧ ∀ router', SameBut k router router' →
    c.run e id router' = c.run e id router

/-- Every failed response reaches the caller. -/
def FailuresReach (c : Call) (e : Env) (id : CmId) (router : Router) : Prop :=
  ∀ k ∈ (c.run e id router).asked, (router k).retErrno ≠ 0 → Reaches c e id router k

/-- The id waits for an event and gets a failure. -/
def EventFails (e : Env) (id : CmId) : Prop :=
  id.sync = true ∧ ∃ ret event, e.event = some (ret,event) ∧ (ret ≠ 0 ∨ event.status ≠ 0)

/-- A response names a device, the id has none, and the device is not found. -/
def DeviceMissing (e : Env) (id : CmId) (nodeGuid : ℕ) : Prop :=
  id.cmaDev = none ∧ nodeGuid ≠ 0 ∧ e.getDevice nodeGuid ≠ 0

/-- The query behind `CM_LISTEN` fails: in its own response it finds a device
that is missing or, without `af_ib_support`, paths for which there is no memory. -/
def QueryFails (e : Env) (id : CmId) (router : Router) : Prop :=
  if e.afIbSupport then DeviceMissing e id (AddrResp.nodeGuid (router .queryAddr).resp)
  else (RouteResp.paths (router .queryRoute).resp ≠ [] ∧ e.pathAllocated = false) ∨
    DeviceMissing e id (RouteResp.nodeGuid (router .queryRoute).resp)

/-- When a failed response comes out as a failure of the call. -/
def Surfaces (c : Call) (e : Env) (id : CmId) (router : Router) : Kind → Prop
  | .bindIp => True
  | .bind => 0 < (router .bind).retErrno
  | .listen => QueryFails e id router
  | .resolveIp | .resolveAddr | .resolveRoute | .connect | .disconnect => EventFails e id
  | .setOption => c = .resolveRoute ∧ EventFails e id
  | .accept => e.udQp = false ∧ EventFails e id
  | .createChannel | .createId | .initQpAttr _ | .migrateId | .queryAddr | .queryGid
  | .queryRoute => False

/-- The router with other data in one response. -/
def withResp (router : Router) (k : Kind) (resp : Resp k) : Router :=
  Function.update router k {router k with resp := resp}

theorem withResp_self (router : Router) (k : Kind) (resp : Resp k) :
    withResp router k resp k = ⟨(router k).retErrno,resp⟩ := Function.update_self ..

theorem withResp_of_ne (router : Router) (k j : Kind) (resp : Resp k) (h : j ≠ k) :
    withResp router k resp j = router j := Function.update_of_ne h ..

theorem sameBut_withResp (router : Router) (k : Kind) (resp : Resp k) :
    SameBut k router (withResp router k resp) :=
  ⟨by rw [withResp_self],fun j hj => withResp_of_ne router k j resp hj⟩

variable (c : Call) (e : Env) (id : CmId) (router : Router) (k : Kind)

/-- A response without data is determined by its `ret_errno`. -/
theorem eq_of_sameBut (k : Kind) (hk : Resp k = Unit) (router router' : Router)
    (h : SameBut k router router') : router' = router := by
  funext j
  by_cases hj : j = k
  · subst hj
    have hsub : Subsingleton (Resp j) := by
      rw [hk]
      infer_instance
    exact Reply.ext h.1 (Subsingleton.elim _ _)
  · exact h.2 j hj

theorem reaches_iff_fails (hk : Resp k = Unit) :
    Reaches c e id router k ↔ (c.run e id router).Fails :=
  ⟨And.left,fun h => ⟨h,fun router' hr => by rw [eq_of_sameBut k hk router router' hr]⟩⟩

theorem not_reaches_of_ret
    (h : (c.run e id router).ret = none ∨ (c.run e id router).ret = some 0) :
    ¬Reaches c e id router k := by
  rintro ⟨⟨v,hv,hsome⟩,-⟩
  obtain hnone | hzero := h
  · exact Option.some_ne_none v (hsome.symm.trans hnone)
  · exact hv (Option.some.inj (hsome.symm.trans hzero))

/-- A response is used by a call whose outcome tells what the response held. -/
theorem not_reaches_of_reads {α : Type} (c : Call) (e : Env) (id : CmId) (router : Router)
    (k : Kind) (read : Outcome → α) (resp : α → Resp k) (a a' : α) (ha : a ≠ a')
    (h : ∀ x router', SameBut k router router' → (router' k).resp = resp x →
      read (c.run e id router') = x) : ¬Reaches c e id router k := by
  intro hr
  have hread : ∀ x, read (c.run e id router) = x := fun x => by
    rw [← hr.2 _ (sameBut_withResp router k (resp x))]
    exact h x _ (sameBut_withResp router k (resp x)) (by rw [withResp_self])
  exact ha ((hread a).symm.trans (hread a'))

theorem eventFails_some (ret : ℤ) (event : Event) (hsync : id.sync = true)
    (hevent : e.event = some (ret,event)) : EventFails e id ↔ ret ≠ 0 ∨ event.status ≠ 0 := by
  constructor
  · rintro ⟨_,ret',event',h,hfail⟩
    obtain ⟨rfl,rfl⟩ := Prod.mk.inj (Option.some.inj (hevent.symm.trans h))
    exact hfail
  · exact fun h => ⟨hsync,ret,event,hevent,h⟩

/-- Waiting fails exactly when the event does. -/
theorem ucmaComplete_fails : (ucmaComplete e id).Fails ↔ EventFails e id := by
  cases hsync : id.sync with
  | false => simp [ucmaComplete,EventFails,hsync,fails_done]
  | true =>
    cases hevent : e.event with
    | none => simp [ucmaComplete,EventFails,Outcome.Fails,hsync,hevent]
    | some result =>
      obtain ⟨ret,event⟩ := result
      rw [eventFails_some e id ret event hsync hevent]
      by_cases hret : ret = 0
      · simp [ucmaComplete,fails_done,hsync,hevent,hret]
      · simp [ucmaComplete,fails_done,hsync,hevent,hret]

/-- A response without data on which a call waits. -/
theorem reaches_iff_eventFails (c : Call) (e : Env) (id id' : CmId) (router : Router) (k : Kind)
    (hk : Resp k = Unit) (hret : (c.run e id router).ret = (ucmaComplete e id').ret) :
    Reaches c e id router k ↔ EventFails e id' := by
  rw [reaches_iff_fails c e id router k hk,← ucmaComplete_fails,Outcome.Fails,Outcome.Fails,hret]

/-- A call that asks once and then waits. -/
theorem reaches_waiting (c : Call) (e : Env) (id id' : CmId) (router : Router) (k : Kind)
    (hk : Resp k = Unit) (hrun : c.run e id router = ask k (ucmaComplete e id'))
    (j : Kind) (hj : j ∈ (c.run e id router).asked) :
    j = k ∧ (Reaches c e id router j ↔ EventFails e id') := by
  have hjk : j = k := by
    rw [hrun,ask,ucmaComplete_asked] at hj
    exact List.mem_singleton.mp hj
  subst hjk
  exact ⟨rfl,reaches_iff_eventFails c e id id' router j hk (by rw [hrun]; rfl)⟩

theorem fails_ask (k : Kind) (o : Outcome) : (ask k o).Fails ↔ o.Fails := Iff.rfl

theorem ucmaQueryAddr_fails : (ucmaQueryAddr e id router).Fails ↔
    DeviceMissing e id (AddrResp.nodeGuid (router .queryAddr).resp) := by
  simp only [ucmaQueryAddr,fails_ask,DeviceMissing]
  split
  · split <;> simp_all [fails_done]
  · simp_all [fails_done]

theorem ucmaQueryRoute_fails : (ucmaQueryRoute e id router).Fails ↔
    (RouteResp.paths (router .queryRoute).resp ≠ [] ∧ e.pathAllocated = false) ∨
      DeviceMissing e id (RouteResp.nodeGuid (router .queryRoute).resp) := by
  simp only [ucmaQueryRoute,fails_ask,DeviceMissing]
  split
  · next hpaths => exact iff_of_true ((fails_done _ _).mpr (by decide)) (.inl hpaths)
  · next hpaths =>
    rw [or_iff_right hpaths]
    split
    · split <;> simp_all [fails_done]
    · simp_all [fails_done]

theorem listenQuery_fails : (listenQuery e id router).Fails ↔ QueryFails e id router := by
  unfold listenQuery QueryFails
  split
  · exact ucmaQueryAddr_fails e id router
  · exact ucmaQueryRoute_fails e id router

theorem not_reaches_queryAddr
    (h : ∀ b router', SameBut .queryAddr router router' → (router' .queryAddr).resp = addrResp b →
      (c.run e id router').id.srcAddr 0 = b) : ¬Reaches c e id router .queryAddr :=
  not_reaches_of_reads c e id router .queryAddr (fun o => o.id.srcAddr 0) addrResp 0 1
    (by decide) h

theorem not_reaches_queryRoute
    (h : ∀ b router', SameBut .queryRoute router router' →
      (router' .queryRoute).resp = routeResp b → (c.run e id router').id.srcAddr 0 = b) :
    ¬Reaches c e id router .queryRoute :=
  not_reaches_of_reads c e id router .queryRoute (fun o => o.id.srcAddr 0) routeResp 0 1
    (by decide) h

theorem rdmaListen_reaches (hk : k ∈ (Call.listen.run e id router).asked) :
    Reaches .listen e id router k ↔ Surfaces .listen e id router k := by
  have hrun : ∀ router', Call.listen.run e id router' = ask .listen (listenQuery e id router') :=
    fun _ => rfl
  rw [hrun,ask,listenQuery_asked] at hk
  obtain rfl | hquery := List.mem_cons.mp hk
  · rw [reaches_iff_fails .listen e id router .listen rfl]
    exact listenQuery_fails e id router
  · cases hib : e.afIbSupport with
    | true =>
      obtain rfl := List.mem_singleton.mp (hib ▸ hquery)
      refine iff_of_false (not_reaches_queryAddr _ e id router fun b router' _ hresp => ?_)
        fun h => h
      rw [hrun,ask,listenQuery,if_pos hib]
      exact (ucmaQueryAddr_uses e id router' b hresp).2
    | false =>
      obtain rfl := List.mem_singleton.mp (hib ▸ hquery)
      refine iff_of_false (not_reaches_queryRoute _ e id router fun b router' _ hresp => ?_)
        fun h => h
      rw [hrun,ask,listenQuery,if_neg (ne_true_of_eq_false hib)]
      exact ucmaQueryRoute_uses e id router' b hresp

theorem rdmaBindAddr2_reaches (e : Env) (addr : Sockaddr) (id : CmId) (router : Router) (k : Kind)
    (hrun : ∀ router', (Call.bindAddr addr).run e id router' = rdmaBindAddr2 e id router')
    (hk : k ∈ ((Call.bindAddr addr).run e id router).asked) (hret : (router k).retErrno ≠ 0) :
    Reaches (.bindAddr addr) e id router k ↔ Surfaces (.bindAddr addr) e id router k := by
  by_cases hbind : (router .bind).retErrno = 0
  · have hbound : ∀ router', (router' .bind).retErrno = 0 →
        (Call.bindAddr addr).run e id router' = ask .bind (bindQuery e id router') := by
      intro router' h
      rw [hrun,rdmaBindAddr2,if_neg (not_not.mpr h)]
    rw [hbound router hbind] at hk
    obtain rfl | hquery := List.mem_cons.mp hk
    · exact absurd hbind hret
    · obtain rfl | ⟨rfl,haddr⟩ := mem_bindQuery_asked e id router k hquery
      · refine iff_of_false (not_reaches_queryAddr _ e id router fun b router' hsame hresp => ?_)
          fun h => h
        rw [hbound router' (by rw [hsame.2 .bind (by decide),hbind])]
        exact bindQuery_uses_addr e id router' b hresp
      · refine iff_of_false (not_reaches_of_reads _ e id router .queryGid (fun o => o.id.sgid)
          (fun gid => (⟨gid,0⟩ : GidResp)) 0 1 (by decide) fun gid router' hsame hresp => ?_)
            fun h => h
        have hsent : ucmaQueryAddr e id router' = ucmaQueryAddr e id router := by
          rw [ucmaQueryAddr,hsame.2 .queryAddr (by decide)]
          rfl
        rw [hbound router' (by rw [hsame.2 .bind (by decide),hbind]),ask,
          bindQuery_uses_gid e id router' (hsent ▸ haddr),hresp]
  · have hfailed : (Call.bindAddr addr).run e id router =
        ask .bind (done (if 0 ≤ (router .bind).retErrno then 1 else 0) id) := by
      rw [hrun,rdmaBindAddr2,if_pos hbind]
    rw [hfailed] at hk
    obtain rfl := List.mem_singleton.mp hk
    rw [reaches_iff_fails _ e id router .bind rfl,hfailed,
      fails_ask,fails_done]
    by_cases hpos : 0 ≤ (router .bind).retErrno
    · rw [if_pos hpos]
      exact iff_of_true (by decide) (by unfold Surfaces; omega)
    · rw [if_neg hpos]
      exact iff_of_false (by decide) (by unfold Surfaces; omega)

theorem rdmaBindAddr_reaches (e : Env) (addr : Sockaddr) (id : CmId) (router : Router) (k : Kind)
    (hk : k ∈ ((Call.bindAddr addr).run e id router).asked) (hret : (router k).retErrno ≠ 0) :
    Reaches (.bindAddr addr) e id router k ↔ Surfaces (.bindAddr addr) e id router k := by
  have hrun : ∀ router', (Call.bindAddr addr).run e id router' = rdmaBindAddr e addr id router' :=
    fun _ => rfl
  by_cases hlen : ucmaAddrlen e addr = 0
  · rw [hrun,rdmaBindAddr,if_pos hlen] at hk
    exact absurd hk List.not_mem_nil
  · cases hib : e.afIbSupport with
    | true =>
      refine rdmaBindAddr2_reaches e addr id router k (fun router' => ?_) hk hret
      rw [hrun,rdmaBindAddr,if_neg hlen,if_pos hib]
    | false =>
      have hip : ∀ router', (Call.bindAddr addr).run e id router' = ask .bindIp
          (if (router' .bindIp).retErrno ≠ 0 then done (router' .bindIp).retErrno id
            else ucmaQueryRoute e id router') := by
        intro router'
        rw [hrun,rdmaBindAddr,if_neg hlen,if_neg (ne_true_of_eq_false hib)]
      by_cases hbind : (router .bindIp).retErrno = 0
      · rw [hip,if_neg (not_not.mpr hbind),ask,ucmaQueryRoute_asked] at hk
        obtain rfl | hquery := List.mem_cons.mp hk
        · exact absurd hbind hret
        · obtain rfl := List.mem_singleton.mp hquery
          refine iff_of_false (not_reaches_queryRoute _ e id router fun b router' hsame hresp => ?_)
            fun h => h
          rw [hip,hsame.2 .bindIp (by decide),if_neg (not_not.mpr hbind)]
          exact ucmaQueryRoute_uses e id router' b hresp
      · rw [hip,if_pos hbind] at hk
        obtain rfl := List.mem_singleton.mp hk
        rw [reaches_iff_fails _ e id router .bindIp rfl,hip,
          if_pos hbind,fails_ask,fails_done]
        exact iff_of_true hbind trivial

theorem rdmaResolveRoute_reaches (hk : k ∈ (Call.resolveRoute.run e id router).asked) :
    Reaches .resolveRoute e id router k ↔ Surfaces .resolveRoute e id router k := by
  obtain hroute | hroute := rdmaResolveRoute_cases e id
  · obtain ⟨rfl,h⟩ := reaches_waiting .resolveRoute e id id router .setOption
      rfl hroute k hk
    exact h.trans (and_iff_right rfl).symm
  · obtain ⟨rfl,h⟩ := reaches_waiting .resolveRoute e id id router .resolveRoute
      rfl hroute k hk
    exact h

theorem rdmaResolveAddr_reaches (e : Env) (src : Option Sockaddr) (dst : Sockaddr) (id : CmId)
    (router : Router) (k : Kind) (hk : k ∈ ((Call.resolveAddr src dst).run e id router).asked) :
    Reaches (.resolveAddr src dst) e id router k ↔
      Surfaces (.resolveAddr src dst) e id router k := by
  obtain hnone | ⟨addr,hrun⟩ := rdmaResolveAddr_cases e src dst id
  · exact absurd (hnone ▸ hk) List.not_mem_nil
  · cases hib : e.afIbSupport with
    | true =>
      rw [if_pos hib] at hrun
      obtain ⟨rfl,h⟩ := reaches_waiting (.resolveAddr src dst) e id _ router .resolveAddr
        rfl hrun k hk
      exact h
    | false =>
      rw [if_neg (ne_true_of_eq_false hib)] at hrun
      obtain ⟨rfl,h⟩ := reaches_waiting (.resolveAddr src dst) e id _ router .resolveIp
        rfl hrun k hk
      exact h

/-- A call that needs a channel, and with one returns zero or never returns. -/
theorem not_reaches_opened (c : Call) (e : Env) (id : CmId) (channel : Option ℤ)
    (router : Router) (k : Kind) (hk : k ∈ (c.run e id router).asked)
    (hclosed : (openChannel e channel router).1 = none →
      (c.run e id router).asked = (openChannel e channel router).2)
    (hopened : ∀ router' fd, (openChannel e channel router').1 = some fd →
      (c.run e id router').id.channel = fd ∧
        ((c.run e id router').ret = none ∨ (c.run e id router').ret = some 0)) :
    ¬Reaches c e id router k := by
  cases hopen : (openChannel e channel router).1 with
  | some fd => exact not_reaches_of_ret c e id router k (hopened router fd hopen).2
  | none =>
    rw [hclosed hopen] at hk
    obtain ⟨rfl,huses⟩ := openChannel_uses e channel router k hk
    refine not_reaches_of_reads c e id router .createChannel (fun o => o.id.channel.toNat)
      (fun x : ℕ => (x : ℤ)) 0 1 (by decide) fun x router' _ hresp => ?_
    rw [(hopened router' x (by rw [huses x router' hresp])).1]
    exact Int.toNat_natCast x

theorem rdmaCreateId_reaches (e : Env) (channel : Option ℤ) (id : CmId) (router : Router)
    (k : Kind) (hk : k ∈ ((Call.createId channel).run e id router).asked) :
    (k = .createChannel ∨ k = .createId) ∧ ¬Reaches (.createId channel) e id router k := by
  by_cases hinit : e.ucmaInit = 0
  · by_cases halloc : e.allocated = false
    · simp [Call.run,rdmaCreateId,hinit,halloc,done] at hk
    · have hclosed : (openChannel e channel router).1 = none →
          ((Call.createId channel).run e id router).asked = (openChannel e channel router).2 :=
        fun hopen => by simp [Call.run,rdmaCreateId,hinit,halloc,hopen]
      have hopened : ∀ router' fd, (openChannel e channel router').1 = some fd →
          (Call.createId channel).run e id router' = ⟨some 0,{id with
            handle := (router' .createId).resp, registered := true, channel := fd,
            sync := channel.isNone},(openChannel e channel router').2++[.createId],[]⟩ :=
        fun router' fd hopen => by simp [Call.run,rdmaCreateId,hinit,halloc,hopen]
      refine ⟨?_,not_reaches_opened _ e id channel router k hk hclosed fun router' fd hopen => ?_⟩
      · cases hopen : (openChannel e channel router).1 with
        | none => exact .inl (openChannel_uses e channel router k (hclosed hopen ▸ hk)).1
        | some fd =>
          rw [hopened router fd hopen] at hk
          obtain hchannel | hid := List.mem_append.mp hk
          · exact .inl (openChannel_uses e channel router k hchannel).1
          · exact .inr (List.mem_singleton.mp hid)
      · rw [hopened router' fd hopen]
        exact ⟨rfl,.inr rfl⟩
  · simp [Call.run,rdmaCreateId,hinit,done] at hk

theorem rdmaMigrateId_reaches (e : Env) (channel : Option ℤ) (id : CmId) (router : Router)
    (k : Kind) (hk : k ∈ ((Call.migrateId channel).run e id router).asked) :
    (k = .createChannel ∨ k = .migrateId) ∧ ¬Reaches (.migrateId channel) e id router k := by
  by_cases hsync : id.sync = true ∧ channel = none
  · simp [Call.run,rdmaMigrateId,hsync,done] at hk
  · have hclosed : (openChannel e channel router).1 = none →
        ((Call.migrateId channel).run e id router).asked = (openChannel e channel router).2 :=
      fun hopen => by simp [Call.run,rdmaMigrateId,hsync,hopen]
    have hopened : ∀ router' fd, (openChannel e channel router').1 = some fd →
        ∃ ret,(ret = none ∨ ret = some 0) ∧ (Call.migrateId channel).run e id router' =
          ⟨ret,{id with channel := fd, sync := channel.isNone,
                        event := if id.sync then none else id.event},
            (openChannel e channel router').2++
              .migrateId::(if id.sync then [.createChannel] else []),[]⟩ := by
      intro router' fd hopen
      refine ⟨_,?_,by simp [Call.run,rdmaMigrateId,hsync,hopen]; rfl⟩
      split
      · exact .inl rfl
      · exact .inr rfl
    refine ⟨?_,not_reaches_opened _ e id channel router k hk hclosed fun router' fd hopen => ?_⟩
    · cases hopen : (openChannel e channel router).1 with
      | none => exact .inl (openChannel_uses e channel router k (hclosed hopen ▸ hk)).1
      | some fd =>
        obtain ⟨ret,-,hrun⟩ := hopened router fd hopen
        rw [hrun] at hk
        obtain hchannel | hid := List.mem_append.mp hk
        · exact .inl (openChannel_uses e channel router k hchannel).1
        · obtain hmigrate | hold := List.mem_cons.mp hid
          · exact .inr hmigrate
          · split at hold
            · exact .inl (List.mem_singleton.mp hold)
            · exact absurd hold List.not_mem_nil
    · obtain ⟨ret,hret,hrun⟩ := hopened router' fd hopen
      rw [hrun]
      exact ⟨rfl,hret⟩

theorem not_reaches_initQpAttr (state : QpState)
    (hrun : ∀ router', rdmaAccept e id router' =
      through e router' (fun id => ask .accept (ucmaComplete e id)) [.init,.rtr,.rts] id)
    (hk : .initQpAttr state ∈ (rdmaAccept e id router).asked) :
    ¬Reaches .accept e id router (.initQpAttr state) := by
  refine not_reaches_of_reads .accept e id router (.initQpAttr state)
    (fun o => ((o.modified.lookup state).map QpAttr.others).getD [])
    (fun others => (⟨0,0,0,others⟩ : QpAttr)) [] [0] (by decide) fun others router' hsame hresp => ?_
  have hlast : ∀ id, Kind.initQpAttr state ∉ (ask .accept (ucmaComplete e id)).asked := by
    intro id hmem
    rw [ask,ucmaComplete_asked] at hmem
    exact absurd (List.mem_singleton.mp hmem) (by simp)
  have hattr : ∀ t, t ≠ state → qpAttr e router' t = qpAttr e router t := by
    intro t ht
    rw [qpAttr,hsame.2 _ fun h => ht (Kind.initQpAttr.inj h)]
    rfl
  have huses := through_uses e router _ router' state hlast hattr [.init,.rtr,.rts] id
    (hrun router ▸ hk)
  have hlookup : (Call.accept.run e id router').modified.lookup state =
      some (qpAttr e router' state) :=
    (congrArg (fun o => o.modified.lookup state) (hrun router')).trans huses
  rw [hlookup,Option.map_some,Option.getD_some]
  exact (adjusted_others e state _).trans (congrArg QpAttr.others hresp)

theorem rdmaAccept_reaches (hk : k ∈ (Call.accept.run e id router).asked) :
    Reaches .accept e id router k ↔ Surfaces .accept e id router k := by
  have hcall : Call.accept.run e id router = rdmaAccept e id router := rfl
  by_cases hvalid : e.validParam = 0
  · cases hud : e.udQp with
    | true =>
      have hrun : Call.accept.run e id router = ask .accept (done 0 id) := by
        rw [hcall,rdmaAccept,if_neg (not_not.mpr hvalid),if_pos hud]
      rw [hrun] at hk
      obtain rfl := List.mem_singleton.mp hk
      refine iff_of_false (not_reaches_of_ret _ e id router _ (.inr (by rw [hrun]; rfl))) ?_
      exact fun h => absurd (hud.symm.trans h.1) (by decide)
    | false =>
      cases hqp : e.hasQp with
      | false =>
        have hnone : (Call.accept.run e id router).asked = [] := by
          rw [hcall,rdmaAccept,if_neg (not_not.mpr hvalid),if_neg (ne_true_of_eq_false hud),
            ucmaModifyQpRtr,if_pos hqp]
          rfl
        exact absurd (hnone ▸ hk) List.not_mem_nil
      | true =>
        have hrun := fun router' => rdmaAccept_eq e id router' hvalid hud hqp
        have hmem := hk
        rw [hcall,hrun router] at hmem
        obtain ⟨state,rfl⟩ | ⟨haccept,hret⟩ := mem_through_asked e router _ _ id k hmem
        · exact iff_of_false (not_reaches_initQpAttr e id router state hrun hk) fun h => h
        · rw [ask,ucmaComplete_asked] at haccept
          obtain rfl := List.mem_singleton.mp haccept
          rw [reaches_iff_eventFails .accept e id id router .accept
            rfl (by rw [hcall,hrun router,hret]; rfl)]
          exact (and_iff_right hud).symm
  · have hnone : (Call.accept.run e id router).asked = [] := by
      rw [hcall,rdmaAccept,if_pos hvalid]
      rfl
    exact absurd (hnone ▸ hk) List.not_mem_nil

/-- A failed response reaches the caller exactly when it surfaces. -/
theorem reaches_iff_surfaces (hk : k ∈ (c.run e id router).asked)
    (hret : (router k).retErrno ≠ 0) :
    Reaches c e id router k ↔ Surfaces c e id router k := by
  cases c with
  | createId channel =>
    obtain ⟨rfl | rfl,h⟩ := rdmaCreateId_reaches e channel id router k hk
    · exact iff_of_false h fun hs => hs
    · exact iff_of_false h fun hs => hs
  | bindAddr addr => exact rdmaBindAddr_reaches e addr id router k hk hret
  | listen => exact rdmaListen_reaches e id router k hk
  | resolveAddr src dst => exact rdmaResolveAddr_reaches e src dst id router k hk
  | resolveRoute => exact rdmaResolveRoute_reaches e id router k hk
  | connect =>
    obtain hnone | hrun := rdmaConnect_cases e id
    · exact absurd (hnone ▸ hk) List.not_mem_nil
    · obtain ⟨rfl,h⟩ := reaches_waiting .connect e id id router .connect
        rfl hrun k hk
      exact h
  | accept => exact rdmaAccept_reaches e id router k hk
  | disconnect =>
    obtain hnone | hrun := rdmaDisconnect_cases e id
    · exact absurd (hnone ▸ hk) List.not_mem_nil
    · obtain ⟨rfl,h⟩ := reaches_waiting .disconnect e id id router .disconnect
        rfl hrun k hk
      exact h
  | setOption =>
    obtain rfl := List.mem_singleton.mp hk
    exact iff_of_false (not_reaches_of_ret .setOption e id router _ (.inr rfl))
      fun hs => absurd hs.1 (by simp)
  | migrateId channel =>
    obtain ⟨rfl | rfl,h⟩ := rdmaMigrateId_reaches e channel id router k hk
    · exact iff_of_false h fun hs => hs
    · exact iff_of_false h fun hs => hs

/-- The failures of a call reach the caller exactly when each failed response it got
surfaces. -/
theorem failuresReach_iff (c : Call) (e : Env) (id : CmId) (router : Router) :
    FailuresReach c e id router ↔ ∀ k ∈ (c.run e id router).asked, (router k).retErrno ≠ 0 →
      Surfaces c e id router k := by
  constructor
  · exact fun h k hk hret => (reaches_iff_surfaces c e id router k hk hret).mp (h k hk hret)
  · exact fun h k hk hret => (reaches_iff_surfaces c e id router k hk hret).mpr (h k hk hret)

/-- Every request failed in the kernel. -/
def refused : Router := fun k =>
  match k with
  | .createChannel => ⟨-1,(3 : ℤ)⟩
  | .createId => ⟨-1,(0 : ℕ)⟩
  | .migrateId => ⟨-1,(0 : ℕ)⟩
  | .initQpAttr _ => ⟨-1,(⟨0,0,0,[]⟩ : QpAttr)⟩
  | .queryAddr => ⟨-1,(⟨[],[],0,0,0⟩ : AddrResp)⟩
  | .queryGid => ⟨-1,(⟨0,0⟩ : GidResp)⟩
  | .queryRoute => ⟨-1,(⟨[],0,0,0,[],[],0,0⟩ : RouteResp)⟩
  | .bindIp | .bind | .listen | .resolveIp | .resolveAddr | .resolveRoute | .connect | .accept
  | .disconnect | .setOption => ⟨-1,()⟩

def kernel : Env :=
  { afIbSupport := true, ucmaInit := 0, allocated := true, channelAllocated := true,
    pathAllocated := true, getDevice := fun _ => 0, validParam := 0, hasQp := true, udQp := false,
    responderResources := 1, initiatorDepth := 1, linkInfiniband := true,
    modifyQp := fun _ _ => 0, shutdown := 0, event := none, transportIb := false,
    getaddrinfo := 0, routeLen := 0, eventsCompleted := 0 }

def freshId (sync : Bool) : CmId :=
  { handle := 0, registered := false, channel := 3, sync := sync, event := none,
    srcAddr := fun _ => 0, dstAddr := fun _ => 0, sgid := 0, dgid := 0, pkey := 0, paths := [],
    cmaDev := none, portNum := 0 }

/-- `rdma_create_id` and `rdma_bind_addr` return zero, and `rdma_connect` on a
synchronous id waits for ever. -/
theorem refused_not_reached :
    ¬FailuresReach (.createId (some 3)) kernel (freshId false) refused ∧
      ¬FailuresReach (.bindAddr ⟨.inet,List.replicate 16 0⟩) kernel (freshId false) refused ∧
      ¬FailuresReach .connect kernel (freshId true) refused := by
  refine ⟨fun h => ?_,fun h => ?_,fun h => ?_⟩
  · obtain ⟨v,hv,hret⟩ := (h .createId (List.mem_singleton.mpr rfl) (by decide)).1
    exact hv (Option.some.inj hret).symm
  · obtain ⟨v,hv,hret⟩ := (h .bind (List.mem_singleton.mpr rfl) (by decide)).1
    exact hv (Option.some.inj hret).symm
  · obtain ⟨v,_,hret⟩ := (h .connect (List.mem_singleton.mpr rfl) (by decide)).1
    exact Option.some_ne_none v hret.symm

end FreeFlow.CmFailures
