import FreeFlow.Runs
import FreeFlow.Threads
import Mathlib.Data.List.Nodup

/-!
# Announcing a mapping to every host

`IBV_REG_MR_MAPPING` sends key, base and shared-memory pointer of an MR to every
host of `HOST_LIST`, one after the other: it opens a socket, binds it to a free
port, sends one datagram, waits for one datagram on that port and closes the
socket. `UDPServer` of a host stores what it receives in `rkey_mr_shm` and answers to
the port the datagram came from. The handler looks neither at the sender nor at the
content of what it receives. When it is through, it answers its client with 0.

Several threads of the router do this at once. Datagrams are delivered in any
order or lost. Which request and which host a packet belongs to is ghost state,
and so are the logs of executed stores and of answers.
-/

set_option autoImplicit false

namespace FreeFlow.MappingBroadcast

open Runs Threads

variable {H : Type*}

/-- A request and the hosts of `HOST_LIST` in the order of the loop. -/
structure Mapping (H : Type*) where
  id : ℕ
  key : ℕ
  mrPtr : ℕ
  shmPtr : ℕ
  hosts : List H
  deriving DecidableEq

/-- A datagram from or an acknowledgement to the port of an exchange. -/
structure Packet (H : Type*) where
  port : ℕ
  mapping : Mapping H
  host : H
  ack : Bool
  deriving DecidableEq

/-- Where a handler stands: before the next host, with a socket for `h`, with
its own address, bound to a port, with the host's address, waiting. `gone` is the
`return` of a handler that got no socket. -/
inductive Pc (H : Type*)
  | idle
  | loop (q : Mapping H) (rest : List H)
  | opened (q : Mapping H) (h : H) (rest : List H)
  | ready (q : Mapping H) (h : H) (rest : List H)
  | bound (q : Mapping H) (h : H) (rest : List H) (port : ℕ)
  | addressed (q : Mapping H) (h : H) (rest : List H) (port : ℕ)
  | waiting (q : Mapping H) (h : H) (rest : List H) (port : ℕ)
  | gone

def Pc.port : Pc H → Option ℕ
  | .bound _ _ _ p => some p
  | .addressed _ _ _ p => some p
  | .waiting _ _ _ p => some p
  | _ => none

structure State (H : Type*) where
  pc : ℕ → Pc H
  ports : List ℕ
  flight : List (Packet H)
  rkeyMrShm : H → ℕ → Option (ℕ × ℕ)
  stored : H → List (Mapping H)
  answered : List (Mapping H)
  next : ℕ

def started : State H := ⟨fun _ => .idle,[],[],fun _ _ => none,fun _ => [],[],0⟩

def State.goto (s : State H) (t : ℕ) (pc : Pc H) : State H :=
  {s with pc := Function.update s.pc t pc}

inductive Event (H : Type*)
  /-- A handler reads the request; `shmPtr` is `lkey_ptr` of the key. -/
  | request (t key mrPtr shmPtr : ℕ) (hosts : List H)
  | socket (t : ℕ) (success : Bool)
  | inetAtonSelf (t : ℕ) (success : Bool)
  | bind (t : ℕ) (port : Option ℕ)
  | inetAtonHost (t : ℕ) (success : Bool)
  | sendto (t : ℕ) (success : Bool)
  /-- `recvfrom` returns the packet, or -1; then the socket is closed. -/
  | recvfrom (t : ℕ) (packet : Option (Packet H))
  | answer (t : ℕ)
  /-- `UDPServer` of the host receives the datagram, stores and answers. -/
  | udpServer (packet : Packet H) (success : Bool)
  | lose (packet : Packet H)

section Model

variable [DecidableEq H]

def store (s : State H) (p : Packet H) : State H :=
  {s with rkeyMrShm := Function.update s.rkeyMrShm p.host
            (Function.update (s.rkeyMrShm p.host) p.mapping.key
              (some (p.mapping.mrPtr,p.mapping.shmPtr)))
          stored := Function.update s.stored p.host (p.mapping::s.stored p.host)}

def step (s : State H) : Event H → Option (State H)
  | .request t key mrPtr shmPtr hosts =>
    match s.pc t with
    | .idle => some ({s with next := s.next+1}.goto t
        (.loop ⟨s.next,key,mrPtr,shmPtr,hosts⟩ hosts))
    | _ => none
  | .socket t success =>
    match s.pc t with
    | .loop q (h::rest) => some (s.goto t (if success then .opened q h rest else .gone))
    | _ => none
  | .inetAtonSelf t success =>
    match s.pc t with
    | .opened q h rest => some (s.goto t (if success then .ready q h rest else .loop q rest))
    | _ => none
  | .bind t port =>
    match s.pc t with
    | .ready q h rest =>
      match port with
      | none => some (s.goto t (.loop q rest))
      | some p =>
        if p ∈ s.ports then none
        else some ({s with ports := p::s.ports}.goto t (.bound q h rest p))
    | _ => none
  | .inetAtonHost t success =>
    match s.pc t with
    | .bound q h rest p =>
      -- `continue` leaves the socket open, so its port stays taken
      some (s.goto t (if success then .addressed q h rest p else .loop q rest))
    | _ => none
  | .sendto t success =>
    match s.pc t with
    | .addressed q h rest p =>
      some ({s with flight := if success then ⟨p,q,h,false⟩::s.flight else s.flight}.goto t
        (.waiting q h rest p))
    | _ => none
  | .recvfrom t packet =>
    match s.pc t with
    | .waiting q _ rest p =>
      match packet with
      | none => some ({s with ports := s.ports.erase p}.goto t (.loop q rest))
      | some x =>
        if x ∈ s.flight ∧ x.ack = true ∧ x.port = p then
          some ({s with flight := s.flight.erase x,ports := s.ports.erase p}.goto t (.loop q rest))
        else none
    | _ => none
  | .answer t =>
    match s.pc t with
    | .loop q [] => some ({s with answered := q::s.answered}.goto t .idle)
    | _ => none
  | .udpServer x success =>
    if x ∈ s.flight ∧ x.ack = false then
      some {store s x with flight :=
        if success then {x with ack := true}::s.flight.erase x else s.flight.erase x}
    else none
  | .lose x => some {s with flight := s.flight.erase x}

end Model

/-- Every host of an answered request has executed the store, and can translate
the key. -/
def Everywhere (s : State H) : Prop :=
  ∀ q ∈ s.answered, ∀ h ∈ q.hosts, q ∈ s.stored h ∧ (s.rkeyMrShm h q.key).isSome

/-- Binding, both address conversions and `recvfrom` succeed. -/
def Succeeds : Event H → Prop
  | .inetAtonSelf _ success => success = true
  | .bind _ port => port ≠ none
  | .inetAtonHost _ success => success = true
  | .recvfrom _ packet => packet ≠ none
  | _ => True

/-- The hosts a handler does not know to have stored. -/
def Pc.todo : Pc H → Option (Mapping H × List H)
  | .loop q rest => some (q,rest)
  | .opened q h rest => some (q,h::rest)
  | .ready q h rest => some (q,h::rest)
  | .bound q h rest _ => some (q,h::rest)
  | .addressed q h rest _ => some (q,h::rest)
  | .waiting q h rest _ => some (q,h::rest)
  | .idle => none
  | .gone => none

/-- What is stored covers the hosts a handler is through with. -/
def Covered (stored : H → List (Mapping H)) (pc : Pc H) : Prop :=
  ∀ q rest, pc.todo = some (q,rest) → ∀ h ∈ q.hosts, h ∈ rest ∨ q ∈ stored h

/-- The handler waits for the exchange of the packet. -/
def Awaits (x : Packet H) (pc : Pc H) : Prop := ∃ rest, pc = .waiting x.mapping x.host rest x.port

def Answered (s : State H) : Prop := ∀ q ∈ s.answered, ∀ h ∈ q.hosts, q ∈ s.stored h

/-- Keys of executed stores stay in the table. -/
def Translates (s : State H) : Prop := ∀ h, ∀ q ∈ s.stored h, (s.rkeyMrShm h q.key).isSome

structure Inv (s : State H) : Prop where
  answered : Answered s
  translates : Translates s
  apart : Apart Pc.port s.pc
  taken : ∀ t p, (s.pc t).port = some p → p ∈ s.ports
  single : (s.flight.map Packet.port).Nodup
  awaited : ∀ x ∈ s.flight, ∃ t, Awaits x (s.pc t)
  acked : ∀ x ∈ s.flight, x.ack = true → x.mapping ∈ s.stored x.host
  covered : ∀ t, Covered s.stored (s.pc t)

theorem inv_started : Inv (started : State H) where
  answered := by rintro q ⟨⟩
  translates := by rintro h q ⟨⟩
  apart := by rintro t t' p ⟨⟩
  taken := by rintro t p ⟨⟩
  single := List.nodup_nil
  awaited := by rintro x ⟨⟩
  acked := by rintro x ⟨⟩
  covered := by rintro t q rest ⟨⟩

section Steps

variable {s s' : State H}

theorem Awaits.port {x : Packet H} {pc : Pc H} (h : Awaits x pc) : pc.port = some x.port := by
  obtain ⟨rest,rfl⟩ := h
  rfl

theorem awaited_update {flight : List (Packet H)} {pcs : ℕ → Pc H} {t : ℕ} {pc : Pc H}
    (h : ∀ x ∈ flight, ∃ t', Awaits x (pcs t')) (ht : ∀ x ∈ flight, ¬ Awaits x (pcs t)) :
    ∀ x ∈ flight, ∃ t', Awaits x (Function.update pcs t pc t') := by
  intro x hx
  obtain ⟨t',ht'⟩ := h x hx
  have hne : t' ≠ t := by
    rintro rfl
    exact ht x hx ht'
  exact ⟨t',by rw [Function.update_of_ne hne]; exact ht'⟩

/-- A thread moves while no packet of its exchange is in flight. -/
theorem Inv.of_goto (hI : Inv s) {t : ℕ} {pc : Pc H} (ht : ∀ x ∈ s.flight, ¬ Awaits x (s.pc t))
    (hport : ∀ p, pc.port = some p → (s.pc t).port = some p) (hpc : Covered s.stored pc) :
    Inv (s.goto t pc) where
  answered := hI.answered
  translates := hI.translates
  apart := hI.apart.move hport
  taken := (Function.forall_update_iff s.pc fun _ c => ∀ p, c.port = some p → p ∈ s.ports).mpr
    ⟨fun p hp => hI.taken t p (hport p hp),fun t' _ => hI.taken t'⟩
  single := hI.single
  awaited := awaited_update hI.awaited ht
  acked := hI.acked
  covered := (Function.forall_update_iff s.pc fun _ => Covered s.stored).mpr
    ⟨hpc,fun t' _ => hI.covered t'⟩

/-- A thread outside an exchange moves. -/
theorem Inv.of_quiet (hI : Inv s) {t : ℕ} {pc : Pc H}
    (ht : ∀ q h rest p, s.pc t ≠ .waiting q h rest p)
    (hport : ∀ p, pc.port = some p → (s.pc t).port = some p) (hpc : Covered s.stored pc) :
    Inv (s.goto t pc) :=
  hI.of_goto (fun _ _ ⟨rest,h⟩ => ht _ _ rest _ h) hport hpc

theorem Covered.of_todo {stored : H → List (Mapping H)} {pc pc' : Pc H} (h : Covered stored pc)
    (htodo : pc'.todo = pc.todo) : Covered stored pc' :=
  fun q rest hq => h q rest (htodo.symm.trans hq)

/-- A thread outside an exchange goes on with the same host. -/
theorem Inv.of_next (hI : Inv s) {t : ℕ} {pc : Pc H}
    (ht : ∀ q h rest p, s.pc t ≠ .waiting q h rest p)
    (hport : ∀ p, pc.port = some p → (s.pc t).port = some p) (htodo : pc.todo = (s.pc t).todo) :
    Inv (s.goto t pc) :=
  hI.of_quiet ht hport ((hI.covered t).of_todo htodo)

/-- Packets disappear. -/
theorem Inv.of_flight (hI : Inv s) {flight : List (Packet H)} (hsub : flight.Sublist s.flight) :
    Inv {s with flight := flight} where
  answered := hI.answered
  translates := hI.translates
  apart := hI.apart
  taken := hI.taken
  single := hI.single.sublist (hsub.map _)
  awaited := fun x hx => hI.awaited x (hsub.subset hx)
  acked := fun x hx => hI.acked x (hsub.subset hx)
  covered := hI.covered

/-- The thread that waits on the port of a packet waits for its exchange. -/
theorem Inv.exchange (hI : Inv s) {t p : ℕ} {q : Mapping H} {h : H} {rest : List H}
    (ht : s.pc t = .waiting q h rest p) {x : Packet H} (hx : x ∈ s.flight) (hp : x.port = p) :
    x.mapping = q ∧ x.host = h := by
  obtain ⟨t',rest',ht'⟩ := hI.awaited x hx
  obtain rfl : t' = t := by
    refine hI.apart t' t p ?_ (by rw [ht]; rfl)
    rw [ht',← hp]
    rfl
  rw [ht'] at ht
  injection ht with hq hh
  exact ⟨hq,hh⟩

theorem Inv.of_bind (hI : Inv s) {t p : ℕ} {q : Mapping H} {h : H} {rest : List H}
    (ht : s.pc t = .ready q h rest) (hp : p ∉ s.ports) :
    Inv ({s with ports := p::s.ports}.goto t (.bound q h rest p)) := by
  constructor
  · exact hI.answered
  · exact hI.translates
  · apply hI.apart.update
    intro p' hp' t' _ ht'
    obtain rfl := Option.some.inj hp'
    exact hp (hI.taken t' _ ht')
  · refine (Function.forall_update_iff s.pc fun _ c =>
      ∀ p', c.port = some p' → p' ∈ p::s.ports).mpr ⟨?_,?_⟩
    · intro p' hp'
      obtain rfl := Option.some.inj hp'
      exact List.mem_cons_self
    · exact fun t' _ p' hp' => List.mem_cons_of_mem _ (hI.taken t' p' hp')
  · exact hI.single
  · exact awaited_update hI.awaited fun x _ ⟨rest',h'⟩ => by simp [ht] at h'
  · exact hI.acked
  · exact (Function.forall_update_iff s.pc fun _ => Covered s.stored).mpr
      ⟨(hI.covered t).of_todo (by rw [ht]; rfl),fun t' _ => hI.covered t'⟩

theorem Inv.of_sendto (hI : Inv s) {t p : ℕ} {q : Mapping H} {h : H} {rest : List H}
    (ht : s.pc t = .addressed q h rest p) :
    Inv ({s with flight := ⟨p,q,h,false⟩::s.flight}.goto t (.waiting q h rest p)) := by
  have hport : (s.pc t).port = some p := by rw [ht]; rfl
  have hquiet : ∀ x ∈ s.flight, ¬ Awaits x (s.pc t) := by
    rintro x _ ⟨rest',h'⟩
    rw [ht] at h'
    cases h'
  have hfree : p ∉ s.flight.map Packet.port := by
    intro hmem
    obtain ⟨x,hx,rfl⟩ := List.mem_map.mp hmem
    obtain ⟨t',ht'⟩ := hI.awaited x hx
    obtain rfl := hI.apart t' t _ ht'.port hport
    exact hquiet x hx ht'
  have hmoved : Inv (s.goto t (.waiting q h rest p)) :=
    hI.of_goto hquiet (fun p' hp' => hport.trans hp') ((hI.covered t).of_todo (by rw [ht]; rfl))
  refine {hmoved with single := List.nodup_cons.mpr ⟨hfree,hI.single⟩,awaited := ?_,acked := ?_}
  · intro x hx
    rcases List.mem_cons.mp hx with rfl | hx
    · exact ⟨t,rest,Function.update_self _ _ _⟩
    · exact hmoved.awaited x hx
  · intro x hx hack
    rcases List.mem_cons.mp hx with rfl | hx
    · cases hack
    · exact hI.acked x hx hack

theorem Inv.of_answer (hI : Inv s) {t : ℕ} {q : Mapping H} (ht : s.pc t = .loop q []) :
    Inv ({s with answered := q::s.answered}.goto t .idle) := by
  have hmoved : Inv (s.goto t .idle) :=
    hI.of_quiet (by simp [ht]) (by rintro p ⟨⟩) (by rintro q rest ⟨⟩)
  refine {hmoved with answered := ?_}
  intro q' hq h hh
  rcases List.mem_cons.mp hq with rfl | hq
  · rcases hI.covered t q' [] (by rw [ht]; rfl) h hh with hmem | hmem
    · cases hmem
    · exact hmem
  · exact hI.answered q' hq h hh

theorem Inv.of_request (hI : Inv s) {t : ℕ} (ht : s.pc t = .idle) (key mrPtr shmPtr : ℕ)
    (hosts : List H) :
    Inv ({s with next := s.next+1}.goto t (.loop ⟨s.next,key,mrPtr,shmPtr,hosts⟩ hosts)) := by
  have hcovered : Covered s.stored (.loop ⟨s.next,key,mrPtr,shmPtr,hosts⟩ hosts) := by
    intro q rest hq h hh
    obtain ⟨rfl,rfl⟩ := Prod.mk.inj (Option.some.inj hq)
    exact Or.inl hh
  have hmoved := hI.of_quiet (t := t) (by simp [ht]) (by rintro p ⟨⟩) hcovered
  exact {hmoved with}

variable [DecidableEq H]

theorem stored_store (s : State H) (x : Packet H) :
    (store s x).stored = Function.update s.stored x.host (x.mapping::s.stored x.host) := rfl

theorem rkeyMrShm_store (s : State H) (x : Packet H) :
    (store s x).rkeyMrShm = Function.update s.rkeyMrShm x.host
      (Function.update (s.rkeyMrShm x.host) x.mapping.key
        (some (x.mapping.mrPtr,x.mapping.shmPtr))) := rfl

theorem mem_store (s : State H) (x : Packet H) (h : H) (q : Mapping H) (hq : q ∈ s.stored h) :
    q ∈ (store s x).stored h := by
  by_cases hh : h = x.host
  · subst hh
    rw [stored_store,Function.update_self]
    exact List.mem_cons_of_mem _ hq
  · rw [stored_store,Function.update_of_ne hh]
    exact hq

theorem mem_store_self (s : State H) (x : Packet H) : x.mapping ∈ (store s x).stored x.host := by
  rw [stored_store,Function.update_self]
  exact List.mem_cons_self

theorem translates_store (h : Translates s) (x : Packet H) : Translates (store s x) := by
  intro h' q hq
  rw [stored_store] at hq
  rw [rkeyMrShm_store]
  by_cases hh : h' = x.host
  · subst hh
    rw [Function.update_self] at hq ⊢
    by_cases hk : q.key = x.mapping.key
    · rw [hk,Function.update_self]
      rfl
    · rw [Function.update_of_ne hk]
      rcases List.mem_cons.mp hq with rfl | hq
      · exact absurd rfl hk
      · exact h _ q hq
  · rw [Function.update_of_ne hh] at hq ⊢
    exact h h' q hq

theorem Inv.of_store (hI : Inv s) (x : Packet H) : Inv (store s x) where
  answered := fun q hq h hh => mem_store s x h q (hI.answered q hq h hh)
  translates := translates_store hI.translates x
  apart := hI.apart
  taken := hI.taken
  single := hI.single
  awaited := hI.awaited
  acked := fun y hy hack => mem_store s x y.host y.mapping (hI.acked y hy hack)
  covered := fun t q rest hq h hh => (hI.covered t q rest hq h hh).imp_right (mem_store s x h q)

/-- The acknowledgement takes the place of the datagram it answers. -/
theorem Inv.of_ack (hI : Inv s) {x : Packet H} (hx : x ∈ s.flight)
    (hstored : x.mapping ∈ s.stored x.host) :
    Inv {s with flight := {x with ack := true}::s.flight.erase x} where
  answered := hI.answered
  translates := hI.translates
  apart := hI.apart
  taken := hI.taken
  single := ((List.perm_cons_erase hx).map Packet.port).nodup_iff.mp hI.single
  awaited := by
    intro y hy
    rcases List.mem_cons.mp hy with rfl | hy
    · exact hI.awaited x hx
    · exact hI.awaited y (List.mem_of_mem_erase hy)
  acked := by
    intro y hy hack
    rcases List.mem_cons.mp hy with rfl | hy
    · exact hstored
    · exact hI.acked y (List.mem_of_mem_erase hy) hack
  covered := hI.covered

theorem Inv.of_recvfrom (hI : Inv s) {t : ℕ} {q : Mapping H} {h : H} {rest : List H} {x : Packet H}
    (ht : s.pc t = .waiting q h rest x.port) (hx : x ∈ s.flight) (hack : x.ack = true) :
    Inv ({s with flight := s.flight.erase x,ports := s.ports.erase x.port}.goto t
      (.loop q rest)) := by
  have hstored : q ∈ s.stored h := by
    obtain ⟨rfl,rfl⟩ := hI.exchange ht hx rfl
    exact hI.acked x hx hack
  have hports := ((List.perm_cons_erase hx).map Packet.port).nodup_iff.mp hI.single
  have hleft : ∀ y ∈ s.flight.erase x, ¬ Awaits y (s.pc t) := by
    intro y hy haw
    have hport := haw.port
    rw [ht] at hport
    refine (List.nodup_cons.mp hports).1 ?_
    rw [Option.some.inj hport]
    exact List.mem_map_of_mem hy
  have hloop : Covered s.stored (.loop q rest) := by
    intro q' rest' hq h' hh
    obtain ⟨rfl,rfl⟩ := Prod.mk.inj (Option.some.inj hq)
    rcases hI.covered t q (h::rest) (by rw [ht]; rfl) h' hh with hmem | hmem
    · rcases List.mem_cons.mp hmem with rfl | hmem
      · exact Or.inr hstored
      · exact Or.inl hmem
    · exact Or.inr hmem
  have hmoved : Inv ({s with flight := s.flight.erase x}.goto t (.loop q rest)) :=
    (hI.of_flight List.erase_sublist).of_goto hleft (by rintro p ⟨⟩) hloop
  -- the port is given back: no other thread holds it
  refine {hmoved with taken := ?_}
  refine (Function.forall_update_iff s.pc fun _ c =>
    ∀ p, c.port = some p → p ∈ s.ports.erase x.port).mpr ⟨by rintro p ⟨⟩,?_⟩
  intro t' hne p hp
  have hp' : p ≠ x.port := by
    rintro rfl
    exact hI.apart.other (by rw [ht]; rfl) t' hne hp
  exact (List.mem_erase_of_ne hp').mpr (hI.taken t' p hp)

theorem inv_step (s : State H) (e : Event H) (s' : State H) (hI : Inv s) (he : Succeeds e)
    (hstep : step s e = some s') : Inv s' := by
  cases e with
  | request t key mrPtr shmPtr hosts =>
    rw [step] at hstep
    split at hstep
    · next hpc =>
      obtain rfl := Option.some.inj hstep
      exact hI.of_request hpc key mrPtr shmPtr hosts
    · cases hstep
  | socket t success =>
    rw [step] at hstep
    split at hstep
    · next q h rest hpc =>
      obtain rfl := Option.some.inj hstep
      cases success
      · exact hI.of_quiet (by simp [hpc]) (by rintro p ⟨⟩) (by rintro q rest ⟨⟩)
      · exact hI.of_next (by simp [hpc]) (by rintro p ⟨⟩) (by rw [hpc]; rfl)
    · cases hstep
  | inetAtonSelf t success =>
    obtain rfl : success = true := he
    rw [step] at hstep
    split at hstep
    · next q h rest hpc =>
      obtain rfl := Option.some.inj hstep
      exact hI.of_next (by simp [hpc]) (by rintro p ⟨⟩) (by rw [hpc]; rfl)
    · cases hstep
  | bind t port =>
    obtain ⟨p,rfl⟩ := Option.ne_none_iff_exists'.mp he
    rw [step] at hstep
    split at hstep
    · next q h rest hpc =>
      dsimp only at hstep
      split at hstep
      · cases hstep
      · next hp =>
        obtain rfl := Option.some.inj hstep
        exact hI.of_bind hpc hp
    · cases hstep
  | inetAtonHost t success =>
    obtain rfl : success = true := he
    rw [step] at hstep
    split at hstep
    · next q h rest p hpc =>
      obtain rfl := Option.some.inj hstep
      exact hI.of_next (by simp [hpc]) (fun p' hp' => by rw [hpc]; exact hp') (by rw [hpc]; rfl)
    · cases hstep
  | sendto t success =>
    rw [step] at hstep
    split at hstep
    · next q h rest p hpc =>
      obtain rfl := Option.some.inj hstep
      have hsent := hI.of_sendto hpc
      cases success
      -- the handler waits all the same, for an answer that cannot come
      · exact hsent.of_flight (List.sublist_cons_self _ _)
      · exact hsent
    · cases hstep
  | recvfrom t packet =>
    obtain ⟨x,rfl⟩ := Option.ne_none_iff_exists'.mp he
    rw [step] at hstep
    split at hstep
    · next q h rest p hpc =>
      dsimp only at hstep
      split at hstep
      · next hx =>
        obtain ⟨hmem,hack,rfl⟩ := hx
        obtain rfl := Option.some.inj hstep
        exact hI.of_recvfrom hpc hmem hack
      · cases hstep
    · cases hstep
  | answer t =>
    rw [step] at hstep
    split at hstep
    · next q hpc =>
      obtain rfl := Option.some.inj hstep
      exact hI.of_answer hpc
    · cases hstep
  | udpServer x success =>
    rw [step] at hstep
    split at hstep
    · next hx =>
      obtain rfl := Option.some.inj hstep
      have hstored := hI.of_store x
      cases success
      · exact hstored.of_flight List.erase_sublist
      · exact hstored.of_ack hx.1 (mem_store_self s x)
    · cases hstep
  | lose x =>
    obtain rfl := Option.some.inj hstep
    exact hI.of_flight List.erase_sublist

end Steps

variable [DecidableEq H]

/-- A mapping that was answered is everywhere. -/
theorem answered_everywhere (events : List (Event H)) (s : State H)
    (hsucceed : ∀ e ∈ events, Succeeds e) (hrun : run step started events = some s) :
    Everywhere s := by
  have hI : Inv s := run_invariant step (fun _ e => Succeeds e) Inv inv_step started events s
    inv_started (along_of_forall step _ _ events fun e he _ => hsucceed e he) hrun
  intro q hq h hh
  have hstored := hI.answered q hq h hh
  exact ⟨hstored,hI.translates h q hstored⟩

def ours : Mapping ℕ := ⟨0,7,4096,8192,[0,1]⟩

/-- Two handlers; the second one's datagram is lost, and it waits. -/
def crossing : List (Event ℕ) :=
  [.request 0 7 4096 8192 [0,1],.request 1 9 100 200 [1],.socket 0 true,.socket 1 true,
    .inetAtonSelf 0 true,.inetAtonSelf 1 true,.bind 1 (some 50),.bind 0 (some 40),
    .inetAtonHost 0 true,.inetAtonHost 1 true,.sendto 1 true,.sendto 0 true,
    .lose ⟨50,⟨1,9,100,200,[1]⟩,1,false⟩,.udpServer ⟨40,ours,0,false⟩ true,
    .recvfrom 0 (some ⟨40,ours,0,true⟩),.socket 0 true,.inetAtonSelf 0 true,.bind 0 (some 40),
    .inetAtonHost 0 true,.sendto 0 true,.udpServer ⟨40,ours,1,false⟩ true,
    .recvfrom 0 (some ⟨40,ours,1,true⟩),.answer 0]

theorem crossing_everywhere : ∃ s, run step started crossing = some s ∧ s.answered = [ours] ∧
    Everywhere s := by
  refine ⟨_,rfl,rfl,answered_everywhere crossing _ ?_ rfl⟩
  simp [crossing,Succeeds]

/-- A host whose name is no dotted quad is passed over. -/
def passedOver : List (Event ℕ) :=
  [.request 0 7 4096 8192 [0],.socket 0 true,.inetAtonSelf 0 true,.bind 0 (some 40),
    .inetAtonHost 0 false,.answer 0]

theorem passed_over_answered : ∃ s, run step started passedOver = some s ∧ s.stored 0 = [] ∧
    ¬ Everywhere s := by
  refine ⟨_,rfl,rfl,fun h => ?_⟩
  obtain ⟨hstored,_⟩ := h ⟨0,7,4096,8192,[0]⟩ List.mem_cons_self 0 List.mem_cons_self
  cases hstored

end FreeFlow.MappingBroadcast
