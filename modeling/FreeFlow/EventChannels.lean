import FreeFlow.Runs
import FreeFlow.Wire

/-!
# Event channels

`rdma_create_event_channel` asks the router for a channel. The router keeps
it in `event_channel_map` under its own fd and passes the fd on; the client
knows the channel by the fd it receives and keeps the router's fd in a table
of its own. `rdma_destroy_event_channel` sends the code of a creation: the
router has a branch for the destruction of channels, and no client reaches
it.

Channels are numbered in the order of their creation in the router. `held` is
what the clients have created and not destroyed. The fd of a destroyed
channel is not closed in the client.
-/

set_option autoImplicit false

namespace FreeFlow.EventChannels

open Runs
open Wire (mapSize)

/-- The two codes of `RDMA_FUNCTION_CALL` for event channels. -/
inductive Func
  | cmCreateEventChannel
  | cmDestroyEventChannel

/-- Sizes of the responses: `ret_errno` and the channel, `ret_errno` alone. -/
def Func.rspSize : Func → ℕ
  | .cmCreateEventChannel => 8
  | .cmDestroyEventChannel => 4

structure Held where
  client : ℕ
  fd : ℕ
  channel : ℕ
  deriving DecidableEq

/-- `opened` and `used` are the fds the kernel has given to the router and to
the clients. `reads` has, for every response, the bytes read and the size of
the structure they were read into. `outside` tells that a client has left its
table. -/
structure State where
  eventChannelMap : ℕ → Option ℕ
  opened : List ℕ
  next : ℕ
  clientMap : ℕ → ℕ → ℤ
  used : ℕ → List ℕ
  held : List Held
  reads : List (ℕ × ℕ)
  outside : Bool

def started : State := ⟨fun _ => none,[],0,fun _ _ => -1,fun _ => [],[],[],false⟩

/-- The fds the kernel chooses for a new channel. -/
structure Fds where
  router : ℕ
  client : ℕ

/-- `HandleRequest`; `fd` is the body of a destruction. The -1 of a channel
that the client does not know lies before the table. -/
def handleRequest (s : State) (k : Fds) (fd : ℤ) : Func → State
  | .cmCreateEventChannel =>
    {s with eventChannelMap := if mapSize ≤ k.router then s.eventChannelMap
              else Function.update s.eventChannelMap k.router (some s.next)
            opened := k.router::s.opened
            next := s.next+1}
  | .cmDestroyEventChannel =>
    if fd < 0 then s
    else
      match s.eventChannelMap fd.toNat with
      | some _ => {s with eventChannelMap := Function.update s.eventChannelMap fd.toNat none
                          opened := s.opened.erase fd.toNat}
      | none => s

/-- `request_router` of a client that passes a structure of `size` bytes for
the response. -/
def requestRouter (s : State) (client : ℕ) (func : Func) (fd : ℤ) (size : ℕ) (k : Fds) : State :=
  let t := handleRequest s k fd func
  let t := {t with reads := (func.rspSize,size)::t.reads}
  match func with
  | .cmCreateEventChannel =>
    {t with used := Function.update t.used client (k.client::t.used client)
            clientMap := Function.update t.clientMap client
              (Function.update (t.clientMap client) k.client k.router)
            outside := t.outside || decide (mapSize ≤ k.client)}
  | .cmDestroyEventChannel => t

def rdmaCreateEventChannel (s : State) (client : ℕ) (k : Fds) : State :=
  let t := requestRouter s client .cmCreateEventChannel 0 Func.cmCreateEventChannel.rspSize k
  {t with held := ⟨client,k.client,s.next⟩::t.held}

/-- The response goes into a `CM_DESTROY_EVENT_CHANNEL_RSP`. -/
def rdmaDestroyEventChannel (s : State) (h : Held) (k : Fds) : State :=
  let t := requestRouter s h.client .cmCreateEventChannel (s.clientMap h.client h.fd)
    Func.cmDestroyEventChannel.rspSize k
  {t with held := t.held.erase h}

inductive Event
  | create (client : ℕ) (k : Fds)
  | destroy (h : Held) (k : Fds)

/-- The kernel gives out fds that are not in use; a client destroys a channel
it holds. -/
def step (s : State) : Event → Option State
  | .create client k =>
    if k.router ∉ s.opened ∧ k.client ∉ s.used client then
      some (rdmaCreateEventChannel s client k) else none
  | .destroy h k =>
    if h ∈ s.held ∧ k.router ∉ s.opened ∧ k.client ∉ s.used h.client then
      some (rdmaDestroyEventChannel s h k) else none

/-- The router holds the channels the clients hold, every response had the
size of the structure it was read into and no client has left its table. -/
structure Balanced (s : State) : Prop where
  channels : ∀ c, (∃ fd, s.eventChannelMap fd = some c) ↔ ∃ h ∈ s.held, h.channel = c
  sizes : ∀ r ∈ s.reads, r.1 = r.2
  inside : s.outside = false

/-- A creation whose fds fit the tables. -/
def Fits : Event → Prop
  | .create _ k => k.router < mapSize ∧ k.client < mapSize
  | .destroy .. => False

structure Inv (s : State) : Prop where
  mapped : ∀ fd c, s.eventChannelMap fd = some c → c < s.next ∧ fd ∈ s.opened
  held : ∀ h ∈ s.held, h.channel < s.next

theorem inv_started : Inv started := ⟨by simp [started],by simp [started]⟩

theorem created_map (s : State) (client : ℕ) (fd : ℤ) (size : ℕ) (k : Fds) :
    (requestRouter s client .cmCreateEventChannel fd size k).eventChannelMap =
      if mapSize ≤ k.router then s.eventChannelMap
      else Function.update s.eventChannelMap k.router (some s.next) := rfl

theorem created_mapped (s : State) (hI : Inv s) (client : ℕ) (fd : ℤ) (size : ℕ) (k : Fds) (x c : ℕ)
    (hx : (requestRouter s client .cmCreateEventChannel fd size k).eventChannelMap x = some c) :
    c < s.next+1 ∧ x ∈ k.router::s.opened := by
  have hold : s.eventChannelMap x = some c → c < s.next+1 ∧ x ∈ k.router::s.opened := by
    intro h
    exact ⟨Nat.lt_succ_of_lt (hI.mapped x c h).1,List.mem_cons_of_mem _ (hI.mapped x c h).2⟩
  rw [created_map] at hx
  split at hx
  · exact hold hx
  · by_cases hfd : x = k.router
    · rw [hfd,Function.update_self,Option.some.injEq] at hx
      exact ⟨by omega,hfd ▸ List.mem_cons_self⟩
    · rw [Function.update_of_ne hfd] at hx
      exact hold hx

theorem inv_create (s : State) (hI : Inv s) (client : ℕ) (k : Fds) :
    Inv (rdmaCreateEventChannel s client k) where
  mapped := created_mapped s hI client 0 8 k
  held := by
    intro h hh
    rcases List.mem_cons.mp hh with rfl | hh
    · exact Nat.lt_succ_self _
    · exact Nat.lt_succ_of_lt (hI.held h hh)

theorem inv_destroy (s : State) (hI : Inv s) (h : Held) (k : Fds) :
    Inv (rdmaDestroyEventChannel s h k) where
  mapped := created_mapped s hI h.client (s.clientMap h.client h.fd) 4 k
  held h' hh' := Nat.lt_succ_of_lt (hI.held h' (List.mem_of_mem_erase hh'))

/-- A channel whose fd fits the table is added to both sides. -/
theorem create_channels (s : State) (hI : Inv s) (client : ℕ) (k : Fds) (hfd : k.router ∉ s.opened)
    (hfits : k.router < mapSize) (c : ℕ) :
    (∃ fd, (rdmaCreateEventChannel s client k).eventChannelMap fd = some c) ↔
      c = s.next ∨ ∃ fd, s.eventChannelMap fd = some c := by
  have hmap : (rdmaCreateEventChannel s client k).eventChannelMap =
      Function.update s.eventChannelMap k.router (some s.next) := if_neg (Nat.not_le.mpr hfits)
  rw [hmap]
  constructor
  · rintro ⟨fd,hx⟩
    by_cases heq : fd = k.router
    · rw [heq,Function.update_self,Option.some.injEq] at hx
      exact Or.inl hx.symm
    · rw [Function.update_of_ne heq] at hx
      exact Or.inr ⟨fd,hx⟩
  · rintro (rfl | ⟨fd,hx⟩)
    · exact ⟨k.router,Function.update_self ..⟩
    · have hne : fd ≠ k.router := fun heq => hfd (heq ▸ (hI.mapped fd c hx).2)
      exact ⟨fd,(Function.update_of_ne hne _ _).trans hx⟩

theorem create_balanced_iff (s : State) (hI : Inv s) (client : ℕ) (k : Fds)
    (hfd : k.router ∉ s.opened) :
    Balanced (rdmaCreateEventChannel s client k) ↔ Balanced s ∧ Fits (.create client k) := by
  have hheld : ∀ c, (∃ h ∈ (rdmaCreateEventChannel s client k).held, h.channel = c) ↔
      c = s.next ∨ ∃ h ∈ s.held, h.channel = c := by
    intro c
    show (∃ h ∈ (⟨client,k.client,s.next⟩ : Held)::s.held, h.channel = c) ↔ _
    simp only [List.mem_cons,exists_eq_or_imp,eq_comm]
  have hreads : (rdmaCreateEventChannel s client k).reads = (8,8)::s.reads := rfl
  have houtside : (rdmaCreateEventChannel s client k).outside =
      (s.outside || decide (mapSize ≤ k.client)) := rfl
  -- neither side had the number of the new channel before
  have hnew : ¬∃ fd, s.eventChannelMap fd = some s.next := by
    rintro ⟨fd,hx⟩
    exact Nat.lt_irrefl _ (hI.mapped fd _ hx).1
  have hnew' : ¬∃ h ∈ s.held, h.channel = s.next := by
    rintro ⟨h,hh,heq⟩
    exact Nat.lt_irrefl s.next (heq ▸ hI.held h hh)
  constructor
  · rintro ⟨hchannels,hsizes,hinside⟩
    rw [houtside,Bool.or_eq_false_iff,decide_eq_false_iff_not,Nat.not_le] at hinside
    have hfits : k.router < mapSize := by
      by_contra hlarge
      have hmap : (rdmaCreateEventChannel s client k).eventChannelMap = s.eventChannelMap :=
        if_pos (Nat.not_lt.mp hlarge)
      exact hnew (hmap ▸ (hchannels s.next).mpr ((hheld s.next).mpr (Or.inl rfl)))
    refine ⟨⟨fun c => ?_,fun r hr => hsizes r (hreads ▸ List.mem_cons_of_mem _ hr),hinside.1⟩,
      hfits,hinside.2⟩
    have hc := hchannels c
    rw [hheld,create_channels s hI client k hfd hfits] at hc
    by_cases heq : c = s.next
    · subst heq
      exact ⟨fun h => absurd h hnew,fun h => absurd h hnew'⟩
    · simpa [heq] using hc
  · rintro ⟨⟨hchannels,hsizes,hinside⟩,hfits,hclient⟩
    refine ⟨fun c => ?_,?_,?_⟩
    · rw [hheld,create_channels s hI client k hfd hfits,hchannels]
    · rw [hreads]
      exact List.forall_mem_cons.mpr ⟨rfl,hsizes⟩
    · rw [houtside,hinside,Bool.false_or,decide_eq_false_iff_not,Nat.not_le]
      exact hclient

theorem destroy_not_balanced (s : State) (h : Held) (k : Fds) :
    ¬Balanced (rdmaDestroyEventChannel s h k) := by
  intro hbalanced
  exact absurd (hbalanced.sizes (8,4) List.mem_cons_self) (by decide)

theorem step_balanced_iff (s : State) (e : Event) (t : State) (hI : Inv s)
    (ht : step s e = some t) : Inv t ∧ (Balanced t ↔ Balanced s ∧ Fits e) := by
  cases e with
  | create client k =>
    simp only [step,Option.ite_none_right_eq_some,Option.some.injEq] at ht
    obtain ⟨⟨hfd,-⟩,rfl⟩ := ht
    exact ⟨inv_create s hI client k,create_balanced_iff s hI client k hfd⟩
  | destroy h k =>
    simp only [step,Option.ite_none_right_eq_some,Option.some.injEq] at ht
    obtain ⟨-,rfl⟩ := ht
    exact ⟨inv_destroy s hI h k,
      fun hb => absurd hb (destroy_not_balanced s h k),fun hb => absurd hb.2 id⟩

/-- After every sequence of creations and destructions by the clients, the
router holds exactly the channels the clients hold and every response had the
size of its structure exactly when no channel was destroyed and all fds
fitted the tables. -/
theorem event_channels_balanced_iff (events : List Event) (s : State)
    (hrun : run step started events = some s) : Balanced s ↔ ∀ e ∈ events, Fits e := by
  have hempty : Balanced started := ⟨by simp [started],by simp [started],rfl⟩
  rw [run_iff_forall step Inv Balanced Fits step_balanced_iff started events s inv_started hrun]
  exact and_iff_right hempty

theorem two_channels_balanced : ∃ s,
    run step started [.create 1 ⟨7,5⟩,.create 2 ⟨8,5⟩] = some s ∧ Balanced s :=
  ⟨_,rfl,(event_channels_balanced_iff [.create 1 ⟨7,5⟩,.create 2 ⟨8,5⟩] _ rfl).mpr (by
    simp only [List.forall_mem_cons]
    exact ⟨⟨by decide,by decide⟩,⟨by decide,by decide⟩,by simp⟩)⟩

/-- A client creates a channel and destroys it. The router is left with that
channel and a second one, and 8 bytes were read into a structure of 4. -/
theorem destroyed_channel_kept : ∃ s,
    run step started [.create 1 ⟨7,5⟩,.destroy ⟨1,5,0⟩ ⟨8,6⟩] = some s ∧ s.held = [] ∧
      s.eventChannelMap 7 = some 0 ∧ s.eventChannelMap 8 = some 1 ∧ s.reads = [(8,4),(8,8)] :=
  ⟨_,rfl,rfl,rfl,rfl,rfl⟩

end FreeFlow.EventChannels
