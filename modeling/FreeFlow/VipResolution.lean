import FreeFlow.IpHunter
import FreeFlow.DottedQuad

/-!
# Virtual addresses from pod list to rewrite

The router watches the keys from `Microsoft/FreeFlow` up to the next string
and applies the first event of every watch response to `vip_map`, under the
whole key of the event. `map_vip` looks an address up by its bare dotted
text. A watch that starts after some of the hunter's calls sees the changes
made by the later ones.
-/

set_option autoImplicit false

namespace FreeFlow.VipResolution

open KeyValue PodMirror IpHunter DottedQuad

/-- The keys between `key` and `range_end` of the watch request. -/
def watched (key : String) : Bool := "Microsoft/FreeFlow" ≤ key ∧ key < "Microsoft/FreeFlox"

/-- The events of a watch that begins after the first calls. -/
def watchEvents (etcd : IpMap) (before after : List (Op String String)) :
    List (Op String String) :=
  (changes (applyAll etcd before) after).filter fun op => watched op.key

def processVipMap (vipMap : IpMap) : List (Op String String) → IpMap
  | [] => vipMap
  | event::_ => apply vipMap event

def updateVipMap (responses : List (List (Op String String))) : IpMap :=
  responses.foldl processVipMap fun _ => none

def mapVip (vipMap : IpMap) (addr : Addr) : Addr :=
  match vipMap (ntop addr) with
  | some dip => (pton dip).getD addr
  | none => addr

/-- `map_vip` sends the address of each pod to its host and no other address
anywhere. -/
def Resolves (vipMap : IpMap) (pods : List Pod) : Prop :=
  (∀ p ∈ pods, p.Published → ∀ x y, p.podIP = ntop x → p.hostIP = ntop y →
    mapVip vipMap x = y) ∧
  ∀ x, (∀ p ∈ pods, p.Published → p.podIP ≠ ntop x) → mapVip vipMap x = x

/-- Every pod runs under the address of its host. -/
def OnHostNetwork (pods : List Pod) : Prop :=
  ∀ p ∈ pods, p.Published → ∀ x y, p.podIP = ntop x → p.hostIP = ntop y → x = y

theorem inDirectory_head (key : String) (h : InDirectory key) :
    key.toList.head? = some 'M' ∨ key.toList.head? = some 'K' := by
  obtain ⟨k,rfl | rfl⟩ := h
  · left
    simp [ipMapKeyDir]
  · right
    simp [ipNodesKeyDir]

/-- No text of an address is a key of the directories. -/
theorem ntop_not_inDirectory (x : Addr) : ¬InDirectory (ntop x) := by
  intro h
  obtain ⟨k,hk,hx⟩ := ntop_head x
  have hdigit : digit k ≠ 'M' ∧ digit k ≠ 'K' := by interval_cases k <;> decide
  rcases inDirectory_head _ h with hm | hm
  · exact hdigit.1 (Option.some.inj (hx.symm.trans hm))
  · exact hdigit.2 (Option.some.inj (hx.symm.trans hm))

theorem processVipMap_none (vipMap : IpMap) (response : List (Op String String)) (x : Addr)
    (hkeys : ∀ op ∈ response, InDirectory op.key) (hx : vipMap (ntop x) = none) :
    processVipMap vipMap response (ntop x) = none := by
  cases response with
  | nil => exact hx
  | cons event rest =>
    have hne : ntop x ≠ event.key := fun h =>
      ntop_not_inDirectory x (h ▸ hkeys event List.mem_cons_self)
    rw [processVipMap,apply,Function.update_of_ne hne]
    exact hx

theorem updateVipMap_none (responses : List (List (Op String String))) (x : Addr)
    (hkeys : ∀ op ∈ responses.flatten, InDirectory op.key) :
    updateVipMap responses (ntop x) = none := by
  suffices hgen : ∀ m : IpMap, m (ntop x) = none →
      responses.foldl processVipMap m (ntop x) = none from hgen _ rfl
  induction responses with
  | nil => exact fun m hm => hm
  | cons response responses ih =>
    intro m hm
    rw [List.flatten_cons] at hkeys
    refine ih (fun op hop => hkeys op (List.mem_append_right _ hop)) _ ?_
    exact processVipMap_none m response x (fun op hop => hkeys op (List.mem_append_left _ hop)) hm

/-- Whatever the watch has delivered, `map_vip` rewrites nothing. -/
theorem mapVip_identity (etcd : IpMap) (stalePods staleNodes : List String)
    (rounds : List (Round × NodeRound)) (before after : List (Op String String))
    (hcalls : ip2Etcd stalePods staleNodes rounds = before++after)
    (responses : List (List (Op String String)))
    (hdelivered : responses.flatten = watchEvents etcd before after) (x : Addr) :
    mapVip (updateVipMap responses) x = x := by
  have hkeys : ∀ op ∈ responses.flatten, InDirectory op.key := by
    intro op hop
    rw [hdelivered] at hop
    have hop' := changes_sub _ after op (List.mem_filter.mp hop).1
    exact ip2Etcd_inDirectory stalePods staleNodes rounds op
      (hcalls ▸ List.mem_append_right before hop')
  rw [mapVip,updateVipMap_none responses x hkeys]

/-- After every delivery of every watch, the last pod list is resolved
exactly when each of its pods already runs under its host's address. -/
theorem resolves_iff_onHostNetwork (etcd : IpMap) (stalePods staleNodes : List String)
    (rounds : List (Round × NodeRound)) (last : Round × NodeRound)
    (before after : List (Op String String))
    (hcalls : ip2Etcd stalePods staleNodes (rounds++[last]) = before++after)
    (responses : List (List (Op String String)))
    (hdelivered : responses.flatten = watchEvents etcd before after) :
    Resolves (updateVipMap responses) last.1.pods ↔ OnHostNetwork last.1.pods := by
  have hid := mapVip_identity etcd stalePods staleNodes _ before after hcalls responses hdelivered
  constructor
  · intro h p hp hpub x y hx hy
    exact (hid x).symm.trans (h.1 p hp hpub x y hx hy)
  · intro h
    exact ⟨fun p hp hpub x y hx hy => (hid x).trans (h p hp hpub x y hx hy),fun x _ => hid x⟩

def noNodes : NodeRound := ⟨[],[],[]⟩

/-- A pod on the network of its host. -/
def hostPod : Round := ⟨[⟨"192.168.0.1","192.168.0.1"⟩],["192.168.0.1"],[]⟩

theorem hostPod_onHostNetwork : OnHostNetwork hostPod.pods := by
  intro p hp _ x y hx hy
  obtain rfl := List.mem_singleton.mp hp
  have htext : ntop x = ntop y := hx.symm.trans hy
  exact Option.some.inj ((pton_ntop x).symm.trans ((congrArg pton htext).trans (pton_ntop y)))

theorem host_pod_resolved :
    ip2Etcd [] [] ([]++[(hostPod,noNodes)]) =
      []++[.put "Microsoft/FreeFlow/192.168.0.1" "192.168.0.1"] ∧
    [[.put "Microsoft/FreeFlow/192.168.0.1" "192.168.0.1"]].flatten =
      watchEvents (fun _ => none) [] [.put "Microsoft/FreeFlow/192.168.0.1" "192.168.0.1"] ∧
    Resolves (updateVipMap [[.put "Microsoft/FreeFlow/192.168.0.1" "192.168.0.1"]]) hostPod.pods :=
  ⟨by decide,by decide,(resolves_iff_onHostNetwork (fun _ => none) [] [] [] (hostPod,noNodes) []
    [.put "Microsoft/FreeFlow/192.168.0.1" "192.168.0.1"] (by decide)
    [[.put "Microsoft/FreeFlow/192.168.0.1" "192.168.0.1"]] (by decide)).mpr hostPod_onHostNetwork⟩

/-- One pod, watched from the start, every event delivered alone: its
address is still not rewritten. -/
theorem pod_address_not_resolved :
    ip2Etcd [] [] ([]++[(appear,noNodes)]) =
      []++[.put "Microsoft/FreeFlow/10.1.0.5" "192.168.0.1"] ∧
    [[.put "Microsoft/FreeFlow/10.1.0.5" "192.168.0.1"]].flatten =
      watchEvents (fun _ => none) [] [.put "Microsoft/FreeFlow/10.1.0.5" "192.168.0.1"] ∧
    ¬Resolves (updateVipMap [[.put "Microsoft/FreeFlow/10.1.0.5" "192.168.0.1"]])
      appear.pods := by
  refine ⟨by decide,by decide,fun h => ?_⟩
  have hrewrite := h.1 ⟨"10.1.0.5","192.168.0.1"⟩ (by decide) (by decide)
    ⟨10,1,0,5⟩ ⟨192,168,0,1⟩ (by decide) (by decide)
  exact absurd hrewrite (by decide)

end FreeFlow.VipResolution
