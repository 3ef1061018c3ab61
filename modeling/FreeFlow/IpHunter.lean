import FreeFlow.PodMirror

/-!
# The rounds of the address hunter

`ip2Etcd` clears its two key directories and then, round after round,
publishes the pod map and the node map. The scan of the nodes keeps the last
internal address and the last host name it saw in two variables that live
across the nodes of the list.
-/

set_option autoImplicit false

namespace FreeFlow.IpHunter

open KeyValue PodMirror

inductive AddressType
  | internalIP
  | hostName
  | other
  deriving DecidableEq

structure NodeAddress where
  type : AddressType
  address : String

structure Node where
  addresses : List NodeAddress

/-- `ipNodesKeyDir`. -/
def ipNodesKeyDir : String := "Kubernetes/Nodes/"

structure NodeScan where
  internIP : String
  hostName : String
  ipCurrentNodes : IpMap
  ipChangedNodes : IpMap

def scanAddress (s : NodeScan) (a : NodeAddress) : NodeScan :=
  match a.type with
  | .internalIP => {s with internIP := a.address}
  | .hostName => {s with hostName := a.address}
  | .other => s

def recordNode (ipPrecedeNodes : IpMap) (s : NodeScan) : NodeScan :=
  if s.internIP.length = 0 then s
  else
    let s' := {s with
      ipCurrentNodes := Function.update s.ipCurrentNodes s.internIP (some s.hostName)}
    if ipPrecedeNodes s.internIP = some s.hostName then s'
    else {s' with
      ipChangedNodes := Function.update s.ipChangedNodes s.internIP (some s.hostName)}

def scanNode (ipPrecedeNodes : IpMap) (s : NodeScan) (node : Node) : NodeScan :=
  recordNode ipPrecedeNodes (node.addresses.foldl scanAddress s)

def scanNodes (ipPrecedeNodes : IpMap) (nodes : List Node) : NodeScan :=
  nodes.foldl (scanNode ipPrecedeNodes) ⟨"","",fun _ => none,fun _ => none⟩

/-- A node list with the orders of the two loops of `ipNode2Etcd`. -/
structure NodeRound where
  nodes : List Node
  changedOrder : List String
  precedeOrder : List String

/-- The calls `ipNode2Etcd` makes to etcd, in order. -/
def nodeOps (ipPrecedeNodes : IpMap) (r : NodeRound) : List (Op String String) :=
  let s := scanNodes ipPrecedeNodes r.nodes
  publishOps ipNodesKeyDir s.ipCurrentNodes s.ipChangedNodes r.changedOrder r.precedeOrder

/-- The calls of the endless loop of `ip2Etcd` over the given rounds. -/
def roundsOps : IpMap → IpMap → List (Round × NodeRound) → List (Op String String)
  | _, _, [] => []
  | ipPrecedeMap, ipPrecedeNodes, r::rs =>
    roundOps ipPrecedeMap r.1++nodeOps ipPrecedeNodes r.2++
      roundsOps (scanPods ipPrecedeMap r.1.pods).ipCurrentMap
        (scanNodes ipPrecedeNodes r.2.nodes).ipCurrentNodes rs

/-- All calls of `ip2Etcd`: the directories are cleared of the keys found in
them, then come the rounds. -/
def ip2Etcd (stalePods staleNodes : List String) (rounds : List (Round × NodeRound)) :
    List (Op String String) :=
  stalePods.map (fun k => .delete (ipMapKeyDir++k))++
    staleNodes.map (fun k => .delete (ipNodesKeyDir++k))++
    roundsOps (fun _ => none) (fun _ => none) rounds

/-- A key of one of the two directories. -/
def InDirectory (key : String) : Prop := ∃ k, key = ipMapKeyDir++k ∨ key = ipNodesKeyDir++k

theorem roundsOps_inDirectory (m n : IpMap) (rounds : List (Round × NodeRound))
    (op : Op String String) (h : op ∈ roundsOps m n rounds) : InDirectory op.key := by
  induction rounds generalizing m n with
  | nil => simp [roundsOps] at h
  | cons r rs ih =>
    simp only [roundsOps,List.mem_append] at h
    rcases h with (h | h) | h
    · obtain ⟨k,hk⟩ := publishOps_key _ _ _ _ _ op h
      exact ⟨k,.inl hk⟩
    · obtain ⟨k,hk⟩ := publishOps_key _ _ _ _ _ op h
      exact ⟨k,.inr hk⟩
    · exact ih _ _ h

theorem ip2Etcd_inDirectory (stalePods staleNodes : List String)
    (rounds : List (Round × NodeRound)) (op : Op String String)
    (h : op ∈ ip2Etcd stalePods staleNodes rounds) : InDirectory op.key := by
  simp only [ip2Etcd,List.mem_append,List.mem_map] at h
  rcases h with (⟨k,-,rfl⟩ | ⟨k,-,rfl⟩) | h
  · exact ⟨k,.inl rfl⟩
  · exact ⟨k,.inr rfl⟩
  · exact roundsOps_inDirectory _ _ rounds op h

end FreeFlow.IpHunter
