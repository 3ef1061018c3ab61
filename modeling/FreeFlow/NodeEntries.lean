import FreeFlow.IpHunter

/-!
# Where the node entries come from

The scan of `ipNode2Etcd` carries the last internal address and the last host
name it saw from node to node. A node that lacks one of the two is recorded with
the one of an earlier node, and a node without an internal address writes again
under the address of an earlier one.

An entry of the map belongs to the last node that has its address. It is right
unless that node has no host name and an earlier one has.
-/

set_option autoImplicit false

namespace FreeFlow.NodeEntries

open IpHunter PodMirror

/-- The last address of a type in a list of addresses. -/
def lastOf (t : AddressType) : List NodeAddress → Option String
  | [] => none
  | a::as => (lastOf t as).or (if a.type = t then some a.address else none)

/-- What the scan carries over after some nodes. -/
def carried (t : AddressType) (nodes : List Node) : String :=
  (lastOf t (nodes.flatMap Node.addresses)).getD ""

def Lacks (t : AddressType) (n : Node) : Prop := ∀ a ∈ n.addresses, a.type ≠ t

instance (t : AddressType) (n : Node) : Decidable (Lacks t n) :=
  inferInstanceAs (Decidable (∀ a ∈ n.addresses, a.type ≠ t))

/-- One node of the list has the address and the name, or has the address and
no name where the name is empty. -/
def FromOneNode (nodes : List Node) (ip name : String) : Prop :=
  ∃ n ∈ nodes, ⟨.internalIP,ip⟩ ∈ n.addresses ∧
    (⟨.hostName,name⟩ ∈ n.addresses ∨ (Lacks .hostName n ∧ name = ""))

deriving instance DecidableEq for NodeAddress

instance (nodes : List Node) (ip name : String) : Decidable (FromOneNode nodes ip name) :=
  inferInstanceAs (Decidable (∃ n ∈ nodes, ⟨.internalIP,ip⟩ ∈ n.addresses ∧
    (⟨.hostName,name⟩ ∈ n.addresses ∨ (Lacks .hostName n ∧ name = ""))))

/-- Every entry of the map comes from one node, and nodes without an internal
address leave the map as it was. -/
structure Attributed (ipPrecedeNodes : IpMap) (nodes : List Node) : Prop where
  entries : ∀ ip name, (scanNodes ipPrecedeNodes nodes).ipCurrentNodes ip = some name →
    FromOneNode nodes ip name
  silent : ∀ pre n post, nodes = pre++n::post → Lacks .internalIP n →
    (scanNodes ipPrecedeNodes (pre++[n])).ipCurrentNodes =
      (scanNodes ipPrecedeNodes pre).ipCurrentNodes

theorem lastOf_append (t : AddressType) (as bs : List NodeAddress) :
    lastOf t (as++bs) = (lastOf t bs).or (lastOf t as) := by
  induction as with
  | nil => simp [lastOf]
  | cons a as ih => simp only [List.cons_append,lastOf,ih,Option.or_assoc]

theorem lastOf_eq_none (t : AddressType) (as : List NodeAddress) :
    lastOf t as = none ↔ ∀ a ∈ as, a.type ≠ t := by
  induction as with
  | nil => simp [lastOf]
  | cons a as ih => simp [lastOf,ih,and_comm]

theorem mem_of_lastOf (t : AddressType) (as : List NodeAddress) (x : String)
    (h : lastOf t as = some x) : ⟨t,x⟩ ∈ as := by
  induction as with
  | nil => cases h
  | cons a as ih =>
    rw [lastOf,Option.or_eq_some_iff] at h
    rcases h with h | ⟨-,h⟩
    · exact List.mem_cons_of_mem _ (ih h)
    · obtain ⟨rfl,rfl⟩ : a.type = t ∧ a.address = x := by simpa using h
      exact List.mem_cons_self

theorem scanAddress_foldl (s : NodeScan) (as : List NodeAddress) :
    as.foldl scanAddress s = {s with
      internIP := (lastOf .internalIP as).getD s.internIP
      hostName := (lastOf .hostName as).getD s.hostName} := by
  induction as generalizing s with
  | nil => rfl
  | cons a as ih =>
    obtain ⟨type,address⟩ := a
    rw [List.foldl_cons,ih]
    cases type <;> simp [scanAddress,lastOf]

theorem carried_snoc (t : AddressType) (nodes : List Node) (n : Node) :
    carried t (nodes++[n]) = (lastOf t n.addresses).getD (carried t nodes) := by
  simp only [carried,List.flatMap_append,List.flatMap_singleton,lastOf_append]
  cases lastOf t n.addresses <;> rfl

@[simp] theorem recordNode_internIP (ipPrecedeNodes : IpMap) (s : NodeScan) :
    (recordNode ipPrecedeNodes s).internIP = s.internIP := by
  simp only [recordNode]
  split_ifs <;> rfl

@[simp] theorem recordNode_hostName (ipPrecedeNodes : IpMap) (s : NodeScan) :
    (recordNode ipPrecedeNodes s).hostName = s.hostName := by
  simp only [recordNode]
  split_ifs <;> rfl

theorem recordNode_ipCurrentNodes (ipPrecedeNodes : IpMap) (s : NodeScan) :
    (recordNode ipPrecedeNodes s).ipCurrentNodes =
      if s.internIP = "" then s.ipCurrentNodes
      else Function.update s.ipCurrentNodes s.internIP (some s.hostName) := by
  simp only [recordNode,String.length_eq_zero_iff]
  split_ifs <;> rfl

theorem scanNodes_snoc (ipPrecedeNodes : IpMap) (nodes : List Node) (n : Node) :
    scanNodes ipPrecedeNodes (nodes++[n]) =
      scanNode ipPrecedeNodes (scanNodes ipPrecedeNodes nodes) n := by
  rw [scanNodes,List.foldl_append]
  rfl

/-- The two variables of the scan hold what was seen last. -/
theorem scanNodes_carried (ipPrecedeNodes : IpMap) (nodes : List Node) :
    (scanNodes ipPrecedeNodes nodes).internIP = carried .internalIP nodes ∧
      (scanNodes ipPrecedeNodes nodes).hostName = carried .hostName nodes := by
  induction nodes using List.reverseRecOn with
  | nil => exact ⟨rfl,rfl⟩
  | append_singleton nodes n ih =>
    rw [scanNodes_snoc,carried_snoc,carried_snoc,← ih.1,← ih.2]
    simp [scanNode,scanAddress_foldl]

/-- The step of the scan on the map: the carried pair is written unless the
carried address is empty. -/
theorem ipCurrentNodes_snoc (ipPrecedeNodes : IpMap) (nodes : List Node) (n : Node) :
    (scanNodes ipPrecedeNodes (nodes++[n])).ipCurrentNodes =
      if carried .internalIP (nodes++[n]) = "" then (scanNodes ipPrecedeNodes nodes).ipCurrentNodes
      else Function.update (scanNodes ipPrecedeNodes nodes).ipCurrentNodes
        (carried .internalIP (nodes++[n])) (some (carried .hostName (nodes++[n]))) := by
  obtain ⟨hip,hname⟩ := scanNodes_carried ipPrecedeNodes nodes
  rw [scanNodes_snoc,scanNode,recordNode_ipCurrentNodes,scanAddress_foldl,hip,hname,
    carried_snoc,carried_snoc]

/-- The carried pair is an entry of the map. -/
theorem ipCurrentNodes_carried (ipPrecedeNodes : IpMap) (nodes : List Node)
    (h : carried .internalIP nodes ≠ "") :
    (scanNodes ipPrecedeNodes nodes).ipCurrentNodes (carried .internalIP nodes) =
      some (carried .hostName nodes) := by
  induction nodes using List.reverseRecOn with
  | nil => exact absurd rfl h
  | append_singleton nodes n _ => rw [ipCurrentNodes_snoc,if_neg h,Function.update_self]

/-- A node without an internal address leaves the map alone exactly when no
address is carried yet or it brings no other host name. -/
theorem silent_iff (ipPrecedeNodes : IpMap) (nodes : List Node) (n : Node)
    (hn : Lacks .internalIP n) :
    (scanNodes ipPrecedeNodes (nodes++[n])).ipCurrentNodes =
      (scanNodes ipPrecedeNodes nodes).ipCurrentNodes ↔
    (carried .internalIP nodes = "" ∨ carried .hostName (nodes++[n]) = carried .hostName nodes) := by
  have hip : carried .internalIP (nodes++[n]) = carried .internalIP nodes := by
    rw [carried_snoc,(lastOf_eq_none _ _).mpr hn,Option.getD_none]
  rw [ipCurrentNodes_snoc,hip]
  by_cases h : carried .internalIP nodes = ""
  · simp [h]
  · rw [if_neg h,Function.update_eq_self_iff,ipCurrentNodes_carried ipPrecedeNodes nodes h]
    simp [h]

/-- The node after `pre` is the last one with the address `ip`. -/
def LastWith (nodes : List Node) (ip : String) (pre : List Node) (n : Node) : Prop :=
  ip ≠ "" ∧ lastOf .internalIP n.addresses = some ip ∧
    ∃ post, nodes = pre++n::post ∧ ∀ m ∈ post, lastOf .internalIP m.addresses ≠ some ip

theorem not_lastWith_nil (ip : String) (pre : List Node) (n : Node) : ¬LastWith [] ip pre n := by
  rintro ⟨-,-,post,h,-⟩
  simp at h

/-- A list ends in the last node with an address, or its last node has another
one and the question is about the rest. -/
theorem lastWith_snoc (nodes : List Node) (m : Node) (ip : String) (pre : List Node) (n : Node) :
    LastWith (nodes++[m]) ip pre n ↔
      (ip ≠ "" ∧ lastOf .internalIP m.addresses = some ip ∧ pre = nodes ∧ n = m) ∨
      (lastOf .internalIP m.addresses ≠ some ip ∧ LastWith nodes ip pre n) := by
  constructor
  · rintro ⟨hip,hn,post,hnodes,hpost⟩
    rcases List.eq_nil_or_concat post with rfl | ⟨post,k,rfl⟩
    · obtain ⟨rfl,rfl⟩ : nodes = pre ∧ m = n := by simpa using List.append_inj' hnodes rfl
      exact .inl ⟨hip,hn,rfl,rfl⟩
    · rw [List.concat_eq_append] at hnodes hpost
      obtain ⟨rfl,hk⟩ := List.append_inj' (hnodes.trans (List.append_assoc pre (n::post) [k]).symm) rfl
      obtain rfl : m = k := by simpa using hk
      refine .inr ⟨hpost m (by simp),hip,hn,post,rfl,fun x hx => hpost x (by simp [hx])⟩
  · rintro (⟨hip,hm,rfl,rfl⟩ | ⟨hm,hip,hn,post,rfl,hpost⟩)
    · exact ⟨hip,hm,[],rfl,by simp⟩
    · refine ⟨hip,hn,post++[m],by simp,fun x hx => ?_⟩
      rcases List.mem_append.mp hx with hx | hx
      · exact hpost x hx
      · rwa [List.mem_singleton.mp hx]

/-- As long as the nodes without an internal address are silent, an entry is
the one of the last node with its address. -/
theorem entry_iff (ipPrecedeNodes : IpMap) (nodes : List Node) (ip name : String)
    (hsilent : ∀ pre n post, nodes = pre++n::post → Lacks .internalIP n →
      (scanNodes ipPrecedeNodes (pre++[n])).ipCurrentNodes =
        (scanNodes ipPrecedeNodes pre).ipCurrentNodes) :
    (scanNodes ipPrecedeNodes nodes).ipCurrentNodes ip = some name ↔
      ∃ pre n, LastWith nodes ip pre n ∧ carried .hostName (pre++[n]) = name := by
  induction nodes using List.reverseRecOn with
  | nil => simp [scanNodes,not_lastWith_nil]
  | append_singleton nodes m ih =>
    have hrest := ih fun pre n post h => hsilent pre n (post++[m]) (by simp [h])
    simp only [lastWith_snoc]
    cases hm : lastOf .internalIP m.addresses with
    | none =>
      rw [hsilent nodes m [] rfl ((lastOf_eq_none _ _).mp hm),hrest]
      simp
    | some q =>
      have hq : carried .internalIP (nodes++[m]) = q := by rw [carried_snoc,hm,Option.getD_some]
      rw [ipCurrentNodes_snoc,hq]
      by_cases hempty : q = ""
      · -- An empty address is skipped, and it is no entry's address.
        rw [if_pos hempty,hrest,hempty]
        by_cases hip : ip = ""
        · simp [hip,LastWith]
        · have hne : ¬"" = ip := fun h => hip h.symm
          simp [hne]
      · rw [if_neg hempty]
        by_cases hip : ip = q
        · subst hip
          rw [Function.update_self]
          simp [hempty]
        · rw [Function.update_of_ne hip,hrest]
          have hne : ¬q = ip := fun h => hip h.symm
          simp [hne]

/-- The entries are right exactly when a node without an internal address never
brings another host name after an address was seen, and the last node with an
address has a host name of its own unless the carried one fits as well. -/
theorem attributed_iff (ipPrecedeNodes : IpMap) (nodes : List Node) :
    Attributed ipPrecedeNodes nodes ↔
      (∀ pre n post, nodes = pre++n::post → Lacks .internalIP n →
        carried .internalIP pre = "" ∨ carried .hostName (pre++[n]) = carried .hostName pre) ∧
      (∀ ip pre n, LastWith nodes ip pre n → Lacks .hostName n →
        FromOneNode nodes ip (carried .hostName pre)) := by
  constructor
  · intro h
    refine ⟨fun pre n post hnodes hn => (silent_iff ipPrecedeNodes pre n hn).mp
      (h.silent pre n post hnodes hn),fun ip pre n hlast hn => h.entries ip _ ?_⟩
    refine (entry_iff ipPrecedeNodes nodes ip _ h.silent).mpr ⟨pre,n,hlast,?_⟩
    rw [carried_snoc,(lastOf_eq_none _ _).mpr hn,Option.getD_none]
  · rintro ⟨hip,hname⟩
    have hsilent : ∀ pre n post, nodes = pre++n::post → Lacks .internalIP n →
        (scanNodes ipPrecedeNodes (pre++[n])).ipCurrentNodes =
          (scanNodes ipPrecedeNodes pre).ipCurrentNodes :=
      fun pre n post hnodes hn =>
        (silent_iff ipPrecedeNodes pre n hn).mpr (hip pre n post hnodes hn)
    refine ⟨fun ip name hentry => ?_,hsilent⟩
    obtain ⟨pre,n,hlast,rfl⟩ := (entry_iff ipPrecedeNodes nodes ip name hsilent).mp hentry
    rw [carried_snoc]
    cases hown : lastOf .hostName n.addresses with
    | none => exact hname ip pre n hlast ((lastOf_eq_none _ _).mp hown)
    | some own =>
      obtain ⟨-,haddress,post,hnodes,-⟩ := hlast
      exact ⟨n,by simp [hnodes],mem_of_lastOf _ _ _ haddress,.inl (mem_of_lastOf _ _ _ hown)⟩

/-- The second node has no host name and gets the one of the first. -/
def namelessNodes : List Node :=
  [⟨[⟨.internalIP,"10.0.0.1"⟩,⟨.hostName,"a"⟩]⟩,⟨[⟨.internalIP,"10.0.0.2"⟩]⟩]

/-- The second node has no internal address and renames the first. -/
def addresslessNodes : List Node :=
  [⟨[⟨.internalIP,"10.0.0.1"⟩,⟨.hostName,"a"⟩]⟩,⟨[⟨.hostName,"b"⟩]⟩]

theorem not_attributed : ¬Attributed (fun _ => none) namelessNodes ∧
    ¬Attributed (fun _ => none) addresslessNodes :=
  ⟨fun h => absurd (h.entries "10.0.0.2" "a" (by decide)) (by decide),
    fun h => absurd (h.entries "10.0.0.1" "b" (by decide)) (by decide)⟩

end FreeFlow.NodeEntries
