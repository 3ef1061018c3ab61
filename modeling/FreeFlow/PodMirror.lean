import FreeFlow.Runs
import FreeFlow.KeyValue
import Mathlib.Data.String.Basic
import Mathlib.Data.List.Induction

/-!
# The pod map in etcd

`ipMap2Etcd` scans a pod list, remembers the whole map of the round and the
part of it that changed, puts the changed entries and deletes the entries of
the previous round that disappeared. Go leaves the order of both loops open;
a round therefore carries the two orders. Etcd answers every call.

The scan drops an entry from the changed part only by not adding it. An
entry added for an earlier pod with the same address stays.
-/

set_option autoImplicit false

namespace FreeFlow.PodMirror

open KeyValue Runs

abbrev IpMap := String → Option String

structure Pod where
  podIP : String
  hostIP : String
  deriving DecidableEq

/-- `ipMapKeyDir`. -/
def ipMapKeyDir : String := "Microsoft/FreeFlow/"

def Pod.Published (p : Pod) : Prop := ¬(p.podIP.length = 0 ∨ p.hostIP.length = 0)

instance (p : Pod) : Decidable p.Published := by unfold Pod.Published; infer_instance

structure Scan where
  ipCurrentMap : IpMap
  ipChangedMap : IpMap

def scanPod (ipPrecedeMap : IpMap) (s : Scan) (pod : Pod) : Scan :=
  if pod.podIP.length = 0 ∨ pod.hostIP.length = 0 then s
  else
    let ipCurrentMap := Function.update s.ipCurrentMap pod.podIP (some pod.hostIP)
    if ipPrecedeMap pod.podIP = some pod.hostIP then ⟨ipCurrentMap,s.ipChangedMap⟩
    else ⟨ipCurrentMap,Function.update s.ipChangedMap pod.podIP (some pod.hostIP)⟩

def scanPods (ipPrecedeMap : IpMap) (pods : List Pod) : Scan :=
  pods.foldl (scanPod ipPrecedeMap) ⟨fun _ => none,fun _ => none⟩

/-- A pod list with the orders of the two loops of the round. -/
structure Round where
  pods : List Pod
  changedOrder : List String
  precedeOrder : List String

structure Hunter where
  etcd : IpMap
  ipPrecedeMap : IpMap

/-- The puts of the changed entries and the deletes of the entries that
disappeared, under a key directory. -/
def publishOps (dir : String) (current changed : IpMap) (changedOrder precedeOrder : List String) :
    List (Op String String) :=
  putOps (dir++·) changed changedOrder ++
    deleteOps (dir++·) (fun k => (current k).isNone) precedeOrder

/-- The calls a round makes to etcd, in order. -/
def roundOps (ipPrecedeMap : IpMap) (r : Round) : List (Op String String) :=
  let s := scanPods ipPrecedeMap r.pods
  publishOps ipMapKeyDir s.ipCurrentMap s.ipChangedMap r.changedOrder r.precedeOrder

def ipMap2Etcd (h : Hunter) (r : Round) : Hunter :=
  ⟨applyAll h.etcd (roundOps h.ipPrecedeMap r),(scanPods h.ipPrecedeMap r.pods).ipCurrentMap⟩

def roundStep (h : Hunter) (r : Round) : Option Hunter := some (ipMap2Etcd h r)

structure Ranges (h : Hunter) (r : Round) : Prop where
  changed : Enumerates r.changedOrder (scanPods h.ipPrecedeMap r.pods).ipChangedMap
  precede : Enumerates r.precedeOrder h.ipPrecedeMap

/-- Under the key directory etcd holds the recorded map and nothing else. -/
def Mirrors (h : Hunter) : Prop := ∀ ip, h.etcd (ipMapKeyDir++ip) = h.ipPrecedeMap ip

/-- The host of the last published pod of a list with the address. -/
def lastHost (pods : List Pod) (ip : String) : Option String :=
  (pods.filter fun p => p.Published ∧ p.podIP = ip).getLast?.map Pod.hostIP

/-- No address of the list keeps its recorded host through the last pod
that carries it while another pod of the list gives it another host. -/
def Agreeing (ipPrecedeMap : IpMap) (pods : List Pod) : Prop :=
  ∀ ip host, ipPrecedeMap ip = some host → lastHost pods ip = some host →
    ∀ p ∈ pods, p.Published → p.podIP = ip → p.hostIP = host

theorem lastHost_snoc (pods : List Pod) (p : Pod) (ip : String) :
    lastHost (pods++[p]) ip =
      if p.Published ∧ p.podIP = ip then some p.hostIP else lastHost pods ip := by
  by_cases h : p.Published ∧ p.podIP = ip <;> simp [lastHost,h]

theorem lastHost_eq_none (pods : List Pod) (ip : String) :
    lastHost pods ip = none ↔ ∀ p ∈ pods, p.Published → p.podIP ≠ ip := by
  simp [lastHost]

theorem lastHost_mem (pods : List Pod) (ip host : String) (h : lastHost pods ip = some host) :
    ∃ p ∈ pods, p.Published ∧ p.podIP = ip ∧ p.hostIP = host := by
  obtain ⟨p,hp,rfl⟩ := Option.map_eq_some_iff.mp h
  have hmem := List.mem_of_getLast? hp
  simp only [List.mem_filter,decide_eq_true_eq] at hmem
  exact ⟨p,hmem.1,hmem.2.1,hmem.2.2,rfl⟩

/-- The pods of a list that the scan does not skip as unchanged. -/
def changedPods (ipPrecedeMap : IpMap) (pods : List Pod) : List Pod :=
  pods.filter fun p => ipPrecedeMap p.podIP ≠ some p.hostIP

theorem changedPods_snoc (m : IpMap) (pods : List Pod) (p : Pod) :
    changedPods m (pods++[p]) =
      if m p.podIP = some p.hostIP then changedPods m pods else changedPods m pods++[p] := by
  by_cases h : m p.podIP = some p.hostIP <;> simp [changedPods,h]

theorem scanPod_current (m : IpMap) (s : Scan) (p : Pod) (ip : String) :
    (scanPod m s p).ipCurrentMap ip =
      if p.Published ∧ p.podIP = ip then some p.hostIP else s.ipCurrentMap ip := by
  unfold scanPod
  by_cases hp : p.podIP.length = 0 ∨ p.hostIP.length = 0
  · rw [if_pos hp,if_neg fun h => h.1 hp]
  · rw [if_neg hp]
    have hpub : p.Published := hp
    split <;> simp [hpub,Function.update_apply,eq_comm]

theorem scanPod_changed (m : IpMap) (s : Scan) (p : Pod) (ip : String) :
    (scanPod m s p).ipChangedMap ip =
      if m p.podIP = some p.hostIP then s.ipChangedMap ip
      else if p.Published ∧ p.podIP = ip then some p.hostIP else s.ipChangedMap ip := by
  unfold scanPod
  by_cases hp : p.podIP.length = 0 ∨ p.hostIP.length = 0
  · have hnot : ¬(p.Published ∧ p.podIP = ip) := fun h => h.1 hp
    rw [if_pos hp,if_neg hnot,ite_self]
  · rw [if_neg hp]
    have hpub : p.Published := hp
    by_cases hm : m p.podIP = some p.hostIP
    · rw [if_pos hm,if_pos hm]
    · simp [hm,hpub,Function.update_apply,eq_comm]

theorem scanPods_snoc (m : IpMap) (pods : List Pod) (p : Pod) :
    scanPods m (pods++[p]) = scanPod m (scanPods m pods) p := by
  simp [scanPods]

theorem current_eq (m : IpMap) (pods : List Pod) (ip : String) :
    (scanPods m pods).ipCurrentMap ip = lastHost pods ip := by
  induction pods using List.reverseRecOn with
  | nil => rfl
  | append_singleton pods p ih => rw [scanPods_snoc,scanPod_current,lastHost_snoc,ih]

theorem changed_eq (m : IpMap) (pods : List Pod) (ip : String) :
    (scanPods m pods).ipChangedMap ip = lastHost (changedPods m pods) ip := by
  induction pods using List.reverseRecOn with
  | nil => rfl
  | append_singleton pods p ih =>
    rw [scanPods_snoc,scanPod_changed,changedPods_snoc]
    split
    · exact ih
    · rw [lastHost_snoc,ih]

theorem changed_old (m : IpMap) (pods : List Pod) (ip host : String)
    (h : lastHost (changedPods m pods) ip = some host) : m ip ≠ some host := by
  obtain ⟨p,hp,-,rfl,rfl⟩ := lastHost_mem _ ip host h
  simpa using (List.mem_filter.mp hp).2

/-- An address whose last pod brings a new host is put with that host. -/
theorem changed_new (m : IpMap) (pods : List Pod) (ip host : String)
    (hlast : lastHost pods ip = some host) (hold : m ip ≠ some host) :
    lastHost (changedPods m pods) ip = some host := by
  induction pods using List.reverseRecOn with
  | nil => simp [lastHost] at hlast
  | append_singleton pods p ih =>
    rw [lastHost_snoc] at hlast
    rw [changedPods_snoc]
    by_cases hp : p.Published ∧ p.podIP = ip
    · obtain rfl : p.hostIP = host := by simpa [hp] using hlast
      rw [if_neg (by rwa [hp.2]),lastHost_snoc,if_pos hp]
    · rw [if_neg hp] at hlast
      split
      · exact ih hlast
      · rw [lastHost_snoc,if_neg hp]
        exact ih hlast

theorem changed_sub (m : IpMap) (pods : List Pod) (ip : String)
    (h : lastHost pods ip = none) : lastHost (changedPods m pods) ip = none := by
  rw [lastHost_eq_none] at h ⊢
  intro p hp
  exact h p (List.mem_filter.mp hp).1

/-- An address whose last pod repeats the recorded host is put unless all
its pods repeat it. -/
theorem changed_none_iff (m : IpMap) (pods : List Pod) (ip host : String)
    (hold : m ip = some host) : lastHost (changedPods m pods) ip = none ↔
      ∀ p ∈ pods, p.Published → p.podIP = ip → p.hostIP = host := by
  rw [lastHost_eq_none]
  constructor
  · intro h p hp hpub hip
    by_contra hne
    have hch : m p.podIP ≠ some p.hostIP := by
      rw [hip,hold]
      exact fun h => hne (Option.some.inj h).symm
    exact h p (List.mem_filter.mpr ⟨hp,by simpa using hch⟩) hpub hip
  · intro h p hp hpub hip
    obtain ⟨hmem,hch⟩ := List.mem_filter.mp hp
    simp [hip,hold,h p hmem hpub hip] at hch

theorem publishOps_key (dir : String) (current changed : IpMap) (xs ys : List String)
    (op : Op String String) (h : op ∈ publishOps dir current changed xs ys) :
    ∃ k, op.key = dir++k := by
  rcases List.mem_append.mp h with h | h
  · obtain ⟨k,-,v,-,rfl⟩ := (mem_putOps _ _ _ op).mp h
    exact ⟨k,rfl⟩
  · obtain ⟨k,-,-,rfl⟩ := (mem_deleteOps _ _ _ op).mp h
    exact ⟨k,rfl⟩

theorem key_injective : Function.Injective (ipMapKeyDir++·) :=
  fun _ _ h => (String.append_right_inj ipMapKeyDir).mp h

theorem etcd_after (h : Hunter) (r : Round) (hr : Ranges h r) (ip : String) :
    (ipMap2Etcd h r).etcd (ipMapKeyDir++ip) =
      if (h.ipPrecedeMap ip).isSome ∧ lastHost r.pods ip = none then none
      else (lastHost (changedPods h.ipPrecedeMap r.pods) ip).or (h.etcd (ipMapKeyDir++ip)) := by
  have hput := applyAll_putOps _ key_injective _ h.etcd _ hr.changed ip
  change applyAll h.etcd (roundOps h.ipPrecedeMap r) (ipMapKeyDir++ip) = _
  rw [roundOps,publishOps,applyAll_append]
  refine (applyAll_deleteOps _ key_injective _ _ r.precedeOrder ip).trans ?_
  simp only [hput,hr.precede.mem_iff,current_eq,changed_eq,Option.isNone_iff_eq_none]

theorem precede_after (h : Hunter) (r : Round) (ip : String) :
    (ipMap2Etcd h r).ipPrecedeMap ip = lastHost r.pods ip := current_eq _ _ ip

/-- A round that starts from a mirrored map keeps it mirrored exactly when
its list agrees with that map. -/
theorem mirrors_iff_agreeing (h : Hunter) (r : Round) (hm : Mirrors h) (hr : Ranges h r) :
    Mirrors (ipMap2Etcd h r) ↔ Agreeing h.ipPrecedeMap r.pods := by
  constructor
  · intro hafter ip host hold hlast
    have hip := hafter ip
    rw [etcd_after h r hr,precede_after,hm ip,hold,hlast,if_neg (by simp)] at hip
    rw [← changed_none_iff h.ipPrecedeMap r.pods ip host hold]
    cases hch : lastHost (changedPods h.ipPrecedeMap r.pods) ip with
    | none => rfl
    | some other =>
      -- the put of a recorded host contradicts the skip of unchanged pods
      obtain rfl : other = host := by simpa [hch] using hip
      exact absurd hold (changed_old _ _ ip other hch)
  · intro hagree ip
    rw [etcd_after h r hr,precede_after,hm ip]
    cases hlast : lastHost r.pods ip with
    | none =>
      rw [changed_sub _ _ ip hlast]
      cases h.ipPrecedeMap ip <;> rfl
    | some host =>
      rw [if_neg (by simp)]
      by_cases hold : h.ipPrecedeMap ip = some host
      · rw [(changed_none_iff _ _ ip host hold).mpr (hagree ip host hold hlast),hold]
        rfl
      · rw [changed_new _ _ ip host hlast hold]
        rfl

def started (etcd : IpMap) : Hunter := ⟨etcd,fun _ => none⟩

/-- Over a run of rounds etcd mirrors the recorded map after every round
exactly when every list agrees with the map recorded before it. -/
theorem etcd_mirrors_iff (etcd : IpMap) (hempty : ∀ ip, etcd (ipMapKeyDir++ip) = none)
    (rounds : List Round) (hr : Along roundStep Ranges (started etcd) rounds) :
    Along roundStep (fun h r => Mirrors (ipMap2Etcd h r)) (started etcd) rounds ↔
      Along roundStep (fun h r => Agreeing h.ipPrecedeMap r.pods) (started etcd) rounds := by
  refine along_congr roundStep Ranges _ _ Mirrors ?_ ?_ (started etcd) rounds hempty hr
  · intro h r hm hr
    exact mirrors_iff_agreeing h r hm hr
  · intro h r t _ _ hafter ht
    obtain rfl : ipMap2Etcd h r = t := by simpa [roundStep] using ht
    exact hafter

def appear : Round := ⟨[⟨"10.1.0.5","192.168.0.1"⟩],["10.1.0.5"],[]⟩

def move : Round := ⟨[⟨"10.1.0.5","192.168.0.2"⟩],["10.1.0.5"],["10.1.0.5"]⟩

/-- Two pods carry the address, the second with the recorded host. -/
def straddle : Round :=
  ⟨[⟨"10.1.0.5","192.168.0.2"⟩,⟨"10.1.0.5","192.168.0.1"⟩],["10.1.0.5"],["10.1.0.5"]⟩

theorem ranges_appear : Ranges (started fun _ => none) appear where
  changed := ⟨by simp [appear],by simp [started,scanPods,appear,scanPod,Function.update_apply]⟩
  precede := ⟨by simp [appear],by simp [started,appear]⟩

theorem appear_precede (ip : String) :
    (ipMap2Etcd (started fun _ => none) appear).ipPrecedeMap ip =
      if ip = "10.1.0.5" then some "192.168.0.1" else none := by
  simp [ipMap2Etcd,started,scanPods,appear,scanPod,Function.update_apply]

theorem ranges_after_appear (pods : List Pod)
    (hpods : pods = move.pods ∨ pods = straddle.pods) :
    Ranges (ipMap2Etcd (started fun _ => none) appear) ⟨pods,["10.1.0.5"],["10.1.0.5"]⟩ where
  changed := by
    refine ⟨by simp,fun k => ?_⟩
    rcases hpods with rfl | rfl <;>
      simp [scanPods,move,straddle,scanPod,appear_precede,Function.update_apply]
  precede := ⟨by simp,fun k => by simp [appear_precede]⟩

theorem moved_pod_mirrored :
    Along roundStep Ranges (started fun _ => none) [appear,move] ∧
    Along roundStep (fun h r => Mirrors (ipMap2Etcd h r)) (started fun _ => none) [appear,move] := by
  have hr : Along roundStep Ranges (started fun _ => none) [appear,move] := by
    refine ⟨ranges_appear,fun t ht => ⟨?_,fun _ _ => trivial⟩⟩
    obtain rfl : _ = t := Option.some.inj ht
    exact ranges_after_appear _ (.inl rfl)
  refine ⟨hr,(etcd_mirrors_iff _ (fun _ => rfl) _ hr).mpr ⟨?_,fun t ht => ⟨?_,fun _ _ => trivial⟩⟩⟩
  · exact fun ip host hold => absurd hold (by simp [started])
  · -- the only pod has left the recorded host
    obtain rfl : _ = t := Option.some.inj ht
    intro ip host hold hlast p hp _ hip
    obtain rfl := List.mem_singleton.mp hp
    obtain rfl : "10.1.0.5" = ip := hip
    rw [appear_precede,if_pos rfl] at hold
    obtain rfl := Option.some.inj hold
    exact absurd hlast (by decide)

/-- A host that an earlier pod of the list brought is put although the last
pod keeps the recorded one. -/
theorem straddled_host_not_mirrored :
    Along roundStep Ranges (started fun _ => none) [appear,straddle] ∧
    ¬Along roundStep (fun h r => Mirrors (ipMap2Etcd h r)) (started fun _ => none)
      [appear,straddle] := by
  constructor
  · refine ⟨ranges_appear,fun t ht => ⟨?_,fun _ _ => trivial⟩⟩
    obtain rfl : _ = t := Option.some.inj ht
    exact ranges_after_appear _ (.inr rfl)
  · intro h
    have hlast := (h.2 _ rfl).1 "10.1.0.5"
    have hput : (ipMap2Etcd (ipMap2Etcd (started fun _ => none) appear) straddle).etcd
        (ipMapKeyDir++"10.1.0.5") = some "192.168.0.2" := by decide
    have hrec : (ipMap2Etcd (ipMap2Etcd (started fun _ => none) appear) straddle).ipPrecedeMap
        "10.1.0.5" = some "192.168.0.1" := by decide
    rw [hput,hrec] at hlast
    exact absurd hlast (by decide)

end FreeFlow.PodMirror
