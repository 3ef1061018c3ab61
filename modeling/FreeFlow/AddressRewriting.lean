import FreeFlow.ByteMemory
import FreeFlow.VipResolution

/-!
# Rewriting of socket addresses

Four requests of the connection manager carry socket addresses. Before the
router forwards their command it passes a pointer into each address to `map_vip`,
which takes the four bytes it finds there for an IPv4 address.

`get_in_addr` points to the IPv4 address of a socket address of family `AF_INET`
and to the IPv6 address of any other. `CM_BIND_IP` does not ask for the family.
-/

set_option autoImplicit false

namespace FreeFlow.AddressRewriting

open ByteMemory DottedQuad PodMirror VipResolution

inductive Request
  | bindIp
  | bind
  | resolveIp
  | resolveAddr
  deriving DecidableEq

/-- Where the command holds its socket addresses. -/
def Request.sockaddrs : Request → List ℕ
  | .bindIp => [16]
  | .bind => [16]
  | .resolveIp => [8,36]
  | .resolveAddr => [24,152]

/-- `sizeof(struct sockaddr_in6)` or `sizeof(struct sockaddr_storage)`. -/
def Request.size : Request → ℕ
  | .bindIp => 28
  | .bind => 128
  | .resolveIp => 28
  | .resolveAddr => 128

def afInet : BitVec 16 := 2

def saFamily (m : Memory) (sa : ℕ) : BitVec 16 := m (sa+1)++m sa

/-- `sin_addr` is at offset 4, `sin6_addr` at offset 8. -/
def getInAddr (m : Memory) (sa : ℕ) : ℕ := if saFamily m sa = afInet then sa+4 else sa+8

/-- The pointer a request passes to `map_vip`. -/
def Request.inAddr (r : Request) (m : Memory) (sa : ℕ) : ℕ :=
  match r with
  | .bindIp => sa+4
  | _ => getInAddr m sa

def readAddr (m : Memory) (p : ℕ) : Addr :=
  ⟨(m p).toFin,(m (p+1)).toFin,(m (p+2)).toFin,(m (p+3)).toFin⟩

def addrBytes (x : Addr) : List (BitVec 8) := [.ofFin x.a,.ofFin x.b,.ofFin x.c,.ofFin x.d]

/-- `map_vip` on the memory: `inet_pton` writes only an address it could read. -/
def mapVipAt (vipMap : IpMap) (m : Memory) (p : ℕ) : Memory :=
  match (vipMap (ntop (readAddr m p))).bind pton with
  | some x => put m p (addrBytes x)
  | none => m

def rewrite (r : Request) (vipMap : IpMap) (m : Memory) (sa : ℕ) : Memory :=
  mapVipAt vipMap m (r.inAddr m sa)

def forward (r : Request) (vipMap : IpMap) (m : Memory) : Memory :=
  r.sockaddrs.foldl (rewrite r vipMap) m

/-- What a socket address should become: the four bytes of an IPv4 address are
mapped. -/
def mapped (vipMap : IpMap) (m : Memory) (sa : ℕ) : Memory :=
  if saFamily m sa = afInet then mapVipAt vipMap m (sa+4) else m

def Request.bytes (r : Request) (sa a : ℕ) : Prop := sa ≤ a ∧ a < sa+r.size

/-- Every socket address of the request is forwarded as it should be. -/
def RewritesIpv4 (r : Request) (vipMap : IpMap) (m : Memory) : Prop :=
  ∀ sa ∈ r.sockaddrs, Agree (r.bytes sa) (mapped vipMap m sa) (forward r vipMap m)

theorem addrBytes_length (x : Addr) : (addrBytes x).length = 4 := rfl

theorem agree_mapVipAt (vipMap : IpMap) (m : Memory) (p : ℕ) (region : ℕ → Prop)
    (hp : ∀ a, region a → a < p ∨ p+4 ≤ a) : Agree region m (mapVipAt vipMap m p) := by
  unfold mapVipAt
  split
  · exact agree_put m p _ hp
  · exact Agree.refl m

theorem readAddr_congr (m m' : Memory) (p : ℕ) (h : ∀ a, p ≤ a → a < p+4 → m' a = m a) :
    readAddr m' p = readAddr m p := by
  simp only [readAddr,h p (by omega) (by omega),h (p+1) (by omega) (by omega),
    h (p+2) (by omega) (by omega),h (p+3) (by omega) (by omega)]

theorem readAddr_put (m : Memory) (p : ℕ) (x : Addr) : readAddr (put m p (addrBytes x)) p = x := by
  simp [readAddr,put,addrBytes]

theorem put_readAddr (m : Memory) (p : ℕ) : put m p (addrBytes (readAddr m p)) = m := by
  funext a
  by_cases hin : p ≤ a ∧ a < p+4
  · obtain ⟨k,rfl⟩ : ∃ k, a = p+k := ⟨a-p,by omega⟩
    have hk : k < 4 := by omega
    interval_cases k <;> simp [put,addrBytes,readAddr]
  · exact agree_put m p _ (fun b (hb : b = a) => by rw [addrBytes_length]; omega) a rfl

theorem mapVipAt_eq (vipMap : IpMap) (m : Memory) (p : ℕ) :
    mapVipAt vipMap m p = put m p (addrBytes (mapVip vipMap (readAddr m p))) := by
  unfold mapVipAt mapVip
  cases hdip : vipMap (ntop (readAddr m p)) with
  | none => simp [put_readAddr]
  | some dip => cases hx : pton dip <;> simp [hx,put_readAddr]

/-- It leaves the bytes alone exactly when the map sends the address to itself. -/
theorem mapVipAt_same_iff (vipMap : IpMap) (m : Memory) (p : ℕ) :
    (∀ a, p ≤ a → a < p+4 → mapVipAt vipMap m p a = m a) ↔
      mapVip vipMap (readAddr m p) = readAddr m p := by
  constructor
  · intro h
    have hread := readAddr_congr m _ p h
    rwa [mapVipAt_eq,readAddr_put] at hread
  · intro h a _ _
    rw [mapVipAt_eq,h,put_readAddr]

theorem size_ge (r : Request) : 28 ≤ r.size := by cases r <;> decide

theorem inAddr_of_inet (r : Request) (m : Memory) (sa : ℕ) (h : saFamily m sa = afInet) :
    r.inAddr m sa = sa+4 := by
  cases r <;> simp [Request.inAddr,getInAddr,h]

theorem inAddr_cases (r : Request) (m : Memory) (sa : ℕ) :
    r.inAddr m sa = sa+4 ∨ r.inAddr m sa = sa+8 := by
  by_cases h : saFamily m sa = afInet
  · exact .inl (inAddr_of_inet r m sa h)
  · cases r <;> simp [Request.inAddr,getInAddr,h]

theorem inAddr_bounds (r : Request) (m : Memory) (sa : ℕ) :
    sa ≤ r.inAddr m sa ∧ r.inAddr m sa+4 ≤ sa+r.size := by
  have hsize := size_ge r
  have hcases := inAddr_cases r m sa
  omega

section

variable {r : Request} {vipMap : IpMap} {m m' : Memory} {sa : ℕ}

theorem inAddr_congr (h : Agree (r.bytes sa) m m') : r.inAddr m' sa = r.inAddr m sa := by
  have hsize := size_ge r
  have hfamily : saFamily m' sa = saFamily m sa := by
    rw [saFamily,saFamily,h sa ⟨by omega,by omega⟩,h (sa+1) ⟨by omega,by omega⟩]
  cases r <;> simp [Request.inAddr,getInAddr,hfamily]

/-- What a rewrite makes of a socket address depends on its bytes alone. -/
theorem rewrite_congr (h : Agree (r.bytes sa) m m') :
    Agree (r.bytes sa) (rewrite r vipMap m sa) (rewrite r vipMap m' sa) := by
  obtain ⟨hlo,hhi⟩ := inAddr_bounds r m sa
  have hread : readAddr m' (r.inAddr m sa) = readAddr m (r.inAddr m sa) :=
    readAddr_congr m m' _ fun a ha ha' => h a ⟨by omega,by omega⟩
  intro a ha
  simp only [rewrite,inAddr_congr h,mapVipAt_eq,hread,put]
  split
  · rw [h a ha]
  · exact h a ha

theorem rewrite_frame (region : ℕ → Prop) (hdisjoint : ∀ a, region a → ¬r.bytes sa a) :
    Agree region m (rewrite r vipMap m sa) := by
  obtain ⟨hlo,hhi⟩ := inAddr_bounds r m sa
  refine agree_mapVipAt vipMap m _ region fun a ha => ?_
  have hout := hdisjoint a ha
  simp only [Request.bytes] at hout
  omega

theorem rewriteAll_frame (region : ℕ → Prop) (sas : List ℕ)
    (hdisjoint : ∀ sa ∈ sas, ∀ a, region a → ¬r.bytes sa a) :
    Agree region m (sas.foldl (rewrite r vipMap) m) := by
  induction sas generalizing m with
  | nil => exact Agree.refl m
  | cons sa sas ih =>
    rw [List.forall_mem_cons] at hdisjoint
    exact (rewrite_frame region hdisjoint.1).trans (ih hdisjoint.2)

/-- Socket addresses that do not overlap are rewritten each by itself. -/
theorem rewriteAll_eq (sas : List ℕ) (hsas : sas.Pairwise fun p q => p+r.size ≤ q)
    (hsa : sa ∈ sas) :
    Agree (r.bytes sa) (rewrite r vipMap m sa) (sas.foldl (rewrite r vipMap) m) := by
  induction sas generalizing m with
  | nil => cases hsa
  | cons p sas ih =>
    rw [List.pairwise_cons] at hsas
    rcases List.mem_cons.mp hsa with rfl | hmem
    · refine rewriteAll_frame _ sas fun q hq a ha hb => ?_
      have hgap := hsas.1 q hq
      simp only [Request.bytes] at ha hb
      omega
    · have hkeep : Agree (r.bytes sa) m (rewrite r vipMap m p) := by
        refine rewrite_frame _ fun a ha hb => ?_
        have hgap := hsas.1 sa hmem
        simp only [Request.bytes] at ha hb
        omega
      exact (rewrite_congr hkeep).trans (ih hsas.2 hmem)

end

/-- One socket address: IPv4 addresses are right, and others are right where the
map sends the four bytes to themselves. -/
theorem rewrite_agree_iff (r : Request) (vipMap : IpMap) (m : Memory) (sa : ℕ) :
    Agree (r.bytes sa) (mapped vipMap m sa) (rewrite r vipMap m sa) ↔
      (saFamily m sa ≠ afInet →
        mapVip vipMap (readAddr m (r.inAddr m sa)) = readAddr m (r.inAddr m sa)) := by
  obtain ⟨hlo,hhi⟩ := inAddr_bounds r m sa
  by_cases hfamily : saFamily m sa = afInet
  · simp only [rewrite,mapped,if_pos hfamily,inAddr_of_inet r m sa hfamily]
    simp [hfamily,Agree]
  · simp only [rewrite,mapped,ne_eq,hfamily,not_false_eq_true,true_imp_iff,
      ← mapVipAt_same_iff]
    constructor
    · exact fun h a ha ha' => h a ⟨by omega,by omega⟩
    · intro h a ha
      by_cases hin : r.inAddr m sa ≤ a ∧ a < r.inAddr m sa+4
      · exact h a hin.1 hin.2
      · exact agree_mapVipAt vipMap m _ (fun b => b = a) (fun b hb => by omega) a rfl

/-- The map has no entry for an address with the text of another one. -/
def Unmapped (vipMap : IpMap) (x : Addr) : Prop :=
  ∀ dip y, vipMap (ntop x) = some dip → pton dip = some y → y = x

theorem mapVip_eq_self_iff (vipMap : IpMap) (x : Addr) :
    mapVip vipMap x = x ↔ Unmapped vipMap x := by
  unfold mapVip Unmapped
  cases hentry : vipMap (ntop x) with
  | none => simp
  | some dip =>
    simp only [Option.some.injEq,forall_eq',forall_comm (α := Addr)]
    cases hdip : pton dip <;> simp

/-- A request is forwarded as it should be exactly when the map has no entry, for
the four bytes it finds in each address of another family, with the text of another
address. -/
theorem rewritesIpv4_iff (r : Request) (vipMap : IpMap) (m : Memory) :
    RewritesIpv4 r vipMap m ↔ ∀ sa ∈ r.sockaddrs, saFamily m sa ≠ afInet →
      Unmapped vipMap (readAddr m (r.inAddr m sa)) := by
  have hsas : r.sockaddrs.Pairwise fun p q => p+r.size ≤ q := by cases r <;> decide
  refine forall₂_congr fun sa hsa => ?_
  have hforward := @rewriteAll_eq r vipMap m sa r.sockaddrs hsas hsa
  rw [← mapVip_eq_self_iff,← rewrite_agree_iff r vipMap m sa]
  constructor
  · exact fun h a ha => (hforward a ha).symm.trans (h a ha)
  · exact fun h => h.trans hforward

/-- A command with an IPv6 address that begins with the bytes of 10.0.0.1, and the
same bytes where an IPv4 address would be. -/
def ipv6Command : Memory := put (fun _ => 0) 16 [10,0,0,0,10,0,0,1,10,0,0,1]

def oneVip : IpMap := fun vip => if vip = "10.0.0.1" then some "192.168.0.7" else none

theorem ipv6_rewritten :
    ¬RewritesIpv4 .bind oneVip ipv6Command ∧ ¬RewritesIpv4 .bindIp oneVip ipv6Command :=
  ⟨fun h => absurd (h 16 (by decide) 24 ⟨by decide,by decide⟩) (by decide),
    fun h => absurd (h 16 (by decide) 20 ⟨by decide,by decide⟩) (by decide)⟩

end FreeFlow.AddressRewriting
