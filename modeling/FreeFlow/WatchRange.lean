import FreeFlow.Base64
import FreeFlow.KeyValue
import Mathlib.Data.List.ModifyLast
import Mathlib.Order.Fin.Basic

/-!
# The range of a watch

`watch_etcd_kv` asks etcd for the keys from `key` up to `range_end`. Both are
sent in base64. The end is made from the encoded key by adding one to its last
character, where adding one to the last byte of the key was meant.

The two agree only if the last character is no padding and its successor in
ASCII is its successor in the alphabet.
-/

set_option autoImplicit false

namespace FreeFlow.WatchRange

open Base64

def nextChar (c : Char) : Char := Char.ofNat (c.toNat+1)

/-- `encoded_end_key`. -/
def encodedEndKey (key : List (Fin 256)) : List Char := (encode key).modifyLast nextChar

def keyPlusOne (key : List (Fin 256)) : List (Fin 256) := key.modifyLast fun b => byte (b+1)

/-- The end that is sent decodes to the incremented key, and the range holds
the keys that begin with `key`. -/
def WatchesPrefix (key : List (Fin 256)) : Prop :=
  ∃ rangeEnd, decode (encodedEndKey key) = some rangeEnd ∧ rangeEnd = keyPlusOne key ∧
    ∀ x, (key ≤ x ∧ x < rangeEnd) ↔ key <+: x

/-- The sextets whose character is not followed by the one of the next sextet. -/
def breaks : List ℕ := [25,51,61,62,63]

theorem charSextet_nextChar (n : ℕ) (h : n < 64) :
    charSextet (nextChar (sextetChar n)) =
      if n = 63 then some 52 else if n ∈ breaks then none else some (n+1) := by
  have hall : ∀ k : Fin 64, charSextet (nextChar (sextetChar k)) =
      if k.val = 63 then some 52 else if k.val ∈ breaks then none else some (k.val+1) := by decide
  exact hall ⟨n,h⟩

theorem nextChar_ne_pad (n : ℕ) (h : n < 64) : nextChar (sextetChar n) ≠ '=' := by
  have hall : ∀ k : Fin 64, nextChar (sextetChar k) ≠ '=' := by decide
  exact hall ⟨n,h⟩

theorem encode_ne_nil (key : List (Fin 256)) (h : key ≠ []) : encode key ≠ [] := by
  intro hnil
  have hdecode := decode_encode key
  rw [hnil] at hdecode
  exact h (Option.some.inj hdecode).symm

theorem encodedEndKey_cons (a b c : Fin 256) (rest : List (Fin 256)) (h : rest ≠ []) :
    encodedEndKey (a::b::c::rest) = sextetChar (a/4)::sextetChar (a%4*16+b/16)::
      sextetChar (b%16*4+c/64)::sextetChar (c%64)::encodedEndKey rest :=
  List.modifyLast_append_of_right_ne_nil nextChar [_,_,_,_] (encode rest) (encode_ne_nil rest h)

/-- The end of a key of three bytes decodes to the incremented key up to the
breaks of the alphabet. -/
theorem decode_encodedEndKey_three (a b c : Fin 256) :
    decode (encodedEndKey [a,b,c]) = some (keyPlusOne [a,b,c]) ↔ c.val%64 ∉ breaks := by
  have hend : encodedEndKey [a,b,c] = [sextetChar (a/4),sextetChar (a%4*16+b/16),
      sextetChar (b%16*4+c/64),nextChar (sextetChar (c%64))] :=
    List.modifyLast_concat nextChar _ [_,_,_]
  have hplus : keyPlusOne [a,b,c] = [a,b,byte (c+1)] := List.modifyLast_concat _ c [a,b]
  have hnext := charSextet_nextChar (c%64) (by omega)
  have hpad := nextChar_ne_pad (c%64) (by omega)
  rw [hend,hplus]
  by_cases hlast : c.val%64 = 63
  · -- The slash is followed by a digit, so the text decodes to a smaller byte.
    rw [if_pos hlast] at hnext
    have hbyte : byte (c/64%4*64+52) ≠ byte (c+1) := by
      intro h
      have hval := congrArg Fin.val h
      simp only [byte] at hval
      omega
    rw [decode_group a b c 52 _ [] hnext,decode]
    simp [hbyte,hlast,breaks]
  · rw [if_neg hlast] at hnext
    by_cases hbreak : c.val%64 ∈ breaks
    · rw [if_pos hbreak] at hnext
      rw [decode_of_invalid _ _ _ _ hnext hpad]
      simp [hbreak]
    · rw [if_neg hbreak] at hnext
      have hbyte : byte ((b%16*4+c/64)%4*64+(c%64+1)) = byte (c+1) := by
        apply Fin.ext
        simp only [byte]
        omega
      rw [decode_group a b c _ _ [] hnext,decode,Option.map_some,hbyte]
      simp [hbreak]

/-- The end decodes to the incremented key exactly when the last character is
no padding and the alphabet has no break after it. -/
theorem decode_encodedEndKey_iff (key : List (Fin 256)) (hne : key ≠ []) :
    decode (encodedEndKey key) = some (keyPlusOne key) ↔
      key.length%3 = 0 ∧ (key.getLast hne).val%64 ∉ breaks := by
  induction key using encode.induct with
  | case1 => exact absurd rfl hne
  | case2 a =>
    have hend : encodedEndKey [a] = [sextetChar (a/4),sextetChar (a%4*16),'=','>'] :=
      List.modifyLast_concat nextChar '=' [_,_,_]
    rw [hend,decode_of_invalid _ _ _ _ (by decide) (by decide)]
    simp
  | case3 a b =>
    have hend : encodedEndKey [a,b] =
        [sextetChar (a/4),sextetChar (a%4*16+b/16),sextetChar (b%16*4),'>'] :=
      List.modifyLast_concat nextChar '=' [_,_,_]
    rw [hend,decode_of_invalid _ _ _ _ (by decide) (by decide)]
    simp
  | case4 a b c rest ih =>
    cases rest with
    | nil => simpa using decode_encodedEndKey_three a b c
    | cons d rest =>
      have hrest : d::rest ≠ [] := List.cons_ne_nil d rest
      have hplus : keyPlusOne (a::b::c::d::rest) = a::b::c::keyPlusOne (d::rest) :=
        List.modifyLast_append_of_right_ne_nil _ [a,b,c] (d::rest) hrest
      have hgroup := decode_group a b c (c%64) (sextetChar (c%64)) (encodedEndKey (d::rest))
        (charSextet_sextetChar _ (by omega))
      rw [(bytes_of_sextets a b c).2.2] at hgroup
      rw [encodedEndKey_cons a b c (d::rest) hrest,hgroup,hplus]
      have hih := ih hrest
      simp only [List.length_cons,List.getLast_cons_cons] at hih ⊢
      rw [show (rest.length+1+1+1+1)%3 = (rest.length+1)%3 by omega,← hih]
      simp

theorem covBy_succ (b : Fin 256) (h : b.val < 128) : b ⋖ byte (b+1) := by
  have hval : (byte (b+1)).val = b.val+1 := Nat.mod_eq_of_lt (by omega)
  refine ⟨Fin.lt_def.mpr (by omega),fun x hbx hxb => ?_⟩
  rw [Fin.lt_def] at hbx hxb
  omega

/-- The keys that begin with an ASCII key are those up to the incremented key. -/
theorem mem_range_keyPlusOne (key : List (Fin 256)) (hne : key ≠ [])
    (hascii : ∀ b ∈ key, b.val < 128) (x : List (Fin 256)) :
    (key ≤ x ∧ x < keyPlusOne key) ↔ key <+: x := by
  obtain ⟨init,b,rfl⟩ := (List.eq_nil_or_concat key).resolve_left hne
  rw [List.concat_eq_append] at hascii ⊢
  rw [keyPlusOne,List.modifyLast_concat]
  exact KeyValue.mem_range_iff_prefix init b (byte (b+1)) (covBy_succ b (hascii b (by simp))) x

/-- A watch covers the keys that begin with its key exactly when the key has a
length divisible by three and the alphabet has no break after its last sextet. -/
theorem watchesPrefix_iff (key : List (Fin 256)) (hne : key ≠ [])
    (hascii : ∀ b ∈ key, b.val < 128) :
    WatchesPrefix key ↔ key.length%3 = 0 ∧ (key.getLast hne).val%64 ∉ breaks := by
  rw [← decode_encodedEndKey_iff key hne]
  constructor
  · rintro ⟨_,hdecode,rfl,-⟩
    exact hdecode
  · exact fun hdecode => ⟨_,hdecode,rfl,mem_range_keyPlusOne key hne hascii⟩

/-- `FLAGS_k8s_ipmap_keydir`. -/
def k8sIpmapKeydir : List (Fin 256) :=
  ['M','i','c','r','o','s','o','f','t','/','F','r','e','e','F','l','o','w'].map
    fun c => byte c.toNat

/-- `FLAGS_k8s_nodes_keydir`. -/
def k8sNodesKeydir : List (Fin 256) :=
  ['K','u','b','e','r','n','e','t','e','s','/','N','o','d','e','s'].map
    fun c => byte c.toNat

theorem watchesPrefix_ipmap :
    (∀ b ∈ k8sIpmapKeydir, b.val < 128) ∧ WatchesPrefix k8sIpmapKeydir :=
  ⟨by decide +kernel,
    (watchesPrefix_iff k8sIpmapKeydir (by decide) (by decide +kernel)).mpr (by decide)⟩

/-- The encoded key of the nodes ends in padding, and its end in `>`. -/
theorem not_watchesPrefix_nodes :
    (∀ b ∈ k8sNodesKeydir, b.val < 128) ∧ ¬WatchesPrefix k8sNodesKeydir := by
  refine ⟨by decide +kernel,fun ⟨rangeEnd,hdecode,_⟩ => ?_⟩
  have hnone : decode (encodedEndKey k8sNodesKeydir) = none := by decide
  exact Option.some_ne_none rangeEnd (hdecode.symm.trans hnone)

end FreeFlow.WatchRange
