import Mathlib.Data.List.Basic
import Mathlib.Data.Fin.Basic

/-!
# Padded base64

The standard alphabet with padding. Three bytes are four characters; a rest of
one or two bytes is filled up with `=`. The decoder reads groups of four
characters and allows padding in the last group only.
-/

set_option autoImplicit false

namespace Base64

/-- The character of a sextet: `A-Z`, `a-z`, `0-9`, `+` and `/` in this order. -/
def sextetChar (n : ℕ) : Char :=
  if n < 26 then Char.ofNat (65+n)
  else if n < 52 then Char.ofNat (97+(n-26))
  else if n < 62 then Char.ofNat (48+(n-52))
  else if n = 62 then '+' else '/'

/-- The sextet of a character of the alphabet. -/
def charSextet (c : Char) : Option ℕ :=
  if 65 ≤ c.toNat ∧ c.toNat ≤ 90 then some (c.toNat-65)
  else if 97 ≤ c.toNat ∧ c.toNat ≤ 122 then some (c.toNat-97+26)
  else if 48 ≤ c.toNat ∧ c.toNat ≤ 57 then some (c.toNat-48+52)
  else if c = '+' then some 62
  else if c = '/' then some 63 else none

theorem byte_lt (n : ℕ) : n%256 < 256 := Nat.mod_lt n (by decide)

def byte (n : ℕ) : Fin 256 := ⟨n%256,byte_lt n⟩

def encode : List (Fin 256) → List Char
  | [] => []
  | [a] => [sextetChar (a/4),sextetChar (a%4*16),'=','=']
  | [a,b] => [sextetChar (a/4),sextetChar (a%4*16+b/16),sextetChar (b%16*4),'=']
  | a::b::c::rest =>
    sextetChar (a/4)::sextetChar (a%4*16+b/16)::sextetChar (b%16*4+c/64)::sextetChar (c%64)::
      encode rest

/-- The bytes of the last group, which may be padded. -/
def decodeLast (w x y z : Char) : Option (List (Fin 256)) :=
  match charSextet w, charSextet x, charSextet y, charSextet z with
  | some p, some q, some r, some s => some [byte (p*4+q/16),byte (q%16*16+r/4),byte (r%4*64+s)]
  | some p, some q, some r, none =>
    if z = '=' then some [byte (p*4+q/16),byte (q%16*16+r/4)] else none
  | some p, some q, none, none => if y = '=' ∧ z = '=' then some [byte (p*4+q/16)] else none
  | _, _, _, _ => none

def decode : List Char → Option (List (Fin 256))
  | [] => some []
  | [w,x,y,z] => decodeLast w x y z
  | w::x::y::z::rest =>
    match charSextet w, charSextet x, charSextet y, charSextet z with
    | some p, some q, some r, some s =>
      (decode rest).map fun bytes =>
        byte (p*4+q/16)::byte (q%16*16+r/4)::byte (r%4*64+s)::bytes
    | _, _, _, _ => none
  | _ => none

theorem charSextet_sextetChar (n : ℕ) (h : n < 64) : charSextet (sextetChar n) = some n := by
  have hall : ∀ k : Fin 64, charSextet (sextetChar k) = some k.val := by decide
  exact hall ⟨n,h⟩

theorem charSextet_pad : charSextet '=' = none := by decide

theorem decode_cons (w x y z : Char) (p q r s : ℕ) (rest : List Char) (hw : charSextet w = some p)
    (hx : charSextet x = some q) (hy : charSextet y = some r) (hz : charSextet z = some s) :
    decode (w::x::y::z::rest) = (decode rest).map fun bytes =>
      byte (p*4+q/16)::byte (q%16*16+r/4)::byte (r%4*64+s)::bytes := by
  cases rest with
  | nil => simp only [decode,decodeLast,hw,hx,hy,hz,Option.map_some]
  | cons c rest => simp only [decode,hw,hx,hy,hz]

/-- A last character outside the alphabet that is no padding is refused. -/
theorem decode_of_invalid (w x y z : Char) (hz : charSextet z = none) (hpad : z ≠ '=') :
    decode [w,x,y,z] = none := by
  simp only [decode,decodeLast,hz]
  cases charSextet w <;> cases charSextet x <;> cases charSextet y <;> simp [hpad]

/-- The three bytes of a group of four sextets. -/
theorem bytes_of_sextets (a b c : Fin 256) :
    byte (a/4*4+(a%4*16+b/16)/16) = a ∧
      byte ((a%4*16+b/16)%16*16+(b%16*4+c/64)/4) = b ∧
      byte ((b%16*4+c/64)%4*64+c%64) = c := by
  refine ⟨Fin.ext ?_,Fin.ext ?_,Fin.ext ?_⟩ <;> simp only [byte] <;> omega

/-- A full group in front of a text is decoded by itself. -/
theorem decode_group (a b c : Fin 256) (n : ℕ) (z : Char) (rest : List Char)
    (hz : charSextet z = some n) :
    decode (sextetChar (a/4)::sextetChar (a%4*16+b/16)::sextetChar (b%16*4+c/64)::z::rest) =
      (decode rest).map fun bytes => a::b::byte ((b%16*4+c/64)%4*64+n)::bytes := by
  obtain ⟨ha,hb,-⟩ := bytes_of_sextets a b c
  rw [decode_cons _ _ _ _ (a/4) (a%4*16+b/16) (b%16*4+c/64) n rest
    (charSextet_sextetChar _ (by omega)) (charSextet_sextetChar _ (by omega))
    (charSextet_sextetChar _ (by omega)) hz,ha,hb]

theorem decode_encode (bytes : List (Fin 256)) : decode (encode bytes) = some bytes := by
  induction bytes using encode.induct with
  | case1 => rfl
  | case2 a =>
    have ha : byte (a/4*4+a%4*16/16) = a := Fin.ext (by simp only [byte]; omega)
    simp only [encode,decode,decodeLast,charSextet_pad,
      charSextet_sextetChar (a/4) (by omega),charSextet_sextetChar (a%4*16) (by omega),ha]
    rfl
  | case3 a b =>
    have ha : byte (a/4*4+(a%4*16+b/16)/16) = a := (bytes_of_sextets a b 0).1
    have hb : byte ((a%4*16+b/16)%16*16+b%16*4/4) = b :=
      Fin.ext (by simp only [byte]; omega)
    simp only [encode,decode,decodeLast,charSextet_pad,charSextet_sextetChar (a/4) (by omega),
      charSextet_sextetChar (a%4*16+b/16) (by omega),charSextet_sextetChar (b%16*4) (by omega),
      ha,hb]
    rfl
  | case4 a b c rest ih =>
    rw [encode,decode_group a b c (c%64) _ _ (charSextet_sextetChar _ (by omega)),ih,
      Option.map_some,(bytes_of_sextets a b c).2.2]

example : encode [77,97,110] = ['T','W','F','u'] := by decide

end Base64
