import FileSync.Support.Binary
import Mathlib.Data.Nat.Bitwise

/-!
# Nat — responses of a STUN server

`parseStunResponse` of `internal/nat/stun.go`.  The parser checks the header of a datagram, and goes
over its attributes with a cursor until the first one that carries an address.

* `Attribute` is an attribute with its padding; `message` is a message of RFC 5389, and `Carries`
  says which address a value of a MAPPED-ADDRESS or XOR-MAPPED-ADDRESS attribute stands for.
* `parseAttributes_cases`: the loop stands before whole attributes of other types, and gives what
  the first of the two types decodes to, or finds no such attribute.
* `address_of_first_attribute`: no access is out of range, and an address is that of the first
  attribute of the two types inside the declared length.
* `parse_xorMapped`: the address a server has encoded is found behind any other attributes.
-/

namespace FileSync.Stun
open Binary

/-! ### Constants -/

def stunBindingResponse : ℕ := 0x0101

def stunBindingError : ℕ := 0x0111

def stunAttrMappedAddress : ℕ := 0x0001

def stunAttrXorMappedAddress : ℕ := 0x0020

def stunMagicCookie : ℕ := 0x2112A442

def errStunInvalidResp : Err := .text "invalid STUN response"

def errNoMappedAddress : Err := .text "no mapped address in response"

structure MappedAddress where
  ip : Bytes
  port : ℕ
deriving DecidableEq

/-! ### The parser -/

def unknownFamily (family : UInt8) : Err :=
  .text ("unknown address family: " ++ toString family.toNat)

def parseXorMappedAddress (data magicCookie : Bytes) : Go MappedAddress :=
  if data.length < 8 then .error (.err (.text "XOR-MAPPED-ADDRESS too short"))
  else do
    let family ← Go.orPanic (index data 1)
    let xorPort ← Go.orPanic (slice data 2 4)
    -- `Uint32` reads four bytes
    let cookie ← Go.orPanic (slice magicCookie 0 4)
    let port := uint16 xorPort ^^^ uint32 cookie / 2 ^ 16 % 2 ^ 16
    if family = 0x01 then
      if data.length < 8 then .error (.err (.text "IPv4 XOR-MAPPED-ADDRESS too short"))
      else do
        let xorIP ← Go.orPanic (slice data 4 8)
        .ok ⟨putUint32 (uint32 xorIP ^^^ stunMagicCookie), port⟩
    else if family = 0x02 then
      if data.length < 20 then .error (.err (.text "IPv6 XOR-MAPPED-ADDRESS too short"))
      else .error (.err (.text "IPv6 not supported"))
    else .error (.err (unknownFamily family))

def parseMappedAddress (data : Bytes) : Go MappedAddress :=
  if data.length < 8 then .error (.err (.text "MAPPED-ADDRESS too short"))
  else do
    let family ← Go.orPanic (index data 1)
    let port ← Go.orPanic (slice data 2 4)
    if family = 0x01 then do
      let ip ← Go.orPanic (slice data 4 8)
      .ok ⟨ip, uint16 port⟩
    else if family = 0x02 then
      if data.length < 20 then .error (.err (.text "IPv6 MAPPED-ADDRESS too short"))
      else do
        let ip ← Go.orPanic (slice data 4 20)
        .ok ⟨ip, uint16 port⟩
    else .error (.err (unknownFamily family))

/-- The bytes between a value and the next 4-byte boundary. -/
def padding (attrLen : ℕ) : ℕ := if attrLen % 4 ≠ 0 then 4 - attrLen % 4 else 0

/-- The loop over the attributes, with the cursor at `pos` and the end of the message at `stop`. -/
def parseAttributes (data : Bytes) (stop : ℕ) : ℕ → ℕ → Go MappedAddress
  | 0, _ => .error .fuel
  | fuel + 1, pos =>
    if pos < stop then
      if pos + 4 > stop then .error (.err errNoMappedAddress)
      else do
        let attrType ← Go.orPanic (slice data pos ↑(pos + 2))
        let attrLen ← Go.orPanic (slice data ↑(pos + 2) ↑(pos + 4))
        let pos := pos + 4
        if pos + uint16 attrLen > stop then .error (.err errNoMappedAddress)
        else do
          let attrData ← Go.orPanic (slice data pos ↑(pos + uint16 attrLen))
          if uint16 attrType = stunAttrXorMappedAddress then do
            let magicCookie ← Go.orPanic (slice data 4 8)
            parseXorMappedAddress attrData magicCookie
          else if uint16 attrType = stunAttrMappedAddress then parseMappedAddress attrData
          else
            let pos := pos + uint16 attrLen
            parseAttributes data stop fuel (pos + padding (uint16 attrLen))
    else .error (.err errNoMappedAddress)

/-- The loop over the transaction ID, with `n` bytes to go. -/
def checkTxID (data expectedTxID : Bytes) : ℕ → ℕ → Go Unit
  | 0, _ => .ok ()
  | n + 1, i => do
      let got ← Go.orPanic (index data ↑(8 + i))
      let expected ← Go.orPanic (index expectedTxID i)
      if got ≠ expected then .error (.err (.text "transaction ID mismatch"))
      else checkTxID data expectedTxID n (i + 1)

def parseStunResponse (data expectedTxID : Bytes) : Go MappedAddress :=
  if data.length < 20 then .error (.err errStunInvalidResp)
  else do
    let msgType ← Go.orPanic (slice data 0 2)
    if uint16 msgType ≠ stunBindingResponse then
      if uint16 msgType = stunBindingError then
        .error (.err (.text "STUN binding error response"))
      else .error (.err (.textOf "unexpected STUN message type" msgType))
    else do
      let cookie ← Go.orPanic (slice data 4 8)
      if uint32 cookie ≠ stunMagicCookie then .error (.err (.textOf "invalid magic cookie" cookie))
      else do
        if expectedTxID.length = 12 then checkTxID data expectedTxID 12 0 else .ok ()
        let msgLen ← Go.orPanic (slice data 2 4)
        let stop := 20 + uint16 msgLen
        if data.length < stop then .error (.err errStunInvalidResp)
        else parseAttributes data stop data.length 20

/-! ### Messages of RFC 5389 -/

/-- Type, length of the body, magic cookie, transaction ID and body. -/
def message (type : ℕ) (txID body : Bytes) : Bytes :=
  putUint16 type ++ (putUint16 body.length ++ (putUint32 stunMagicCookie ++ (txID ++ body)))

/-- An attribute, padded to a multiple of four bytes; the bytes of the padding are free. -/
structure Attribute where
  type : ℕ
  value : Bytes
  pad : Bytes
  type_lt : type < 2 ^ 16
  length_lt : value.length < 2 ^ 16
  length_pad : pad.length = padding value.length

namespace Attribute

def bytes (a : Attribute) : Bytes := putUint16 a.type ++ (putField a.value ++ a.pad)

/-- The parser passes over the attribute. -/
def Other (a : Attribute) : Prop :=
  a.type ≠ stunAttrMappedAddress ∧ a.type ≠ stunAttrXorMappedAddress

end Attribute

/-- An address of four bytes or a port under the magic cookie. -/
def xorCookie (b : Bytes) : Bytes := List.zipWith (· ^^^ ·) b (putUint32 stunMagicCookie)

/-- The XOR-MAPPED-ADDRESS attribute for an IPv4 address. -/
def xorMappedAddress (ip : Bytes) (port : ℕ) (hip : ip.length = 4) : Attribute where
  type := stunAttrXorMappedAddress
  value := [0x00, 0x01] ++ (xorCookie (putUint16 port) ++ xorCookie ip)
  pad := []
  type_lt := by decide
  length_lt := by simp [xorCookie, hip]
  length_pad := by simp [xorCookie, hip, padding]

/-- The address that the value of an attribute stands for. -/
inductive Carries : ℕ → Bytes → MappedAddress → Prop
  | xor (reserved : UInt8) (ip extra : Bytes) (port : ℕ) (hip : ip.length = 4)
      (hport : port < 2 ^ 16) :
      Carries stunAttrXorMappedAddress
        ([reserved, 0x01] ++ (xorCookie (putUint16 port) ++ (xorCookie ip ++ extra))) ⟨ip, port⟩
  | ipv4 (reserved : UInt8) (ip extra : Bytes) (port : ℕ) (hip : ip.length = 4)
      (hport : port < 2 ^ 16) :
      Carries stunAttrMappedAddress ([reserved, 0x01] ++ (putUint16 port ++ (ip ++ extra)))
        ⟨ip, port⟩
  | ipv6 (reserved : UInt8) (ip extra : Bytes) (port : ℕ) (hip : ip.length = 16)
      (hport : port < 2 ^ 16) :
      Carries stunAttrMappedAddress ([reserved, 0x02] ++ (putUint16 port ++ (ip ++ extra)))
        ⟨ip, port⟩

@[simp] theorem Attribute.length_bytes (a : Attribute) :
    a.bytes.length = 4 + a.value.length + padding a.value.length := by
  rw [Attribute.bytes, List.length_append, List.length_append, length_putUint16, length_putField,
    a.length_pad]
  omega

/-! ### One address -/

theorem xorCookie_putUint16 (n : ℕ) : xorCookie (putUint16 n) = putUint16 (n ^^^ 0x2112) := by
  rw [putUint16_xor]
  rfl

theorem xorCookie_putUint32 (n : ℕ) :
    xorCookie (putUint32 n) = putUint32 (n ^^^ stunMagicCookie) :=
  (putUint32_xor n stunMagicCookie).symm

theorem cookie_high : uint32 (putUint32 stunMagicCookie) / 2 ^ 16 % 2 ^ 16 = 0x2112 := by decide

theorem exists_append {b : Bytes} {n : ℕ} (h : n ≤ b.length) :
    ∃ a c : Bytes, a.length = n ∧ b = a ++ c :=
  ⟨b.take n, b.drop n, List.length_take_of_le h, (List.take_append_drop n b).symm⟩

/-- The parts of a value that is long enough for an address. -/
theorem exists_parts {value : Bytes} (h : 8 ≤ value.length) :
    ∃ (reserved family : UInt8) (port rest : Bytes),
      port.length = 2 ∧ value = [reserved, family] ++ (port ++ rest) ∧ 4 ≤ rest.length := by
  match value, h with
  | reserved :: family :: p :: q :: rest, h =>
    exact ⟨reserved, family, [p, q], rest, rfl, rfl, by simpa using h⟩

section Parts
variable {reserved family : UInt8} {port rest : Bytes}

theorem index_family : index ([reserved, family] ++ (port ++ rest)) 1 = some family := rfl

theorem slice_port (h : port.length = 2) :
    slice ([reserved, family] ++ (port ++ rest)) 2 4 = some port := by
  have hs : slice ([reserved, family] ++ (port ++ rest)) ↑(2 : ℕ) ↑(2 + port.length : ℕ) =
      some port := slice_of_drop rfl (by simp)
  rwa [h] at hs

theorem slice_ip {ip extra : Bytes} {n : ℕ} (h : port.length = 2) (hip : ip.length = n) :
    slice ([reserved, family] ++ (port ++ (ip ++ extra))) 4 ↑(4 + n) = some ip := by
  subst hip
  have hdrop : ([reserved, family] ++ (port ++ (ip ++ extra))).drop 4 = ip ++ extra := by
    rw [show 4 = 2 + port.length by rw [h]]
    exact drop_behind rfl
  exact slice_of_drop hdrop (by simp [h])

theorem length_parts (h : port.length = 2) :
    ([reserved, family] ++ (port ++ rest)).length = 4 + rest.length := by
  rw [List.length_append, List.length_append, h, ← Nat.add_assoc]
  rfl

theorem parseXorMappedAddress_ipv4 {ip extra : Bytes} (h : port.length = 2) (hip : ip.length = 4) :
    parseXorMappedAddress ([reserved, 0x01] ++ (port ++ (ip ++ extra)))
        (putUint32 stunMagicCookie) =
      .ok ⟨putUint32 (uint32 ip ^^^ stunMagicCookie), uint16 port ^^^ 0x2112⟩ := by
  have hlen : ¬ ([reserved, 0x01] ++ (port ++ (ip ++ extra))).length < 8 := by
    rw [length_parts h, List.length_append, hip]
    omega
  have hslice : slice ([reserved, 0x01] ++ (port ++ (ip ++ extra))) 4 8 = some ip := slice_ip h hip
  have hcookie : slice (putUint32 stunMagicCookie) 0 4 = some (putUint32 stunMagicCookie) := rfl
  simp only [parseXorMappedAddress, if_neg hlen, index_family, slice_port h, hcookie, hslice,
    Go.orPanic_some, Go.ok_bind, if_true, cookie_high]

/-- Only an IPv4 address is taken from an XOR-MAPPED-ADDRESS. -/
theorem parseXorMappedAddress_other (h : port.length = 2) (hrest : 4 ≤ rest.length)
    (hfamily : family ≠ 0x01) :
    ∃ e, parseXorMappedAddress ([reserved, family] ++ (port ++ rest))
      (putUint32 stunMagicCookie) = .error (.err e) := by
  have hlen : ¬ ([reserved, family] ++ (port ++ rest)).length < 8 := by
    rw [length_parts h]
    omega
  have hcookie : slice (putUint32 stunMagicCookie) 0 4 = some (putUint32 stunMagicCookie) := rfl
  simp only [parseXorMappedAddress, if_neg hlen, index_family, slice_port h, hcookie,
    Go.orPanic_some, Go.ok_bind, if_neg hfamily]
  split
  · split
    · exact ⟨_, rfl⟩
    · exact ⟨_, rfl⟩
  · exact ⟨_, rfl⟩

theorem parseMappedAddress_ipv4 {ip extra : Bytes} (h : port.length = 2) (hip : ip.length = 4) :
    parseMappedAddress ([reserved, 0x01] ++ (port ++ (ip ++ extra))) = .ok ⟨ip, uint16 port⟩ := by
  have hlen : ¬ ([reserved, 0x01] ++ (port ++ (ip ++ extra))).length < 8 := by
    rw [length_parts h, List.length_append, hip]
    omega
  have hslice : slice ([reserved, 0x01] ++ (port ++ (ip ++ extra))) 4 8 = some ip := slice_ip h hip
  simp only [parseMappedAddress, if_neg hlen, index_family, slice_port h, hslice,
    Go.orPanic_some, Go.ok_bind, if_true]

theorem parseMappedAddress_ipv6 {ip extra : Bytes} (h : port.length = 2) (hip : ip.length = 16) :
    parseMappedAddress ([reserved, 0x02] ++ (port ++ (ip ++ extra))) = .ok ⟨ip, uint16 port⟩ := by
  have hlen : ([reserved, 0x02] ++ (port ++ (ip ++ extra))).length = 20 + extra.length := by
    rw [length_parts h, List.length_append, hip]
    omega
  have hslice : slice ([reserved, 0x02] ++ (port ++ (ip ++ extra))) 4 20 = some ip := slice_ip h hip
  simp only [parseMappedAddress, hlen, if_neg (show ¬ 20 + extra.length < 8 by omega),
    if_neg (show ¬ 20 + extra.length < 20 by omega), index_family, slice_port h, hslice,
    Go.orPanic_some, Go.ok_bind, if_neg (show ¬ (0x02 : UInt8) = 0x01 by decide), if_true]

/-- A family other than the two, or an IPv6 address that is cut off. -/
theorem parseMappedAddress_other (h : port.length = 2) (hrest : 4 ≤ rest.length)
    (h₁ : family ≠ 0x01) (h₂ : family = 0x02 → rest.length < 16) :
    ∃ e, parseMappedAddress ([reserved, family] ++ (port ++ rest)) = .error (.err e) := by
  simp only [parseMappedAddress, length_parts h, if_neg (show ¬ 4 + rest.length < 8 by omega),
    index_family, slice_port h, Go.orPanic_some, Go.ok_bind, if_neg h₁]
  split
  · next hfamily =>
    have := h₂ hfamily
    exact ⟨_, if_pos (by omega)⟩
  · exact ⟨_, rfl⟩

end Parts

/-- What the parser makes of the first attribute of the two types. -/
def parseAddress (type : ℕ) (value : Bytes) : Go MappedAddress :=
  if type = stunAttrXorMappedAddress then
    parseXorMappedAddress value (putUint32 stunMagicCookie)
  else parseMappedAddress value

theorem parseXorMappedAddress_cases (value : Bytes) :
    (∃ e, parseXorMappedAddress value (putUint32 stunMagicCookie) = .error (.err e)) ∨
      ∃ addr, parseXorMappedAddress value (putUint32 stunMagicCookie) = .ok addr ∧
        Carries stunAttrXorMappedAddress value addr := by
  rcases Nat.lt_or_ge value.length 8 with hshort | hlong
  · exact .inl ⟨_, if_pos hshort⟩
  obtain ⟨reserved, family, port, rest, h, rfl, hrest⟩ := exists_parts hlong
  by_cases hfamily : family = 0x01
  · subst hfamily
    obtain ⟨ip, extra, hip, rfl⟩ := exists_append hrest
    refine .inr ⟨_, parseXorMappedAddress_ipv4 h hip, ?_⟩
    have hcarries := Carries.xor reserved (putUint32 (uint32 ip ^^^ stunMagicCookie)) extra
      (uint16 port ^^^ 0x2112) (length_putUint32 _) (Nat.xor_lt_two_pow (uint16_lt h) (by decide))
    rwa [xorCookie_putUint16, xorCookie_putUint32, Nat.xor_xor_cancel_right,
      Nat.xor_xor_cancel_right, putUint16_uint16 h, putUint32_uint32 hip] at hcarries
  · exact .inl (parseXorMappedAddress_other h hrest hfamily)

theorem parseMappedAddress_cases (value : Bytes) :
    (∃ e, parseMappedAddress value = .error (.err e)) ∨
      ∃ addr, parseMappedAddress value = .ok addr ∧ Carries stunAttrMappedAddress value addr := by
  rcases Nat.lt_or_ge value.length 8 with hshort | hlong
  · exact .inl ⟨_, if_pos hshort⟩
  obtain ⟨reserved, family, port, rest, h, rfl, hrest⟩ := exists_parts hlong
  by_cases h₁ : family = 0x01
  · subst h₁
    obtain ⟨ip, extra, hip, rfl⟩ := exists_append hrest
    refine .inr ⟨_, parseMappedAddress_ipv4 h hip, ?_⟩
    have hcarries := Carries.ipv4 reserved ip extra (uint16 port) hip (uint16_lt h)
    rwa [putUint16_uint16 h] at hcarries
  · by_cases h₂ : family = 0x02 → rest.length < 16
    · exact .inl (parseMappedAddress_other h hrest h₁ h₂)
    · obtain ⟨rfl, h₁₆⟩ := Classical.not_imp.1 h₂
      obtain ⟨ip, extra, hip, rfl⟩ := exists_append (Nat.le_of_not_lt h₁₆)
      refine .inr ⟨_, parseMappedAddress_ipv6 h hip, ?_⟩
      have hcarries := Carries.ipv6 reserved ip extra (uint16 port) hip (uint16_lt h)
      rwa [putUint16_uint16 h] at hcarries

theorem parseAddress_cases {type : ℕ}
    (htype : type = stunAttrXorMappedAddress ∨ type = stunAttrMappedAddress) (value : Bytes) :
    (∃ e, parseAddress type value = .error (.err e)) ∨
      ∃ addr, parseAddress type value = .ok addr ∧ Carries type value addr := by
  rcases htype with rfl | rfl
  · exact parseXorMappedAddress_cases value
  · exact parseMappedAddress_cases value

theorem parseAddress_carries {type : ℕ} {value : Bytes} {addr : MappedAddress}
    (h : Carries type value addr) : parseAddress type value = .ok addr := by
  cases h with
  | xor reserved ip extra port hip hport =>
    have hx : port ^^^ 0x2112 < 2 ^ 16 := Nat.xor_lt_two_pow hport (by decide)
    have hy : uint32 ip ^^^ stunMagicCookie < 2 ^ 32 :=
      Nat.xor_lt_two_pow (uint32_lt hip) (by decide)
    have hcookie : xorCookie ip = putUint32 (uint32 ip ^^^ stunMagicCookie) := by
      rw [← xorCookie_putUint32, putUint32_uint32 hip]
    rw [parseAddress, if_pos rfl, hcookie, xorCookie_putUint16,
      parseXorMappedAddress_ipv4 (length_putUint16 _) (length_putUint32 _), uint16_putUint16,
      uint32_putUint32, Nat.mod_eq_of_lt hx, Nat.mod_eq_of_lt hy, Nat.xor_xor_cancel_right,
      Nat.xor_xor_cancel_right, putUint32_uint32 hip]
  | ipv4 reserved ip extra port hip hport =>
    rw [parseAddress, if_neg (by decide), parseMappedAddress_ipv4 (length_putUint16 _) hip,
      uint16_putUint16, Nat.mod_eq_of_lt hport]
  | ipv6 reserved ip extra port hip hport =>
    rw [parseAddress, if_neg (by decide), parseMappedAddress_ipv6 (length_putUint16 _) hip,
      uint16_putUint16, Nat.mod_eq_of_lt hport]

/-! ### The loop over the attributes -/

section Loop
variable {data body tail : Bytes} {stop pos fuel : ℕ}

theorem parseAttributes_end (h : stop < pos + 4) :
    parseAttributes data stop (fuel + 1) pos = .error (.err errNoMappedAddress) := by
  rw [parseAttributes, if_pos h, ite_self]

/-- The value is cut off by the end of the message. -/
theorem parseAttributes_cut {t len : Bytes} (ht : t.length = 2) (hlen : len.length = 2)
    (h : data.drop pos = t ++ (len ++ (body ++ tail))) (hstop : pos + 4 + body.length = stop)
    (hpos : stop ≤ data.length) (hcut : body.length < uint16 len) :
    parseAttributes data stop (fuel + 1) pos = .error (.err errNoMappedAddress) := by
  have hs := slice_of_drop h (by omega)
  have hs' := slice_of_drop (drop_behind h) (by omega)
  rw [ht] at hs hs'
  rw [hlen] at hs'
  rw [parseAttributes, if_pos (by omega), if_neg (by omega), hs, hs', Go.orPanic_some,
    Go.orPanic_some, Go.ok_bind, Go.ok_bind]
  exact if_pos (by omega)

/-- A whole attribute: one of the two types is decoded, any other is passed over. -/
theorem parseAttributes_whole {type : ℕ} {value : Bytes} (ht : type < 2 ^ 16)
    (hv : value.length < 2 ^ 16)
    (h : data.drop pos = putUint16 type ++ (putField value ++ tail))
    (hstop : pos + 4 + value.length ≤ stop) (hpos : stop ≤ data.length)
    (hcookie : slice data 4 8 = some (putUint32 stunMagicCookie)) :
    parseAttributes data stop (fuel + 1) pos =
      if type = stunAttrXorMappedAddress ∨ type = stunAttrMappedAddress then
        parseAddress type value
      else parseAttributes data stop fuel (pos + 4 + value.length + padding value.length) := by
  have hs : slice data pos ↑(pos + 2) = some (putUint16 type) := slice_of_drop h (by omega)
  obtain ⟨hlen, hvalue, -, -⟩ := slice_field (drop_behind h) (by rw [length_putUint16]; omega)
  rw [length_putUint16] at hlen hvalue
  rw [parseAttributes, if_pos (by omega), if_neg (by omega), hs, hlen]
  simp only [Go.orPanic_some, Go.ok_bind, uint16_putUint16, Nat.mod_eq_of_lt ht,
    Nat.mod_eq_of_lt hv]
  rw [if_neg (by omega), hvalue, hcookie]
  simp only [Go.orPanic_some, Go.ok_bind, parseAddress]
  by_cases hx : type = stunAttrXorMappedAddress
  · rw [if_pos hx, if_pos (.inl hx), if_pos hx]
  · by_cases hm : type = stunAttrMappedAddress
    · rw [if_neg hx, if_pos hm, if_pos (.inr hm), if_neg hx]
    · rw [if_neg hx, if_neg hm, if_neg (not_or.2 ⟨hx, hm⟩)]

/-- An attribute of another type is passed over with its padding. -/
theorem parseAttributes_other {a : Attribute} (ha : a.Other)
    (h : data.drop pos = a.bytes ++ tail) (hstop : pos + a.bytes.length ≤ stop)
    (hpos : stop ≤ data.length)
    (hcookie : slice data 4 8 = some (putUint32 stunMagicCookie)) :
    parseAttributes data stop (fuel + 1) pos =
      parseAttributes data stop fuel (pos + a.bytes.length) := by
  rw [Attribute.length_bytes] at hstop ⊢
  rw [Attribute.bytes, List.append_assoc, List.append_assoc] at h
  rw [parseAttributes_whole a.type_lt a.length_lt h (by omega) hpos hcookie,
    if_neg (not_or.2 ⟨ha.2, ha.1⟩), Nat.add_assoc, Nat.add_assoc, ← Nat.add_assoc 4]

/-- What can stand between the cursor and the end of the message. -/
inductive Begins : Bytes → Prop
  | short (body : Bytes) (h : body.length < 4) : Begins body
  | cut (t len body : Bytes) (ht : t.length = 2) (hlen : len.length = 2)
      (h : body.length < uint16 len) : Begins (t ++ (len ++ body))
  | address (type : ℕ) (value rest : Bytes) (hv : value.length < 2 ^ 16)
      (htype : type = stunAttrXorMappedAddress ∨ type = stunAttrMappedAddress) :
      Begins (putUint16 type ++ (putField value ++ rest))
  | unpadded (type : ℕ) (value rest : Bytes) (ht : type < 2 ^ 16) (hv : value.length < 2 ^ 16)
      (htype : ¬ (type = stunAttrXorMappedAddress ∨ type = stunAttrMappedAddress))
      (h : rest.length < padding value.length) :
      Begins (putUint16 type ++ (putField value ++ rest))
  | other (a : Attribute) (rest : Bytes) (ha : a.Other) : Begins (a.bytes ++ rest)

theorem begins_whole {type : ℕ} {value : Bytes} (ht : type < 2 ^ 16) (hv : value.length < 2 ^ 16)
    (rest : Bytes) : Begins (putUint16 type ++ (putField value ++ rest)) := by
  by_cases htype : type = stunAttrXorMappedAddress ∨ type = stunAttrMappedAddress
  · exact .address type value rest hv htype
  · rcases Nat.lt_or_ge rest.length (padding value.length) with h | h
    · exact .unpadded type value rest ht hv htype h
    · obtain ⟨pad, rest, hpad, rfl⟩ := exists_append h
      have hother : Attribute.Other ⟨type, value, pad, ht, hv, hpad⟩ :=
        ⟨fun hm => htype (.inr hm), fun hx => htype (.inl hx)⟩
      have hbegins := Begins.other _ rest hother
      rwa [Attribute.bytes, List.append_assoc, List.append_assoc] at hbegins

theorem begins (body : Bytes) : Begins body := by
  rcases Nat.lt_or_ge body.length 2 with h | h
  · exact .short body (by omega)
  obtain ⟨t, field, ht, rfl⟩ := exists_append h
  rcases cut_or_putField field with hcut | ⟨value, rest, hv, rfl⟩
  · cases hcut with
    | length field hlt => exact .short _ (by rw [List.length_append, ht]; omega)
    | value len rest hlen hlt => exact .cut t len rest ht hlen hlt
  · rw [← putUint16_uint16 ht]
    exact begins_whole (uint16_lt ht) hv rest

/-- The attributes up to the first one of the two types. -/
structure FirstAddress (body : Bytes) (before : List Attribute) (type : ℕ) (value : Bytes) :
    Prop where
  other : ∀ a ∈ before, a.Other
  type_eq : type = stunAttrXorMappedAddress ∨ type = stunAttrMappedAddress
  length_lt : value.length < 2 ^ 16
  body_eq : ∃ rest, body = before.flatMap Attribute.bytes ++ (putUint16 type ++
    (putField value ++ rest))

theorem FirstAddress.cons {before : List Attribute} {type : ℕ} {value : Bytes}
    (h : FirstAddress body before type value) {a : Attribute} (ha : a.Other) :
    FirstAddress (a.bytes ++ body) (a :: before) type value := by
  obtain ⟨rest, hbody⟩ := h.body_eq
  refine ⟨List.forall_mem_cons.2 ⟨ha, h.other⟩, h.type_eq, h.length_lt, rest, ?_⟩
  rw [List.flatMap_cons, List.append_assoc, ← hbody]

/-- **The loop.**  It finds no address, or the outcome is what the first attribute of the two types
decodes to.  A padding that reaches beyond the end of the message ends the loop. -/
theorem parseAttributes_cases (hcookie : slice data 4 8 = some (putUint32 stunMagicCookie))
    (hlen : stop ≤ data.length) (fuel : ℕ) {pos : ℕ} {body : Bytes}
    (h : data.drop pos = body ++ tail) (hstop : pos + body.length = stop)
    (hfuel : body.length < fuel) :
    parseAttributes data stop fuel pos = .error (.err errNoMappedAddress) ∨
      ∃ before type value, FirstAddress body before type value ∧
        parseAttributes data stop fuel pos = parseAddress type value := by
  induction fuel generalizing pos body with
  | zero => exact absurd hfuel (Nat.not_lt_zero _)
  | succ fuel ih =>
    cases begins body with
    | short _ hlt => exact .inl (parseAttributes_end (by omega))
    | cut t len body ht hl hcut =>
      rw [List.append_assoc, List.append_assoc] at h
      rw [List.length_append, List.length_append, ht, hl] at hstop
      exact .inl (parseAttributes_cut ht hl h (by omega) hlen hcut)
    | address type value rest hv htype =>
      rw [List.append_assoc, List.append_assoc] at h
      rw [List.length_append, List.length_append, length_putUint16, length_putField] at hstop
      have ht : type < 2 ^ 16 := by rcases htype with rfl | rfl <;> decide
      refine .inr ⟨[], type, value, ⟨nofun, htype, hv, rest, rfl⟩, ?_⟩
      rw [parseAttributes_whole ht hv h (by omega) hlen hcookie, if_pos htype]
    | unpadded type value rest ht hv htype hpad =>
      rw [List.append_assoc, List.append_assoc] at h
      rw [List.length_append, List.length_append, length_putUint16, length_putField]
        at hstop hfuel
      obtain ⟨n, rfl⟩ : ∃ n, fuel = n + 1 := ⟨fuel - 1, by omega⟩
      rw [parseAttributes_whole ht hv h (by omega) hlen hcookie, if_neg htype]
      exact .inl (parseAttributes_end (by omega))
    | other a rest ha =>
      rw [List.append_assoc] at h
      rw [List.length_append] at hstop hfuel
      have hpos : 0 < a.bytes.length := by rw [Attribute.length_bytes]; omega
      rw [parseAttributes_other ha h (by omega) hlen hcookie]
      rcases ih (drop_behind h) (by omega) (by omega) with
        hnone | ⟨before, type, value, hf, heq⟩
      · exact .inl hnone
      · exact .inr ⟨a :: before, type, value, hf.cons ha, heq⟩

/-- The first attribute of the two types is reached. -/
theorem parseAttributes_first (hcookie : slice data 4 8 = some (putUint32 stunMagicCookie))
    (hlen : stop ≤ data.length) {before : List Attribute} {type : ℕ} {value : Bytes} (fuel : ℕ)
    {pos : ℕ} {body : Bytes} (h : data.drop pos = body ++ tail) (hstop : pos + body.length = stop)
    (hfuel : body.length < fuel) (hfirst : FirstAddress body before type value) :
    parseAttributes data stop fuel pos = parseAddress type value := by
  obtain ⟨hother, htype, hv, rest, hbody⟩ := hfirst
  have ht : type < 2 ^ 16 := by rcases htype with rfl | rfl <;> decide
  induction before generalizing pos body fuel with
  | nil =>
    obtain ⟨n, rfl⟩ : ∃ n, fuel = n + 1 := ⟨fuel - 1, by omega⟩
    rw [hbody, List.flatMap_nil, List.nil_append] at h hstop
    rw [List.append_assoc, List.append_assoc] at h
    rw [List.length_append, List.length_append, length_putUint16, length_putField] at hstop
    rw [parseAttributes_whole ht hv h (by omega) hlen hcookie, if_pos htype]
  | cons a before ih =>
    obtain ⟨n, rfl⟩ : ∃ n, fuel = n + 1 := ⟨fuel - 1, by omega⟩
    obtain ⟨ha, hbefore⟩ := List.forall_mem_cons.1 hother
    rw [List.flatMap_cons, List.append_assoc] at hbody
    generalize hnext : before.flatMap Attribute.bytes ++ _ = next at hbody
    subst hbody
    rw [List.append_assoc] at h
    rw [List.length_append] at hstop hfuel
    have hpos : 0 < a.bytes.length := by rw [Attribute.length_bytes]; omega
    rw [parseAttributes_other ha h (by omega) hlen hcookie]
    exact ih n (drop_behind h) (by omega) (by omega) hbefore hnext.symm

end Loop

/-! ### The header -/

theorem checkTxID_eq {data expectedTxID : Bytes} {i : ℕ} {x y rest : Bytes}
    (hx : data.drop (8 + i) = x ++ rest) (hy : expectedTxID.drop i = y)
    (hlen : x.length = y.length) :
    checkTxID data expectedTxID y.length i =
      if x = y then .ok () else .error (.err (.text "transaction ID mismatch")) := by
  induction y generalizing i x with
  | nil => rw [List.eq_nil_of_length_eq_zero hlen]; rfl
  | cons c y ih =>
    obtain ⟨b, x, rfl⟩ := List.exists_cons_of_length_eq_add_one hlen
    have hx' : data.drop (8 + (i + 1)) = x ++ rest := by
      rw [← Nat.add_assoc, ← List.drop_drop, hx]
      rfl
    have hy' : expectedTxID.drop (i + 1) = y := by
      rw [← List.drop_drop, hy]
      rfl
    rw [List.length_cons, checkTxID, index_of_drop hx, index_of_drop hy, Go.orPanic_some,
      Go.orPanic_some, Go.ok_bind, Go.ok_bind, ih hx' hy' (Nat.succ.inj hlen)]
    by_cases hbc : b = c
    · simp [hbc]
    · simp [hbc]

theorem exists_header {data : Bytes} (h : 20 ≤ data.length) :
    ∃ t l c x r : Bytes, t.length = 2 ∧ l.length = 2 ∧ c.length = 4 ∧ x.length = 12 ∧
      data = t ++ (l ++ (c ++ (x ++ r))) := by
  obtain ⟨t, rest, ht, rfl⟩ := exists_append (Nat.le_trans (by decide : 2 ≤ 20) h)
  rw [List.length_append] at h
  obtain ⟨l, rest, hl, rfl⟩ := exists_append (show 2 ≤ rest.length by omega)
  rw [List.length_append] at h
  obtain ⟨c, rest, hc, rfl⟩ := exists_append (show 4 ≤ rest.length by omega)
  rw [List.length_append] at h
  obtain ⟨x, r, hx, rfl⟩ := exists_append (show 12 ≤ rest.length by omega)
  exact ⟨t, l, c, x, r, ht, hl, hc, hx, rfl⟩

theorem header_slices {t l c r data : Bytes} (ht : t.length = 2) (hl : l.length = 2)
    (hc : c.length = 4) (hdata : data = t ++ (l ++ (c ++ r))) :
    slice data 0 2 = some t ∧ slice data 2 4 = some l ∧ slice data 4 8 = some c ∧
      data.drop 8 = r ∧ data.length = 8 + r.length := by
  have hlen : data.length = 8 + r.length := by
    simp only [hdata, List.length_append, ht, hl, hc]
    omega
  have h₀ : data.drop 0 = t ++ (l ++ (c ++ r)) := hdata
  have h₂ := drop_behind h₀
  have h₄ := drop_behind h₂
  have h₈ := drop_behind h₄
  rw [ht, hl, hc] at h₈
  refine ⟨?_, ?_, ?_, h₈, hlen⟩
  · simpa [ht] using slice_of_drop h₀ (by omega)
  · simpa [ht, hl] using slice_of_drop h₂ (by omega)
  · simpa [ht, hl, hc] using slice_of_drop h₄ (by omega)

/-- The parser on a datagram with a whole header. -/
theorem parseStunResponse_header {t l c x r txID data : Bytes} (ht : t.length = 2)
    (hl : l.length = 2) (hc : c.length = 4) (hx : x.length = 12) (htx : txID.length = 12)
    (hdata : data = t ++ (l ++ (c ++ (x ++ r)))) :
    parseStunResponse data txID =
      if uint16 t ≠ stunBindingResponse then
        if uint16 t = stunBindingError then .error (.err (.text "STUN binding error response"))
        else .error (.err (.textOf "unexpected STUN message type" t))
      else if uint32 c ≠ stunMagicCookie then .error (.err (.textOf "invalid magic cookie" c))
      else if x ≠ txID then .error (.err (.text "transaction ID mismatch"))
      else if r.length < uint16 l then .error (.err errStunInvalidResp)
      else parseAttributes data (20 + uint16 l) data.length 20 := by
  obtain ⟨hst, hsl, hsc, h₈, hlen⟩ := header_slices ht hl hc hdata
  rw [List.length_append, hx, ← Nat.add_assoc] at hlen
  have hcheck := checkTxID_eq h₈ (List.drop_zero (l := txID)) (hx.trans htx.symm)
  rw [htx] at hcheck
  simp only [parseStunResponse, hlen, if_neg (show ¬ 20 + r.length < 20 by omega), hst, hsl, hsc,
    Go.orPanic_some, Go.ok_bind, htx, if_true, hcheck, Nat.add_lt_add_iff_left]
  by_cases hxtx : x = txID
  · simp only [hxtx, ne_eq, not_true_eq_false, if_true, if_false, Go.ok_bind]
  · simp only [hxtx, ne_eq, not_false_eq_true, if_true, if_false]
    rfl

/-- The parser on a response with the expected transaction ID. -/
theorem parseStunResponse_message {txID body rest data : Bytes} (htx : txID.length = 12)
    (hbody : body.length < 2 ^ 16) (hdata : data = message stunBindingResponse txID body ++ rest) :
    parseStunResponse data txID = parseAttributes data (20 + body.length) data.length 20 ∧
      slice data 4 8 = some (putUint32 stunMagicCookie) ∧ data.drop 20 = body ++ rest ∧
      data.length = 20 + body.length + rest.length := by
  simp only [message, List.append_assoc] at hdata
  obtain ⟨-, -, hcookie, h₈, hlen⟩ := header_slices rfl rfl rfl hdata
  simp only [List.length_append, htx] at hlen
  refine ⟨?_, hcookie, ?_, by omega⟩
  · rw [parseStunResponse_header rfl rfl rfl htx htx hdata, uint16_putUint16, uint16_putUint16,
      uint32_putUint32, Nat.mod_eq_of_lt hbody, if_neg (by decide), if_neg (by decide),
      if_neg (not_not.2 rfl), if_neg (by rw [List.length_append]; omega)]
  · have h₂₀ := drop_behind h₈
    rwa [htx] at h₂₀

/-- A datagram that is not refused for its header is a response with the transaction ID, and with
the declared length. -/
theorem refused_or_message (data : Bytes) {txID : Bytes} (htx : txID.length = 12) :
    (∃ e, parseStunResponse data txID = .error (.err e)) ∨
      ∃ body rest, body.length < 2 ^ 16 ∧
        data = message stunBindingResponse txID body ++ rest := by
  rcases Nat.lt_or_ge data.length 20 with hshort | hlong
  · exact .inl ⟨_, if_pos hshort⟩
  obtain ⟨t, l, c, x, r, ht, hl, hc, hx, hdata⟩ := exists_header hlong
  rw [parseStunResponse_header ht hl hc hx htx hdata]
  split
  · split
    · exact .inl ⟨_, rfl⟩
    · exact .inl ⟨_, rfl⟩
  next htype =>
  split
  · exact .inl ⟨_, rfl⟩
  next hcookie =>
  split
  · exact .inl ⟨_, rfl⟩
  next htxID =>
  split
  · exact .inl ⟨_, rfl⟩
  next hfits =>
  obtain ⟨body, rest, hbody, rfl⟩ := exists_append (Nat.le_of_not_lt hfits)
  refine .inr ⟨body, rest, hbody ▸ uint16_lt hl, ?_⟩
  rw [hdata, message, hbody, ← not_not.1 htype, ← not_not.1 hcookie, ← not_not.1 htxID,
    putUint16_uint16 ht, putUint16_uint16 hl, putUint32_uint32 hc]
  simp only [List.append_assoc]

/-! ### Responses -/

theorem Attribute.four_dvd_length (a : Attribute) : 4 ∣ a.bytes.length := by
  rw [a.length_bytes, padding]
  split <;> omega

theorem four_dvd_length_flatMap (attrs : List Attribute) :
    4 ∣ (attrs.flatMap Attribute.bytes).length := by
  induction attrs with
  | nil => exact Nat.dvd_zero 4
  | cons a attrs ih =>
    rw [List.flatMap_cons, List.length_append]
    exact Nat.dvd_add a.four_dvd_length ih

/-- What the parser returns: an error, or the address of the first attribute of the two types. -/
theorem parseStunResponse_cases (data : Bytes) {txID : Bytes} (htx : txID.length = 12) :
    (∃ e, parseStunResponse data txID = .error (.err e)) ∨
      ∃ addr body rest before type value, parseStunResponse data txID = .ok addr ∧
        body.length < 2 ^ 16 ∧ data = message stunBindingResponse txID body ++ rest ∧
        FirstAddress body before type value ∧ Carries type value addr := by
  rcases refused_or_message data htx with hrefused | ⟨body, rest, hbody, hdata⟩
  · exact .inl hrefused
  obtain ⟨hparse, hcookie, h₂₀, hlen⟩ := parseStunResponse_message htx hbody hdata
  rw [hparse]
  rcases parseAttributes_cases hcookie (by omega) data.length h₂₀ rfl (by omega) with
    hnone | ⟨before, type, value, hfirst, heq⟩
  · exact .inl ⟨_, hnone⟩
  · rw [heq]
    rcases parseAddress_cases hfirst.type_eq value with herr | ⟨addr, haddr, hcarries⟩
    · exact .inl herr
    · exact .inr ⟨addr, body, rest, before, type, value, haddr, hbody, hdata, hfirst, hcarries⟩

/-- A SOFTWARE attribute with three bytes of text and one of padding. -/
def software : Attribute where
  type := 0x8022
  value := [0x66, 0x6F, 0x6F]
  pad := [0x00]
  type_lt := by decide
  length_lt := by decide
  length_pad := by decide

/-- A response with the older of the two attributes, behind another one. -/
def legacyResponse : Bytes :=
  message stunBindingResponse (List.replicate 12 0x07) (software.bytes ++
    (putUint16 stunAttrMappedAddress ++ putField [0x00, 0x01, 0x30, 0x39, 10, 0, 0, 1]))

/-- **Whatever arrives.**  The parser returns an address or an error for every datagram: no access
is out of range.  A datagram with an address is a response with the transaction ID; the address is
the one that the first attribute of the two types carries, behind whole attributes of other types
and inside the declared length. -/
theorem address_of_first_attribute (data : Bytes) {txID : Bytes} (htx : txID.length = 12) :
    (∃ out : Except Err MappedAddress, parseStunResponse data txID = out.mapError Fault.err) ∧
      ∀ addr, parseStunResponse data txID = .ok addr →
        ∃ body rest before type value, body.length < 2 ^ 16 ∧
          data = message stunBindingResponse txID body ++ rest ∧
          FirstAddress body before type value ∧ 4 ∣ (before.flatMap Attribute.bytes).length ∧
          Carries type value addr := by
  rcases parseStunResponse_cases data htx with
    ⟨e, he⟩ | ⟨addr, body, rest, before, type, value, hok, hbody, hdata, hfirst, hcarries⟩
  · rw [he]
    exact ⟨⟨.error e, rfl⟩, nofun⟩
  · rw [hok]
    refine ⟨⟨.ok addr, rfl⟩, ?_⟩
    rintro _ ⟨⟩
    exact ⟨body, rest, before, type, value, hbody, hdata, hfirst,
      four_dvd_length_flatMap before, hcarries⟩

theorem address_of_first_attribute_legacy :
    parseStunResponse legacyResponse (List.replicate 12 0x07) = .ok ⟨[10, 0, 0, 1], 12345⟩ ∧
      ∃ body rest before type value, body.length < 2 ^ 16 ∧
        legacyResponse = message stunBindingResponse (List.replicate 12 0x07) body ++ rest ∧
        FirstAddress body before type value ∧ 4 ∣ (before.flatMap Attribute.bytes).length ∧
        Carries type value ⟨[10, 0, 0, 1], 12345⟩ :=
  have h : parseStunResponse legacyResponse (List.replicate 12 0x07) =
      .ok ⟨[10, 0, 0, 1], 12345⟩ := by decide +kernel
  ⟨h, (address_of_first_attribute legacyResponse rfl).2 _ h⟩

/-- **The encoding of RFC 5389.**  The address in an XOR-MAPPED-ADDRESS attribute is found behind
attributes of other types and before any attributes. -/
theorem parse_xorMapped {txID ip : Bytes} {port : ℕ} (htx : txID.length = 12) (hip : ip.length = 4)
    (hport : port < 2 ^ 16) {before : List Attribute} (hbefore : ∀ a ∈ before, a.Other)
    (after : List Attribute)
    (hlen : ((before ++ xorMappedAddress ip port hip :: after).flatMap Attribute.bytes).length <
      2 ^ 16) :
    parseStunResponse (message stunBindingResponse txID
      ((before ++ xorMappedAddress ip port hip :: after).flatMap Attribute.bytes)) txID =
        .ok ⟨ip, port⟩ := by
  obtain ⟨hparse, hcookie, h₂₀, hdata⟩ :=
    parseStunResponse_message htx hlen (List.append_nil _).symm
  have hfirst : FirstAddress
      ((before ++ xorMappedAddress ip port hip :: after).flatMap Attribute.bytes) before
      stunAttrXorMappedAddress (xorMappedAddress ip port hip).value := by
    refine ⟨hbefore, .inl rfl, (xorMappedAddress ip port hip).length_lt,
      after.flatMap Attribute.bytes, ?_⟩
    rw [List.flatMap_append, List.flatMap_cons, Attribute.bytes, List.append_assoc,
      List.append_assoc]
    rfl
  have hcarries := Carries.xor 0x00 ip [] port hip hport
  rw [List.append_nil] at hcarries
  rw [hparse, parseAttributes_first hcookie (by omega) _ h₂₀ rfl (by omega) hfirst]
  exact parseAddress_carries hcarries

theorem parse_xorMapped_software :
    parseStunResponse (message stunBindingResponse (List.replicate 12 0x07)
      (([software] ++ [xorMappedAddress [192, 168, 1, 7] 40000 rfl, software]).flatMap
        Attribute.bytes)) (List.replicate 12 0x07) = .ok ⟨[192, 168, 1, 7], 40000⟩ :=
  parse_xorMapped rfl rfl (by decide)
    (List.forall_mem_singleton.2 ⟨by decide, by decide⟩) [software] (by decide)

end FileSync.Stun
