import Mathlib.Data.List.Lex
import SipxExternals.FoundationsProbe
import SipxExternals.FoundationsHorner

namespace NetSnmp.AsnTypes
open Foundations

-- asn1.h, snmp_impl.h and snmp.h, built with the opaque special types and a
-- long of 64 bits.
def asnInteger : UInt8 := 0x02
def asnBitStr : UInt8 := 0x03
def asnOctetStr : UInt8 := 0x04
def asnNull : UInt8 := 0x05
def asnObjectId : UInt8 := 0x06
def asnSequenceConstructor : UInt8 := 0x30
def asnIpaddress : UInt8 := 0x40
def asnCounter : UInt8 := 0x41
def asnGauge : UInt8 := 0x42
def asnTimeticks : UInt8 := 0x43
def asnOpaque : UInt8 := 0x44
def asnNsap : UInt8 := 0x45
def asnCounter64 : UInt8 := 0x46
def asnUinteger : UInt8 := 0x47
def asnOpaqueTag1 : UInt8 := 0x9f
def asnOpaqueCounter64 : UInt8 := 0x76
def asnOpaqueFloat : UInt8 := 0x78
def asnOpaqueDouble : UInt8 := 0x79
def asnOpaqueI64 : UInt8 := 0x7a
def asnOpaqueU64 : UInt8 := 0x7b
def snmpNosuchobject : UInt8 := 0x80
def snmpNosuchinstance : UInt8 := 0x81
def snmpEndofmibview : UInt8 := 0x82

def asnLongLen : UInt8 := 0x80
def asnExtensionId : UInt8 := 0x1f
def asnBit8 : UInt8 := 0x80

def asnOpaqueCounter64MxBerLen : Nat := 12
def asnOpaqueFloatBerLen : Nat := 7
def asnOpaqueDoubleBerLen : Nat := 11

def sizeofLong : Nat := 8
def sizeofOid : Nat := 8
def sizeofFloat : Nat := 4
def sizeofDouble : Nat := 8
def sizeofCounter64 : Nat := 16
def maxOidLen : Nat := 128
def maxSubid : Nat := 0xffffffff
def maxPacketLength : Nat := 0x7fffffff

def cInt (n : Nat) : Int := Int.bmod n (2^32)

theorem cInt_small (small : n ≤ 0x7fffffff) : cInt n = n := by
  unfold cInt
  rw [Int.bmod_eq_of_le] <;> omega

inductive ValueKind where
  | integer | unsigned | unsigned64 | float | double | signed64 | string | objid | null | bitstring
deriving DecidableEq

def valueKind (type : UInt8) : Option ValueKind :=
  if type = asnInteger then some .integer
  else if type = asnCounter ∨ type = asnGauge ∨ type = asnTimeticks ∨ type = asnUinteger then some .unsigned
  else if type = asnOpaqueCounter64 ∨ type = asnOpaqueU64 ∨ type = asnCounter64 then some .unsigned64
  else if type = asnOpaqueFloat then some .float
  else if type = asnOpaqueDouble then some .double
  else if type = asnOpaqueI64 then some .signed64
  else if type = asnOctetStr ∨ type = asnIpaddress ∨ type = asnOpaque ∨ type = asnNsap then some .string
  else if type = asnObjectId then some .objid
  else if type = snmpNosuchobject ∨ type = snmpNosuchinstance ∨ type = snmpEndofmibview ∨ type = asnNull then
    some .null
  else if type = asnBitStr then some .bitstring
  else none

-- What the union netsnmp_vardata points at. `undefined` is storage that the
-- value parser of its type has not filled.
inductive Value where
  | none
  | integer (value : Int)
  | unsigned (value : Nat)
  | counter64 (high low : Nat)
  | float (bits : Nat)
  | double (bits : Nat)
  | string (octets : List UInt8)
  | objid (subids : List Nat)
  | bitstring (octets : List UInt8)
  | undefined
deriving DecidableEq

structure Variable where
  name : List Nat
  type : UInt8
  val : Value
  valLen : Nat
deriving DecidableEq

def Variable.binding (v : Variable) : List Nat × UInt8 × Value := (v.name,v.type,v.val)

def octetsValue (octets : List UInt8) : Nat := horner 256 0 (octets.map UInt8.toNat)

-- The masked value of a negative number is taken in two's complement.
def checkOverflowS (x : Int) : Int :=
  if x > 2147483647 then x%4294967296
  else if x < -2147483648 then 0 - x%4294967296
  else x

def checkOverflowU (x : Nat) : Nat := if x > 0xffffffff then x &&& 0xffffffff else x

def snmpOidCompare : List Nat → List Nat → Int
  | [],[] => 0
  | [],_ :: _ => -1
  | _ :: _,[] => 1
  | first :: rest,other :: others =>
    if first ≠ other then (if first < other then -1 else 1) else snmpOidCompare rest others

theorem compare_less : ∀ left right : List Nat, snmpOidCompare left right < 0 ↔ left < right
  | [],[] => by simp [snmpOidCompare]
  | [],_ :: _ => by simp [snmpOidCompare]
  | _ :: _,[] => by simp [snmpOidCompare]
  | a :: left,b :: right => by
    rw [snmpOidCompare,List.cons_lt_cons_iff]
    by_cases same : a = b
    · simp [same,compare_less left right]
    · by_cases less : a < b
      · simp [same,less]
      · simp [same,less]

theorem compare_zero : ∀ left right : List Nat, snmpOidCompare left right = 0 ↔ left = right
  | [],[] => by simp [snmpOidCompare]
  | [],_ :: _ => by simp [snmpOidCompare]
  | _ :: _,[] => by simp [snmpOidCompare]
  | a :: left,b :: right => by
    rw [snmpOidCompare]
    by_cases same : a = b
    · simp [same,compare_zero left right]
    · by_cases less : a < b
      · simp [same,less]
      · simp [same,less]

theorem compare_more : snmpOidCompare left right > 0 ↔ right < left := by
  have less := compare_less left right
  have zero := compare_zero left right
  rcases lt_trichotomy left right with below | same | above
  · have negative := less.mpr below
    exact iff_of_false (by omega) (not_lt_of_gt below)
  · have nothing := zero.mpr same
    exact iff_of_false (by omega) (by simp [same])
  · have negative := mt less.mp (not_lt_of_gt above)
    have nothing := mt zero.mp (ne_of_gt above)
    exact iff_of_true (by omega) above

theorem checkOverflowS_small (low : -2147483648 ≤ x) (high : x ≤ 2147483647) : checkOverflowS x = x := by
  unfold checkOverflowS
  rw [if_neg (by omega),if_neg (by omega)]

theorem checkOverflowU_small (small : x ≤ 0xffffffff) : checkOverflowU x = x := by
  unfold checkOverflowU
  rw [if_neg (by omega)]

end NetSnmp.AsnTypes
