import Mathlib.Data.BitVec
import SipxExternals.FoundationsComparisons
import SipxExternals.FoundationsCStrings

namespace Mongo.BsonCompare
open Foundations.Segments Foundations.Comparisons Foundations.CStrings
variable {ν : Type}

mutual

-- The octets of a string are those in front of its terminator; a double is its bit pattern.
inductive Value where
  | minKey | undefined | null | maxKey
  | numberDouble (bits : BitVec 64)
  | numberInt (value : BitVec 32)
  | numberLong (value : BitVec 64)
  | string (octets : List UInt8)
  | symbol (octets : List UInt8)
  | code (octets : List UInt8)
  | object (fields : Fields)
  | array (fields : Fields)
  | binData (subtype : UInt8) (octets : List UInt8)
  | oid (octets : List UInt8)
  | bool (value : BitVec 8)
  | date (millis : BitVec 64)
  | timestamp (value : BitVec 64)
  | regEx (pattern flags : List UInt8)
  | dbRef (octets : List UInt8)
  | codeWScope (code scope : List UInt8)
  deriving DecidableEq

inductive Fields where
  | nil
  | cons (fieldName : String) (value : Value) (rest : Fields)
  deriving DecidableEq

end

def Value.canonicalType : Value → Int
  | .minKey => -1
  | .undefined => 0
  | .null => 5
  | .numberDouble _ | .numberInt _ | .numberLong _ => 10
  | .string _ | .symbol _ => 15
  | .object _ => 20
  | .array _ => 25
  | .binData _ _ => 30
  | .oid _ => 35
  | .bool _ => 40
  | .date _ | .timestamp _ => 45
  | .regEx _ _ => 50
  | .dbRef _ => 55
  | .code _ => 60
  | .codeWScope _ _ => 65
  | .maxKey => 127

-- The nearest number with 53 significant bits, the even one of two.
def nearest (n : Nat) : Nat :=
  let unit := 2^(n.log2-52)
  let rest := n%unit
  (n/unit+if rest*2 > unit ∨ (rest*2 = unit ∧ n/unit%2 = 1) then 1 else 0)*unit

-- A double in units of the least positive one; none is NaN. An infinity comes out above all others.
def doubleValue (bits : BitVec 64) : Option Int :=
  let exponent := bits.toNat/2^52%2048
  let fraction := bits.toNat%2^52
  let size : Nat := if exponent = 0 then fraction else (2^52+fraction)*2^(exponent-1)
  if exponent = 2047 ∧ fraction ≠ 0 then none else some (if bits.msb then -size else size)

def Value.number : Value → Option Int
  | .numberDouble bits => doubleValue bits
  | .numberInt value => some (value.toInt*2^1074)
  | .numberLong value => some (value.toInt.sign*nearest value.toInt.natAbs*2^1074)
  | _ => some 0

def numberCompare (left right : Value) : Int :=
  match left.number,right.number with
  | some l,some r => sign l r
  | none,none => 0
  | none,some _ => -1
  | some _,none => 1

def stringCompare (left right : List UInt8) : Int :=
  let lsz := left.length+1
  let rsz := right.length+1
  let res := memcmp (left++[0]) (right++[0]) (min lsz rsz)
  if res ≠ 0 then res else (lsz : Int)-rsz

def sizedCompare (left right : List UInt8) : Int :=
  if (left.length : Int)-right.length ≠ 0 then (left.length : Int)-right.length else memcmp left right left.length

def nameCompare (left right : String) : Int := lexicographic sign left.toList right.toList

mutual

-- none: Date() of an element that is no date throws.
def compareElementValues : Value → Value → Option Int
  | .undefined,.undefined | .null,.null | .maxKey,.maxKey | .minKey,.minKey => some 0
  | .bool l,.bool r => some (l.toInt-r.toInt)
  | .timestamp l,.timestamp r | .timestamp l,.date r => some (sign l.toNat r.toNat)
  | .date l,.date r => some (sign l.toInt r.toInt)
  | .numberLong l,.numberLong r => some (sign l.toInt r.toInt)
  | .numberInt l,.numberInt r => some (sign l.toInt r.toInt)
  | .oid l,.oid r => some (memcmp l r 12)
  | .code l,.code r | .string l,.string r | .string l,.symbol r | .symbol l,.string r | .symbol l,.symbol r =>
    some (stringCompare l r)
  | .object l,.object r | .array l,.array r => fieldsCompare l r
  | .dbRef l,.dbRef r => some (sizedCompare l r)
  | .binData subtype l,.binData other r =>
    some (orElse ((l.length : Int)-r.length) (memcmp (subtype :: l) (other :: r) (l.length+1)))
  | .regEx pattern flags,.regEx otherPattern otherFlags => some (orElse (strcmp pattern otherPattern) (strcmp flags otherFlags))
  | .codeWScope code scope,.codeWScope otherCode otherScope => some (orElse (strcmp code otherCode) (strcmp scope otherScope))
  | left,right => if left.canonicalType = 10 ∧ right.canonicalType = 10 then some (numberCompare left right) else none

def fieldsCompare : Fields → Fields → Option Int
  | .nil,.nil => some 0
  | .nil,.cons _ _ _ => some (-1)
  | .cons _ _ _,.nil => some 1
  | .cons name value rest,.cons otherName other others =>
    let types := value.canonicalType-other.canonicalType
    if types ≠ 0 then some types
    else if nameCompare name otherName ≠ 0 then some (nameCompare name otherName)
    else
      match compareElementValues value other with
      | none => none
      | some x => if x ≠ 0 then some x else fieldsCompare rest others

end

-- No comparison of two of the values throws.
structure KeyValues (ν : Type) where
  value : ν → Value
  compared : ∀ a b, (value a).canonicalType = (value b).canonicalType → (compareElementValues (value a) (value b)).isSome

-- BSONElement::woCompare without and with field names.
def KeyValues.woCompare (values : KeyValues ν) (left right : ν) : Int :=
  orElse ((values.value left).canonicalType-(values.value right).canonicalType)
    ((compareElementValues (values.value left) (values.value right)).getD 0)

def KeyValues.elementCompare (values : KeyValues ν) (leftName : String) (left : ν) (rightName : String) (right : ν) : Int :=
  orElse ((values.value left).canonicalType-(values.value right).canonicalType)
    (orElse (nameCompare leftName rightName) ((compareElementValues (values.value left) (values.value right)).getD 0))

theorem elements_ordered [LinearOrder κ] {values : KeyValues ν} {rank : ν → κ}
    (ranks : ∀ a b, (values.value a).canonicalType = (values.value b).canonicalType →
      compareElementValues (values.value a) (values.value b) = some (sign (rank a) (rank b))) :
    TotalPreorder fun l r : String × ν => values.elementCompare l.1 l.2 r.1 r.2 := by
  have shape : (fun l r : String × ν => values.elementCompare l.1 l.2 r.1 r.2) = fun l r =>
      orElse ((values.value l.2).canonicalType-(values.value r.2).canonicalType)
        (orElse (nameCompare l.1 r.1) (sign (rank l.2) (rank r.2))) := by
    funext l r
    rw [KeyValues.elementCompare]
    by_cases same : (values.value l.2).canonicalType = (values.value r.2).canonicalType
    · rw [ranks l.2 r.2 same,Option.getD_some]
    · simp [orElse,sub_eq_zero,same]
  rw [shape]
  refine orElse_order (difference_preorder.comap fun l : String × ν => (values.value l.2).canonicalType) (orElse_order ?_ ?_)
  · exact (lexicographic_order sign_order).comap fun l : String × ν => l.1.toList
  · exact sign_order.comap fun l : String × ν => rank l.2

theorem values_ordered {values : KeyValues ν} (order : TotalPreorder fun l r : String × ν => values.elementCompare l.1 l.2 r.1 r.2) :
    TotalPreorder values.woCompare := by
  have plain : values.woCompare = fun a b => values.elementCompare "" a "" b := rfl
  rw [plain]
  exact order.comap fun a => ("",a)

def sampleValue (n : Int) : Value :=
  if n ≤ -100 then .minKey else if 100 ≤ n then .maxKey else .numberLong (BitVec.ofInt 64 n)

theorem sample_ranks (a b : Int) (same : (sampleValue a).canonicalType = (sampleValue b).canonicalType) :
    compareElementValues (sampleValue a) (sampleValue b) = some (sign (max (-100) (min a 100)) (max (-100) (min b 100))) := by
  have whole : ∀ n : Int, -100 < n → n < 100 → (BitVec.ofInt 64 n).toInt = n := by
    intro n low high
    rw [BitVec.toInt_ofInt]
    exact Int.bmod_eq_of_le (by omega) (by omega)
  unfold sampleValue at *
  split_ifs at * <;> simp [Value.canonicalType] at same
  · rw [show max (-100) (min a 100) = max (-100) (min b 100) by omega,(sign_zero _ _).mpr rfl]
    rfl
  · rw [show max (-100) (min a 100) = max (-100) (min b 100) by omega,(sign_zero _ _).mpr rfl]
    rfl
  · rw [compareElementValues,whole a (by omega) (by omega),whole b (by omega) (by omega),
      show max (-100) (min a 100) = a by omega,show max (-100) (min b 100) = b by omega]

def sampleValues : KeyValues Int := ⟨sampleValue,fun a b same => by rw [sample_ranks a b same]; rfl⟩

theorem sampleValues_order : TotalPreorder sampleValues.woCompare := values_ordered (elements_ordered sample_ranks)

-- Two of them are compared as doubles unless both are longs.
inductive Mixed where
  | least
  | long (value : BitVec 64)
  | double (bits : BitVec 64)
  | greatest
  deriving DecidableEq

def Mixed.value : Mixed → Value
  | .least => .minKey
  | .long value => .numberLong value
  | .double bits => .numberDouble bits
  | .greatest => .maxKey

def mixedValues : KeyValues Mixed where
  value := Mixed.value
  compared := by
    rintro (_ | _ | _ | _) (_ | _ | _ | _) same <;> first | rfl | simp [Mixed.value,Value.canonicalType] at same

-- The double 2^53 and the one after it that is 8 more.
def double53 : Mixed := .double 0x4340000000000000

def double53Later : Mixed := .double 0x4340000000000004

end Mongo.BsonCompare
