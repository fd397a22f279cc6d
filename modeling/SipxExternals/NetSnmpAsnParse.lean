import SipxExternals.NetSnmpAsnTypes

namespace NetSnmp.AsnParse
open Foundations AsnTypes
open Interaction (run_bind_ok)
open Probe (fetch fetchMany run_bind_fetch run_fetchMany slice)

-- A NULL return is a failure that carries the type stored by then.
structure Parsed (α : Type) where
  type : UInt8
  value : α
  next : Nat
  left : Nat
deriving Repr

structure Header where
  type : UInt8
  length : Nat
  next : Nat

def asnParseLength (data : Nat) : Probe Unit (Nat × Nat) := do
  let lengthbyte ← fetch data
  if lengthbyte &&& asnLongLen = 0 then return (lengthbyte.toNat,data+1)
  else
    let count := (lengthbyte &&& 0x7f).toNat
    if count = 0 then .fail ()
    else if count > sizeofLong then .fail ()
    else do
      let octets ← fetchMany (data+1) count
      if octetsValue octets ≥ 2^63 then .fail ()
      else return (octetsValue octets,data+1+count)

def asnParseLengthCheck (bufp data plen dlen : Nat) : Bool :=
  plen > 0x7fffffff || bufp-data > 0x7fffffff || plen+(bufp-data) > dlen

def sized (fault : ε) (place data datalength : Nat) (body : Nat → Nat → Probe ε α) : Probe ε α := do
  let found ← (asnParseLength place).failWith fault
  if asnParseLengthCheck found.2 data found.1 datalength then .fail fault else body found.1 found.2

def asnParseInt (data datalength : Nat) : Probe UInt8 (Parsed Int) := do
  let type ← fetch data
  if type ≠ asnInteger then .fail type
  else sized type (data+1) data datalength fun asnLength bufp =>
    if asnLength > sizeofLong then .fail type
    else do
      -- the sign is taken from the octet at bufp, also when there is no content
      let sign ← fetch bufp
      let octets ← fetchMany bufp asnLength
      let value := horner 256 (if sign &&& 0x80 ≠ 0 then -1 else 0) (octets.map fun b => (b.toNat : Int))
      return ⟨type,checkOverflowS value,bufp+asnLength,datalength-(asnLength+(bufp-data))⟩

def asnParseUnsignedInt (data datalength : Nat) : Probe UInt8 (Parsed Nat) := do
  let type ← fetch data
  if type ≠ asnCounter ∧ type ≠ asnGauge ∧ type ≠ asnTimeticks ∧ type ≠ asnUinteger then .fail type
  else sized type (data+1) data datalength fun asnLength bufp =>
    if asnLength > sizeofLong+1 then .fail type
    else do
      let first ← fetch bufp
      if asnLength = sizeofLong+1 ∧ first ≠ 0 then .fail type
      else do
        let octets ← fetchMany bufp asnLength
        let start := if first &&& 0x80 ≠ 0 then 2^64-1 else 0
        let value := octets.foldl (fun v b => (v*256+b.toNat)%2^64) start
        return ⟨type,checkOverflowU value,bufp+asnLength,datalength-(asnLength+(bufp-data))⟩

def asnParseString (data datalength strlength : Nat) : Probe UInt8 (Parsed (List UInt8)) := do
  let type ← fetch data
  if type ≠ asnOctetStr ∧ type ≠ asnIpaddress ∧ type ≠ asnOpaque ∧ type ≠ asnNsap then .fail type
  else sized type (data+1) data datalength fun asnLength bufp =>
    if asnLength > strlength then .fail type
    else do
      let octets ← fetchMany bufp asnLength
      return ⟨type,octets,bufp+asnLength,datalength-(asnLength+(bufp-data))⟩

def opaqueSpecial (tag : UInt8) : Bool :=
  tag = asnOpaqueCounter64 || tag = asnOpaqueU64 || tag = asnOpaqueFloat ||
    tag = asnOpaqueDouble || tag = asnOpaqueI64

def asnParseHeader (data datalength : Nat) : Probe Unit Header := do
  let type ← fetch data
  if type &&& asnExtensionId = asnExtensionId then .fail ()
  else sized () (data+1) data datalength fun asnLength bufp =>
    if type = asnOpaque then do
      let tag1 ← fetch bufp
      if tag1 = asnOpaqueTag1 then do
        let tag2 ← fetch (bufp+1)
        if opaqueSpecial tag2 then
          sized () (bufp+2) data datalength fun inner start => return ⟨tag2,inner,start⟩
        else return ⟨type,asnLength,bufp⟩
      else return ⟨type,asnLength,bufp⟩
    else return ⟨type,asnLength,bufp⟩

def asnParseSequence (data datalength : Nat) (expectedType : UInt8) : Probe Unit Header := do
  let header ← asnParseHeader data datalength
  if header.type ≠ expectedType then .fail () else return header

def subidentifier : Nat → Nat → Nat → Probe (UInt8 × Nat) (Nat × Nat × UInt8)
  | 0,_,acc => .done (acc,0,0)
  | length+1,bufp,acc => do
    let octet ← fetch bufp
    let acc := (acc*128+(octet &&& 0x7f).toNat)%2^64
    if octet &&& asnBit8 ≠ 0 ∧ length > 0 then subidentifier length (bufp+1) acc
    else return (acc,length,octet)

-- A failure carries *objidlength as the routine leaves it.
def subidentifiers (type : UInt8) (room length bufp : Nat) : Probe (UInt8 × Nat) (List Nat) :=
  match room,length with
  | _,0 => .done []
  | 0,_+1 => .fail (type,maxOidLen)
  | room+1,length+1 => do
    let (subid,left,last) ← subidentifier (length+1) bufp 0
    if left = 0 ∧ last &&& asnBit8 ≠ 0 then .fail (type,room)
    else if subid > maxSubid then .fail (type,room)
    else do
      let rest ← subidentifiers type room left (bufp+(length+1-left))
      return subid :: rest

def splitFirst : List Nat → List Nat
  | [] => [0]
  | first :: rest =>
    if first = 0x2b then 1 :: 3 :: rest
    else if first < 40 then 0 :: first :: rest
    else if first < 80 then 1 :: (first-40) :: rest
    else 2 :: (first-80) :: rest

def asnParseObjid (data datalength : Nat) : Probe (UInt8 × Nat) (Parsed (List Nat)) := do
  let type ← fetch data
  if type ≠ asnObjectId then .fail (type,maxOidLen)
  else sized (type,maxOidLen) (data+1) data datalength fun asnLength bufp => do
    let subids ← subidentifiers type (maxOidLen-1) asnLength bufp
    return ⟨type,splitFirst subids,bufp+asnLength,datalength-(asnLength+(bufp-data))⟩

def asnParseBitstring (data datalength strlength : Nat) : Probe UInt8 (Parsed (List UInt8)) := do
  let type ← fetch data
  if type ≠ asnBitStr then .fail type
  else sized type (data+1) data datalength fun asnLength bufp =>
    if asnLength > strlength then .fail type
    else do
      -- the octet is fetched as an argument of _asn_bitstring_check
      let _ ← fetch bufp
      if asnLength < 1 then .fail type
      else do
        let octets ← fetchMany bufp asnLength
        return ⟨type,octets,bufp+asnLength,datalength-(asnLength+(bufp-data))⟩

def shiftIn (word : Nat × Nat) (octet : UInt8) : Nat × Nat :=
  (((0x00ffffff &&& word.1) <<< 8) ||| ((word.2 &&& 0xff000000) >>> 24),
   ((word.2 &&& 0x00ffffff) <<< 8) ||| octet.toNat)

def uint64sizelimit : Nat := 9

def leadingOctet (asnLength bufp : Nat) : Probe UInt8 UInt8 :=
  if asnLength = uint64sizelimit then fetch bufp else pure 0

def asnParseUnsignedInt64 (data datalength : Nat) : Probe UInt8 (Parsed (Nat × Nat)) := do
  let type ← fetch data
  -- ASN_OPAQUE does not pass, so the unwrapping of an opaque that follows the
  -- length check in the source is never entered
  if type ≠ asnCounter64 ∧ type ≠ asnOpaqueCounter64 ∧ type ≠ asnOpaqueU64 then .fail type
  else sized type (data+1) data datalength fun asnLength bufp =>
    if asnLength > uint64sizelimit then .fail type
    else do
      let first ← leadingOctet asnLength bufp
      if first ≠ 0 then .fail type
      else do
        let octets ← fetchMany bufp asnLength
        let word := octets.foldl shiftIn (0,0)
        return ⟨type,(checkOverflowU word.1,checkOverflowU word.2),bufp+asnLength,datalength-(asnLength+(bufp-data))⟩

def asnParseSignedInt64 (data datalength : Nat) : Probe UInt8 (Parsed (Nat × Nat)) := do
  let type ← fetch data
  sized type (data+1) data datalength fun asnLength bufp => do
    -- both octets are looked at on either branch: the rejecting one prints them
    let tag1 ← fetch bufp
    let tag2 ← fetch (bufp+1)
    if type = asnOpaque ∧ asnLength ≤ asnOpaqueCounter64MxBerLen ∧ tag1 = asnOpaqueTag1 ∧ tag2 = asnOpaqueI64 then
      sized tag2 (bufp+2) data datalength fun inner start =>
        if inner > uint64sizelimit then .fail tag2
        else do
          let first ← fetch start
          if inner = uint64sizelimit ∧ first ≠ 0 then .fail tag2
          else do
            let octets ← fetchMany start inner
            let word := octets.foldl shiftIn (if first &&& 0x80 ≠ 0 then (0x00ffffff,0xffffffff) else (0,0))
            return ⟨tag2,(checkOverflowU word.1,checkOverflowU word.2),start+inner,datalength-(inner+(start-data))⟩
    else .fail type

def realContent (tag : UInt8) (berLen : Nat) (raw : UInt8) (asnLength bufp data datalength : Nat) :
    Probe UInt8 (UInt8 × Nat × Nat) :=
  if raw = asnOpaque ∧ asnLength = berLen then do
    let tag1 ← fetch bufp
    if tag1 = asnOpaqueTag1 then do
      let tag2 ← fetch (bufp+1)
      if tag2 = tag then sized raw (bufp+2) data datalength fun inner start => return (tag,inner,start)
      else return (raw,asnLength,bufp)
    else return (raw,asnLength,bufp)
  else return (raw,asnLength,bufp)

-- The returned pointer is the start of the content, not its end.
def asnParseReal (tag : UInt8) (berLen size : Nat) (data datalength : Nat) : Probe UInt8 (Parsed Nat) := do
  let raw ← fetch data
  sized raw (data+1) data datalength fun asnLength bufp => do
    let content ← realContent tag berLen raw asnLength bufp data datalength
    if content.1 ≠ tag then .fail content.1
    else if content.2.1 ≠ size then .fail content.1
    else do
      let octets ← fetchMany content.2.2 content.2.1
      return ⟨content.1,octetsValue octets,content.2.2,datalength-(content.2.1+(content.2.2-data))⟩

def asnParseFloat : Nat → Nat → Probe UInt8 (Parsed Nat) :=
  asnParseReal asnOpaqueFloat asnOpaqueFloatBerLen sizeofFloat

def asnParseDouble : Nat → Nat → Probe UInt8 (Parsed Nat) :=
  asnParseReal asnOpaqueDouble asnOpaqueDoubleBerLen sizeofDouble

-- The length field at `place` on the octets: the length itself, or the number of the
-- octets that hold it. The content then begins at the second index.
inductive Extent (memory : Memory) (place : Nat) : Nat → Nat → Prop where
  | short (one : memory place &&& asnLongLen = 0) : Extent memory place (memory place).toNat (place+1)
  | long (count : Nat) (more : memory place &&& asnLongLen ≠ 0) (counted : (memory place &&& 0x7f).toNat = count)
      (some : 0 < count) (few : count ≤ sizeofLong) (small : octetsValue (slice memory (place+1) count) < 2^63) :
      Extent memory place (octetsValue (slice memory (place+1) count)) (place+1+count)

theorem asnParseLength_extent :
    (asnParseLength place).run memory = .ok (length,start) ↔ Extent memory place length start := by
  rw [asnParseLength,run_bind_fetch]
  constructor
  · intro parsed
    by_cases one : memory place &&& asnLongLen = 0
    · rw [if_pos one] at parsed
      cases parsed
      exact .short one
    rw [if_neg one] at parsed
    dsimp only at parsed
    split at parsed
    · cases parsed
    split at parsed
    · cases parsed
    rw [run_bind_ok _ (run_fetchMany _ _ _)] at parsed
    split at parsed
    · cases parsed
    rename_i some few small
    cases parsed
    exact .long _ one rfl (Nat.pos_of_ne_zero some) (Nat.not_lt.mp few) (Nat.not_le.mp small)
  · intro extent
    cases extent with
    | short one => rw [if_pos one]; rfl
    | long count more counted some few small =>
      rw [if_neg more,counted]
      dsimp only
      rw [if_neg (Nat.ne_of_gt some),if_neg (Nat.not_lt.mpr few),run_bind_ok _ (run_fetchMany _ _ _),
        if_neg (Nat.not_le.mpr small)]
      rfl

theorem lengthCheck_false : asnParseLengthCheck bufp data plen dlen = false ↔
    plen ≤ 0x7fffffff ∧ bufp-data ≤ 0x7fffffff ∧ plen+(bufp-data) ≤ dlen := by
  simp [asnParseLengthCheck,Bool.or_eq_false_iff,gt_iff_lt,and_assoc]

structure Object (memory : Memory) (place data budget length start : Nat) : Prop where
  extent : Extent memory place length start
  room : length ≤ 0x7fffffff ∧ start-data ≤ 0x7fffffff ∧ length+(start-data) ≤ budget

theorem Object.parsed (object : Object memory place data budget length start) :
    (asnParseLength place).run memory = .ok (length,start) := asnParseLength_extent.mpr object.extent

theorem object_of_parsed (parsed : (asnParseLength place).run memory = .ok (length,start))
    (checked : asnParseLengthCheck start data length budget = false) : Object memory place data budget length start :=
  ⟨asnParseLength_extent.mp parsed,lengthCheck_false.mp checked⟩

section
variable (object : Object memory place data budget length start)
include object

theorem run_sized (fault : ε)
    (body : Nat → Nat → Probe ε α) : (sized fault place data budget body).run memory = (body length start).run memory := by
  rw [sized,run_bind_ok _ (Interaction.run_failWith_ok.mpr object.parsed)]
  dsimp only
  rw [lengthCheck_false.mpr object.room,if_neg (by simp)]

omit object in
theorem sized_ok (accepted : (sized fault place data budget body).run memory = .ok value) :
    ∃ length start, Object memory place data budget length start ∧ (body length start).run memory = .ok value := by
  obtain ⟨⟨length,start⟩,parsed,rest⟩ := Interaction.run_bind_eq_ok.mp accepted
  dsimp only at rest
  cases checked : asnParseLengthCheck start data length budget with
  | true => rw [checked] at rest; cases rest
  | false =>
    rw [checked] at rest
    exact ⟨length,start,object_of_parsed (Interaction.run_failWith_ok.mp parsed) checked,rest⟩

theorem accepts_sized :
    Probe.Accepts memory (sized fault place data budget body) ↔ Probe.Accepts memory (body length start) := by
  rw [Probe.Accepts,Probe.Accepts,run_sized object]

theorem object_unique (other : Object memory place base limit size begin) : length = size ∧ start = begin := by
  have same := object.parsed.symm.trans other.parsed
  simpa using same

end

end NetSnmp.AsnParse
