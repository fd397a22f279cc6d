import SipxExternals.FoundationsBackfill
import SipxExternals.NetSnmpAsnTypes

namespace NetSnmp.AsnRbuild
open Foundations AsnTypes

-- The buffer of the reverse encoder is filled from its end: size is *pkt_len, offset
-- is *offset. A step that returns 0 is one without a value.
abbrev Rb := Backfill

def snmpRealloc (len : Nat) : Nat :=
  if len ≤ 255 then len+256 else if len ≤ 8191 then len*2 else len+8192

def reserve (r : Bool) (need : Nat) : Rb Unit := Backfill.reserve snmpRealloc r need

def put (r : Bool) (octet : UInt8) : Rb Unit := Backfill.put snmpRealloc r octet

-- The loops below take the number of rounds they may make. It is enough for each of
-- them except where it is said to be the address space.
def lengthLoop (r : Bool) : Nat → Nat → Rb Nat
  | 0,_ => Backfill.fail
  | rounds+1,length =>
    if length > 0xff then do
      put r (UInt8.ofNat (length &&& 0xff))
      lengthLoop r rounds (length >>> 8)
    else return length

def asnReallocRbuildLength (r : Bool) (length : Nat) : Rb Unit :=
  if length ≤ 0x7f then put r (UInt8.ofNat length)
  else do
    let size ← Backfill.measured do
      let rest ← lengthLoop r (length+1) length
      reserve r 2
      Backfill.push (UInt8.ofNat (rest &&& 0xff))
    Backfill.push (UInt8.ofNat size ||| 0x80)

def asnReallocRbuildHeader (r : Bool) (type : UInt8) (length : Nat) : Rb Unit := do
  asnReallocRbuildLength r length
  put r type

def asnReallocRbuildSequence : Bool → UInt8 → Nat → Rb Unit := asnReallocRbuildHeader

def headerCheck (typedlen : Nat) : Rb Unit := Backfill.demand typedlen

def rbuildHeaded (r : Bool) (type : UInt8) (content : Rb Unit) : Rb Nat := do
  let size ← Backfill.measured content
  asnReallocRbuildHeader r type size
  return size

def rbuildChecked (r : Bool) (type : UInt8) (content : Rb Unit) : Rb Unit := do
  let size ← rbuildHeaded r type content
  headerCheck size

def rbuildObject (r : Bool) (type : UInt8) (content : Rb Unit) : Rb Unit := do
  let all ← Backfill.measured do
    let size ← Backfill.measured content
    asnReallocRbuildHeader r type size
  headerCheck all

def cByte (x : Int) : UInt8 := UInt8.ofNat (x%256).toNat

def intLoop (r : Bool) (testvalue : Int) : Nat → Int → Rb Unit
  | 0,_ => Backfill.fail
  | rounds+1,integer =>
    if integer ≠ testvalue then do
      put r (cByte integer)
      intLoop r testvalue rounds (integer / 256)
    else return ()

def padSign (r : Bool) (testvalue : Int) : Rb Unit := do
  let first ← Backfill.top
  if first &&& 0x80 ≠ cByte testvalue &&& 0x80 then put r (cByte testvalue) else return ()

def signOf (integer : Int) : Int := if integer < 0 then -1 else 0

def intOctets (r : Bool) (integer : Int) : Rb Unit := do
  put r (cByte integer)
  intLoop r (signOf integer) (integer.natAbs+1) (integer / 256)

def intContent (r : Bool) (integer : Int) : Rb Unit := do
  intOctets r integer
  padSign r (signOf integer)

def asnReallocRbuildInt (r : Bool) (type : UInt8) (value : Int) (intsize : Nat) : Rb Unit :=
  if intsize ≠ sizeofLong then Backfill.fail
  else rbuildObject r type (intContent r (checkOverflowS value))

def stringContent (r : Bool) (str : List UInt8) : Rb Unit := do
  reserve r str.length
  Backfill.pushMany str

def asnReallocRbuildString (r : Bool) (type : UInt8) (str : List UInt8) : Rb Unit :=
  rbuildChecked r type (stringContent r str)

def uintLoop (r : Bool) : Nat → Nat → Rb Unit
  | 0,_ => Backfill.fail
  | rounds+1,integer =>
    if integer ≠ 0 then do
      put r (UInt8.ofNat integer)
      uintLoop r rounds (integer >>> 8)
    else return ()

def uintOctets (r : Bool) (integer : Nat) : Rb Unit := do
  put r (UInt8.ofNat integer)
  uintLoop r (integer+1) (integer >>> 8)

def uintContent (r : Bool) (integer : Nat) : Rb Unit := do
  uintOctets r integer
  padSign r 0

def asnReallocRbuildUnsignedInt (r : Bool) (type : UInt8) (value intsize : Nat) : Rb Unit :=
  if intsize ≠ sizeofLong then Backfill.fail
  else rbuildObject r type (uintContent r (checkOverflowU value))

def subidLoop (r : Bool) : Nat → Nat → Rb Unit
  | 0,_ => Backfill.fail
  | rounds+1,subid =>
    if subid > 0 then do
      put r (UInt8.ofNat ((subid &&& 0x7f) ||| 0x80))
      subidLoop r rounds (subid >>> 7)
    else return ()

def putSubid (r : Bool) (subid : Nat) : Rb Unit := do
  put r (UInt8.ofNat (subid &&& 0x7f))
  subidLoop r (subid+1) (subid >>> 7)

def putSubids (r : Bool) : List Nat → Rb Unit
  | [] => return ()
  | subid :: rest => do
    putSubids r rest
    putSubid r (checkOverflowU subid)

def objidContent (r : Bool) : List Nat → Rb Unit
  | [] => do
    reserve r 2
    Backfill.push 0
    Backfill.push 0
  | [first] => if first > 2 then Backfill.fail else put r (UInt8.ofNat first)
  | first :: second :: rest =>
    if first > 2 then Backfill.fail
    else do
      putSubids r rest
      if second > 40 ∧ first < 2 then Backfill.fail
      else putSubid r ((first*40+second)%2^64)

def asnReallocRbuildObjid (r : Bool) (type : UInt8) (objid : List Nat) : Rb Unit :=
  rbuildObject r type (objidContent r objid)

def asnReallocRbuildNull (r : Bool) (type : UInt8) : Rb Unit := asnReallocRbuildHeader r type 0

-- asn_realloc_rbuild_bitstring is asn_realloc_rbuild_string word for word.
def asnReallocRbuildBitstring : Bool → UInt8 → List UInt8 → Rb Unit := asnReallocRbuildString

def lowLoop (r : Bool) : Nat → Nat → Nat → Rb Nat
  | 0,_,_ => Backfill.fail
  | rounds+1,low,count =>
    if low ≠ 0 then do
      put r (UInt8.ofNat low)
      lowLoop r rounds (low >>> 8) (count+1)
    else return count

def putMany (r : Bool) (octet : UInt8) : Nat → Rb Unit
  | 0 => return ()
  | count+1 => do
    put r octet
    putMany r octet count

def opaqueContent (r : Bool) (tag : UInt8) (content : Rb Unit) : Rb Unit := do
  let intsize ← Backfill.measured content
  reserve r 5
  Backfill.push (UInt8.ofNat intsize)
  Backfill.push tag
  Backfill.push asnOpaqueTag1

def uint64Octets (r : Bool) (high low : Nat) : Rb Unit := do
  put r (UInt8.ofNat low)
  let count ← lowLoop r (low+1) (low >>> 8) 1
  if high ≠ 0 then do
    putMany r 0 (4-count)
    uintOctets r high
  else return ()

def uint64Content (r : Bool) (high low : Nat) : Rb Unit := do
  uint64Octets r high low
  padSign r 0

def asnReallocRbuildUnsignedInt64 (r : Bool) (type : UInt8) (word : Nat × Nat) (countersize : Nat) : Rb Unit :=
  if countersize ≠ sizeofCounter64 then Backfill.fail
  else
    let content := uint64Content r (checkOverflowU word.1) (checkOverflowU word.2)
    if type = asnOpaqueCounter64 ∨ type = asnOpaqueU64 then
      rbuildChecked r asnOpaque (opaqueContent r type content)
    else rbuildChecked r type content

def signedLowLoop (r : Bool) (testvalue : Int) : Nat → Nat → Nat → Rb Nat
  | 0,_,_ => Backfill.fail
  | rounds+1,low,count =>
    if cInt low ≠ testvalue ∧ count < 4 then do
      put r (UInt8.ofNat low)
      signedLowLoop r testvalue rounds (low >>> 8) (count+1)
    else return count

-- while ((int) high != testvalue), where high is a long. For a negative value the
-- loop does not end by itself; the address space ends it.
def addressSpace : Nat := 2^64

def signedHighLoop (r : Bool) (testvalue : Int) : Nat → Int → Rb Unit
  | 0,_ => Backfill.fail
  | rounds+1,high =>
    if Int.bmod high (2^32) ≠ testvalue then do
      put r (cByte high)
      signedHighLoop r testvalue rounds (high / 256)
    else return ()

def int64Octets (r : Bool) (testvalue high : Int) (low : Nat) : Rb Unit := do
  put r (UInt8.ofNat low)
  let count ← signedLowLoop r testvalue 4 (low >>> 8) 1
  if high ≠ testvalue then do
    putMany r (cByte testvalue) (4-count)
    put r (cByte high)
    signedHighLoop r testvalue addressSpace (high / 256)
  else return ()

def int64Content (r : Bool) (testvalue high : Int) (low : Nat) : Rb Unit := do
  int64Octets r testvalue high low
  padSign r testvalue

def asnReallocRbuildSignedInt64 (r : Bool) (word : Nat × Nat) (countersize : Nat) : Rb Unit :=
  if countersize ≠ sizeofCounter64 then Backfill.fail
  else
    let testvalue : Int := if word.1 &&& 0x80000000 ≠ 0 then -1 else 0
    let high := checkOverflowS (Int.bmod word.1 (2^64))
    rbuildChecked r asnOpaque (opaqueContent r asnOpaqueI64 (int64Content r testvalue high (checkOverflowU word.2)))

def bitsOctets : Nat → Nat → List UInt8
  | 0,_ => []
  | size+1,bits => bitsOctets size (bits/256)++[UInt8.ofNat bits]

def realContent (tag : UInt8) (r : Bool) (bits realsize : Nat) : Rb Unit := do
  reserve r (realsize+3)
  Backfill.pushMany (bitsOctets realsize bits)
  Backfill.push (UInt8.ofNat realsize)
  Backfill.push tag
  Backfill.push asnOpaqueTag1

def asnReallocRbuildReal (tag : UInt8) (size : Nat) (r : Bool) (bits realsize : Nat) : Rb Unit :=
  if realsize ≠ size ∨ realsize > 122 then Backfill.fail
  else rbuildChecked r asnOpaque (realContent tag r bits realsize)

def asnReallocRbuildFloat : Bool → Nat → Nat → Rb Unit := asnReallocRbuildReal asnOpaqueFloat sizeofFloat
def asnReallocRbuildDouble : Bool → Nat → Nat → Rb Unit := asnReallocRbuildReal asnOpaqueDouble sizeofDouble

end NetSnmp.AsnRbuild
