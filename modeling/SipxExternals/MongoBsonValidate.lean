import Mathlib.Data.Nat.Notation
import SipxExternals.FoundationsRuns

namespace Mongo.BsonValidate
open Foundations.Runs

inductive BsonType where
  | minKey | numberDouble | string | object | array | binData | undefined | jstOID | bool | date
  | jstNULL | regEx | dBRef | code | symbol | codeWScope | numberInt | timestamp | numberLong | maxKey
  deriving DecidableEq

-- The type byte is read as a signed char, so that 0xff is MinKey; 0 is EOO.
def bsonType (byte : UInt8) : Option BsonType :=
  match byte.toNat with
  | 1 => some .numberDouble
  | 2 => some .string
  | 3 => some .object
  | 4 => some .array
  | 5 => some .binData
  | 6 => some .undefined
  | 7 => some .jstOID
  | 8 => some .bool
  | 9 => some .date
  | 10 => some .jstNULL
  | 11 => some .regEx
  | 12 => some .dBRef
  | 13 => some .code
  | 14 => some .symbol
  | 15 => some .codeWScope
  | 16 => some .numberInt
  | 17 => some .timestamp
  | 18 => some .numberLong
  | 127 => some .maxKey
  | 255 => some .minKey
  | _ => none

-- No object of the host is larger than half its address space.
structure Buffer where
  bytes : Nat → UInt8
  maxLength : Nat
  held : maxLength < 9223372036854775808

@[irreducible] def cInt (value : Int) : Int := Int.bmod value 4294967296
@[irreducible] def cUint64 (value : Int) : Nat := (value%18446744073709551616).toNat

def intAt (bytes : Nat → UInt8) (place : Nat) : Int :=
  cInt ((bytes place).toNat + 256 * (bytes (place+1)).toNat + 65536 * (bytes (place+2)).toNat +
    16777216 * (bytes (place+3)).toNat)

namespace Buffer

def room (buffer : Buffer) (position size : Nat) : Option Nat :=
  if cUint64 (position+size) > buffer.maxLength then none else some (cUint64 (position+size))

def readInt (buffer : Buffer) (position : Nat) : Option (Int × Nat) :=
  (buffer.room position 4).map fun next => (intAt buffer.bytes position,next)

def readChar (buffer : Buffer) (position : Nat) : Option (UInt8 × Nat) :=
  (buffer.room position 1).map fun next => (buffer.bytes position,next)

def memchr (bytes : Nat → UInt8) (place : Nat) : Nat → Option Nat
  | 0 => none
  | count+1 => if bytes place = 0 then some 0 else (memchr bytes (place+1) count).map (· + 1)

def readCString (buffer : Buffer) (position : Nat) : Except String Nat :=
  match memchr buffer.bytes position (cUint64 (buffer.maxLength-position)) with
  | none => .error "no end of c-string"
  | some len => .ok (cUint64 (position+(len+1)))

-- The position moves also when it leaves the buffer.
def skip (position : Nat) (size : Int) : Nat := cUint64 (position+size)

def readUTF8String (buffer : Buffer) (position : Nat) : Except String Nat :=
  match buffer.readInt position with
  | none => .error "invalid bson"
  | some (sz,start) =>
    let last := skip start (cInt (sz-1))
    if ¬ last < buffer.maxLength then .error "invalid bson" else
    match buffer.readChar last with
    | none => .error "invalid bson"
    | some (c,next) => if c ≠ 0 then .error "not null terminated string" else .ok next

end Buffer

inductive Next where
  | withinObj | endObj | beginObj | beginCodeWScope
  deriving DecidableEq

def skipFixed (buffer : Buffer) (position size : Nat) : Except String (Next × Nat) :=
  if Buffer.skip position size < buffer.maxLength then .ok (.withinObj,Buffer.skip position size)
  else .error "invalid bson"

def validateValue (buffer : Buffer) (position : Nat) : BsonType → Except String (Next × Nat)
  | .minKey | .maxKey | .jstNULL | .undefined => .ok (.withinObj,position)
  | .jstOID => skipFixed buffer position 12
  | .numberInt => skipFixed buffer position 4
  | .bool => skipFixed buffer position 1
  | .numberDouble | .numberLong | .timestamp | .date => skipFixed buffer position 8
  | .dBRef => do
    let next ← buffer.readUTF8String position
    -- the outcome of this skip is not looked at
    return (.withinObj,Buffer.skip next 12)
  | .regEx => do
    let options ← buffer.readCString position
    let next ← buffer.readCString options
    return (.withinObj,next)
  | .code | .symbol | .string => do
    let next ← buffer.readUTF8String position
    return (.withinObj,next)
  | .binData =>
    match buffer.readInt position with
    | none => .error "invalid bson"
    | some (sz,start) =>
      if Buffer.skip start (cInt (1+sz)) < buffer.maxLength then
        .ok (.withinObj,Buffer.skip start (cInt (1+sz)))
      else .error "invalid bson"
  | .codeWScope => .ok (.beginCodeWScope,position)
  | .object | .array => .ok (.beginObj,position)

def validateElementInfo (buffer : Buffer) (position : Nat) : Except String (Next × Nat) :=
  match buffer.readChar position with
  | none => .error "invalid bson"
  | some (type,name) =>
    if type = 0 then .ok (.endObj,name) else do
      let value ← buffer.readCString name
      match bsonType type with
      | none => .error "invalid bson type"
      | some known => validateValue buffer value known

-- The start is kept in 31 bits; the last bit tells code with scope apart.
structure ValidationObjectFrame where
  startPosition : Nat
  isCodeWithScope : Bool
  expectedSize : Int
  deriving DecidableEq

def openFrame (position : Nat) (isCodeWithScope : Bool) (expectedSize : Int) : ValidationObjectFrame :=
  ⟨position%2147483648,isCodeWithScope,expectedSize⟩

inductive Machine where
  | beginObj (frames : List ValidationObjectFrame) (position : Nat)
  | withinObj (curr : ValidationObjectFrame) (below : List ValidationObjectFrame) (position : Nat)
  | endObj (curr : ValidationObjectFrame) (below : List ValidationObjectFrame) (position : Nat)
  | beginCodeWScope (frames : List ValidationObjectFrame) (position : Nat)
  | endCodeWScope (curr : ValidationObjectFrame) (below : List ValidationObjectFrame) (position : Nat)
  | done
  deriving DecidableEq

def enter (curr : ValidationObjectFrame) (below : List ValidationObjectFrame) (position : Nat) : Next → Machine
  | .withinObj => .withinObj curr below position
  | .endObj => .endObj curr below position
  | .beginObj => .beginObj (curr :: below) position
  | .beginCodeWScope => .beginCodeWScope (curr :: below) position

def withinObj (buffer : Buffer) (curr : ValidationObjectFrame) (below : List ValidationObjectFrame)
    (position : Nat) : Except String Machine := do
  let (next,after) ← validateElementInfo buffer position
  return enter curr below after next

def actualLength (curr : ValidationObjectFrame) (position : Nat) : Int :=
  cInt (cUint64 ((position : Int)-curr.startPosition))

def machineStep (buffer : Buffer) : Machine → Except String Machine
  | .beginObj frames position =>
    match buffer.readInt position with
    | none => .error "bson size is larger than buffer size"
    | some (expectedSize,next) =>
      -- falls through to the elements
      withinObj buffer (openFrame position false expectedSize) frames next
  | .withinObj curr below position => withinObj buffer curr below position
  | .endObj curr below position =>
    if actualLength curr position ≠ curr.expectedSize then
      .error "bson length doesn't match what we found"
    else match below with
      | [] => .ok .done
      | frame :: frames =>
        if frame.isCodeWithScope then .ok (.endCodeWScope frame frames position)
        else .ok (.withinObj frame frames position)
  | .beginCodeWScope frames position =>
    match buffer.readInt position with
    | none => .error "invalid bson CodeWScope size"
    | some (expectedSize,text) => do
      let next ← buffer.readUTF8String text
      return .beginObj (openFrame position true expectedSize :: frames) next
  | .endCodeWScope curr below position =>
    if actualLength curr position ≠ curr.expectedSize then
      .error "bson length for CodeWScope doesn't match what we found"
    else match below with
      | [] => .error "unnested CodeWScope"
      | frame :: frames => .ok (.withinObj frame frames position)
  | .done => .ok .done

-- A failure names the _id element once that element has been passed.
inductive Failure where
  | short
  | invalid (baseMsg : String) (idElem : Option Nat)
  deriving DecidableEq

def makeError (baseMsg : String) (idElem : Option Nat) : Failure := .invalid baseMsg idElem

structure Validation where
  machine : Machine
  idElemStartPos : Nat
  idElem : Option Nat
  deriving DecidableEq

def topElement : Machine → Option Nat
  | .beginObj [] position => some (position+4)
  | .withinObj _ [] position => some position
  | _ => none

def settleId (validation : Validation) : Validation :=
  if (topElement validation.machine).isSome ∧ validation.idElemStartPos ≠ 0 then
    { validation with idElem := some validation.idElemStartPos, idElemStartPos := 0 }
  else validation

def isEndObj : Machine → Bool
  | .endObj .. => true
  | _ => false

def namedId (bytes : Nat → UInt8) (place : Nat) : Bool :=
  bytes place == 95 && bytes (place+1) == 105 && bytes (place+2) == 100 && bytes (place+3) == 0

def noteId (buffer : Buffer) (settled : Validation) (machine : Machine) : Nat :=
  match topElement settled.machine with
  | none => settled.idElemStartPos
  | some start =>
    if isEndObj machine = false ∧ settled.idElem = none ∧ namedId buffer.bytes (start+1) then start
    else settled.idElemStartPos

def step (buffer : Buffer) (validation : Validation) : Except Failure Validation :=
  match machineStep buffer validation.machine with
  | .error baseMsg => .error (makeError baseMsg (settleId validation).idElem)
  | .ok machine =>
    .ok ⟨machine,noteId buffer (settleId validation) machine,(settleId validation).idElem⟩

def finished : Machine → Bool
  | .done => true
  | _ => false

def validateBSONIterative (buffer : Buffer) (turns : Nat) : Option (Except Failure Validation) :=
  run (step buffer) (fun validation => finished validation.machine) turns ⟨.beginObj [] 0,0,none⟩

def validateBSON (buffer : Buffer) (turns : Nat) : Option (Except Failure Unit) :=
  if buffer.maxLength < 5 then some (.error .short)
  else (validateBSONIterative buffer turns).map fun result => result.map fun _ => ()

end Mongo.BsonValidate
