import Mathlib.Tactic.Ring
import SipxExternals.MongoBsonValidate

namespace Mongo.BsonValidate
open Foundations.Runs

theorem cInt_range (value : Int) : -2^31 ≤ cInt value ∧ cInt value < 2^31 := by
  unfold cInt
  have low : -((4294967296 : Nat) / 2 : Int) ≤ Int.bmod value 4294967296 := Int.le_bmod (by decide)
  have high : Int.bmod value 4294967296 < ((4294967296 : Nat)+1 : Int) / 2 := Int.bmod_lt (by decide)
  omega

theorem cInt_small (low : -2^31 ≤ value) (high : value < 2^31) : cInt value = value := by
  unfold cInt
  exact Int.bmod_eq_of_le (by omega) (by omega)

theorem room_exact {buffer : Buffer} (near : position ≤ buffer.maxLength+12) (narrow : size ≤ 4) :
    buffer.room position size = some next ↔ position+size ≤ buffer.maxLength ∧ next = position+size := by
  have held := buffer.held
  have same : cUint64 ((position : Int)+size) = position+size := by
    unfold cUint64
    omega
  unfold Buffer.room
  rw [same]
  split
  · simp only [reduceCtorEq,false_iff]
    omega
  · rw [Option.some.injEq]
    omega

theorem room_map {buffer : Buffer} {read : Nat → α} (near : position ≤ buffer.maxLength+12) (narrow : size ≤ 4) :
    (buffer.room position size).map read = some found ↔ position+size ≤ buffer.maxLength ∧ found = read (position+size) := by
  simp only [Option.map_eq_some_iff,room_exact near narrow,and_assoc,exists_and_left,exists_eq_left]
  exact and_congr_right fun _ => eq_comm

theorem readInt_exact {buffer : Buffer} (near : position ≤ buffer.maxLength+12) :
    buffer.readInt position = some (value,next) ↔
      position+4 ≤ buffer.maxLength ∧ value = intAt buffer.bytes position ∧ next = position+4 := by
  rw [Buffer.readInt,room_map near (by decide),Prod.mk.injEq]

theorem readChar_exact {buffer : Buffer} (near : position ≤ buffer.maxLength+12) :
    buffer.readChar position = some (value,next) ↔
      position < buffer.maxLength ∧ value = buffer.bytes position ∧ next = position+1 := by
  rw [Buffer.readChar,room_map near (by decide),Prod.mk.injEq]
  rfl

def Named (bytes : Nat → UInt8) (limit start next : Nat) : Prop :=
  ∃ len, next = start+len+1 ∧ next ≤ limit ∧ bytes (start+len) = 0 ∧
    ∀ place, start ≤ place → place < start+len → bytes place ≠ 0

theorem memchr_exact (bytes : Nat → UInt8) (start count len : Nat) : Buffer.memchr bytes start count = some len ↔
      len < count ∧ bytes (start+len) = 0 ∧ ∀ place, start ≤ place → place < start+len → bytes place ≠ 0 := by
  induction count generalizing start len with
  | zero => simp [Buffer.memchr]
  | succ count ih =>
    unfold Buffer.memchr
    by_cases zero : bytes start = 0
    · rw [if_pos zero,Option.some.injEq]
      constructor
      · rintro rfl
        exact ⟨by omega,zero,fun place from_ before => by omega⟩
      rintro ⟨_,_,others⟩
      by_cases first : len = 0
      · exact first.symm
      · exact absurd zero (others start (by omega) (by omega))
    rw [if_neg zero,Option.map_eq_some_iff]
    constructor
    · rintro ⟨rest,found,rfl⟩
      obtain ⟨fits,ended,others⟩ := (ih (start+1) rest).mp found
      refine ⟨by omega,by rwa [show start+(rest+1) = start+1+rest by omega],?_⟩
      intro place after before
      by_cases first : place = start
      · rw [first]
        exact zero
      · exact others place (by omega) (by omega)
    rintro ⟨fits,ended,others⟩
    have positive : len ≠ 0 := by
      rintro rfl
      exact zero ended
    refine ⟨len-1,(ih (start+1) (len-1)).mpr ⟨by omega,?_,?_⟩,by omega⟩
    · rwa [show start+1+(len-1) = start+len by omega]
    · intro place after before
      exact others place (by omega) (by omega)

theorem named_grows (named : Named bytes limit start next) : start < next ∧ next ≤ limit := by
  obtain ⟨len,rfl,fits,_⟩ := named
  omega

theorem named_unique (first : Named bytes limit start next) (second : Named bytes other start last) : next = last := by
  obtain ⟨len,rfl,_,ended,others⟩ := first
  obtain ⟨len',rfl,_,ended',others'⟩ := second
  by_cases shorter : len < len'
  · exact absurd ended (others' _ (by omega) (by omega))
  · by_cases longer : len' < len
    · exact absurd ended' (others _ (by omega) (by omega))
    · omega

theorem readCString_exact {buffer : Buffer} (inside : position ≤ buffer.maxLength) :
    buffer.readCString position = .ok next ↔ Named buffer.bytes buffer.maxLength position next := by
  have held := buffer.held
  have count : cUint64 ((buffer.maxLength : Int)-position) = buffer.maxLength-position := by
    unfold cUint64
    omega
  unfold Buffer.readCString
  rw [count]
  cases found : Buffer.memchr buffer.bytes position (buffer.maxLength-position) with
  | none =>
    constructor
    · intro impossible
      cases impossible
    rintro ⟨len,rfl,fits,ended,others⟩
    have present := (memchr_exact buffer.bytes position (buffer.maxLength-position) len).mpr ⟨by omega,ended,others⟩
    rw [found] at present
    cases present
  | some len =>
    obtain ⟨fits,ended,others⟩ := (memchr_exact _ _ _ _).mp found
    have place : cUint64 ((position : Int)+(len+1)) = position+len+1 := by
      unfold cUint64
      omega
    have named : Named buffer.bytes buffer.maxLength position (position+len+1) :=
      ⟨len,rfl,by omega,ended,others⟩
    constructor
    · intro equal
      cases equal
      rw [place]
      exact named
    · intro other
      dsimp only
      rw [place,named_unique named other]

theorem skip_exact {buffer : Buffer} (next : Nat) (near : position ≤ buffer.maxLength+12)
    (low : -2^31 ≤ size) (high : size < 2^31) :
    Buffer.skip position size < buffer.maxLength ∧ next = Buffer.skip position size ↔
      (next : Int) = position+size ∧ next < buffer.maxLength := by
  have held := buffer.held
  unfold Buffer.skip cUint64
  omega

-- The distance from the length of a string or of binary data over its bytes, as
-- the int arithmetic of the callers of skip has it.
def textMove (bytes : Nat → UInt8) (place : Nat) : Int := cInt (intAt bytes place-1)+1
def binaryMove (bytes : Nat → UInt8) (place : Nat) : Int := cInt (1+intAt bytes place)

structure TextMoved (buffer : Buffer) (start next : Nat) : Prop where
  sized : start+4 ≤ buffer.maxLength
  moved : (next : Int) = start+4+textMove buffer.bytes start
  positive : 0 < next
  inside : next ≤ buffer.maxLength
  ended : buffer.bytes (next-1) = 0

theorem readUTF8String_exact {buffer : Buffer} (near : position ≤ buffer.maxLength+12) :
    buffer.readUTF8String position = .ok next ↔ TextMoved buffer position next := by
  unfold Buffer.readUTF8String
  cases read : buffer.readInt position with
  | none =>
    constructor
    · intro impossible
      cases impossible
    · intro moved
      rw [(readInt_exact near).mpr ⟨moved.sized,rfl,rfl⟩] at read
      cases read
  | some found =>
    obtain ⟨sz,start⟩ := found
    obtain ⟨sized,rfl,rfl⟩ := (readInt_exact near).mp read
    obtain ⟨low,high⟩ := cInt_range (intAt buffer.bytes position-1)
    dsimp only
    have exactly := fun last : Nat =>
      skip_exact last (show position+4 ≤ buffer.maxLength+12 by omega) low high
    obtain ⟨size,sizeIs⟩ : ∃ size, cInt (intAt buffer.bytes position-1) = size := ⟨_,rfl⟩
    obtain ⟨last,lastIs⟩ : ∃ last, Buffer.skip (position+4) size = last := ⟨_,rfl⟩
    have move : textMove buffer.bytes position = size+1 := by rw [textMove,sizeIs]
    rw [sizeIs,lastIs]
    simp only [sizeIs,lastIs] at exactly
    by_cases inside : last < buffer.maxLength
    · obtain ⟨moved,_⟩ := (exactly last).mp ⟨inside,rfl⟩
      rw [if_neg (not_not_intro inside),(readChar_exact (by omega)).mpr ⟨inside,rfl,rfl⟩]
      dsimp only
      by_cases zero : buffer.bytes last = 0
      · rw [if_neg (not_not_intro zero)]
        constructor
        · intro equal
          cases equal
          exact ⟨sized,by omega,by omega,by omega,zero⟩
        · intro text
          have reached := text.moved
          rw [show next = last+1 by omega]
      rw [if_pos zero]
      constructor
      · intro impossible
        cases impossible
      intro text
      have reached := text.moved
      have ended := text.ended
      rw [show next-1 = last by omega] at ended
      exact absurd ended zero
    · rw [if_pos inside]
      constructor
      · intro impossible
        cases impossible
      intro text
      have reached := text.moved
      have positive := text.positive
      have fits := text.inside
      exact absurd ((exactly (next-1)).mpr ⟨by omega,by omega⟩).1 inside

def fixedSize : BsonType → Option Nat
  | .minKey | .maxKey | .jstNULL | .undefined => some 0
  | .bool => some 1
  | .numberInt => some 4
  | .numberDouble | .numberLong | .timestamp | .date => some 8
  | .jstOID => some 12
  | _ => none

def isText : BsonType → Bool
  | .code | .symbol | .string => true
  | _ => false

def isObject : BsonType → Bool
  | .object | .array => true
  | _ => false

inductive Moved (buffer : Buffer) : BsonType → Nat → Nat → Prop where
  | fixed : fixedSize type = some size → (0 < size → start+size < buffer.maxLength) →
      Moved buffer type start (start+size)
  | text : isText type = true → TextMoved buffer start next → Moved buffer type start next
  | reference : TextMoved buffer start oid → Moved buffer .dBRef start (oid+12)
  | regex : Named buffer.bytes buffer.maxLength start options →
      Named buffer.bytes buffer.maxLength options next → Moved buffer .regEx start next
  | binary {start next : Nat} : start+4 ≤ buffer.maxLength → (next : Int) = start+4+binaryMove buffer.bytes start →
      next < buffer.maxLength → Moved buffer .binData start next

theorem skipFixed_exact (inside : position ≤ buffer.maxLength) (small : size ≤ 12) :
    skipFixed buffer position size = .ok (next,after) ↔
      next = .withinObj ∧ after = position+size ∧ position+size < buffer.maxLength := by
  have exactly := fun last : Nat => skip_exact last
    (show position ≤ buffer.maxLength+12 by omega) (show -2^31 ≤ (size : Int) by omega) (by omega)
  unfold skipFixed
  by_cases fits : Buffer.skip position size < buffer.maxLength
  · rw [if_pos fits]
    obtain ⟨moved,inner⟩ := (exactly _).mp ⟨fits,rfl⟩
    constructor
    · intro equal
      cases equal
      exact ⟨rfl,by omega,by omega⟩
    · rintro ⟨rfl,rfl,_⟩
      rw [show Buffer.skip position size = position+size by omega]
  · rw [if_neg fits]
    constructor
    · intro impossible
      cases impossible
    · rintro ⟨_,_,inner⟩
      exact absurd ((exactly _).mpr ⟨by omega,inner⟩).1 fits

theorem moved_fixed (sized : fixedSize type = some size) : Moved buffer type start next ↔
      next = start+size ∧ (0 < size → start+size < buffer.maxLength) := by
  constructor
  · intro moved
    cases moved with
    | fixed known fits =>
      rw [sized] at known
      cases known
      exact ⟨rfl,fits⟩
    | text known _ => cases type <;> cases known <;> cases sized
    | reference | regex | binary => cases sized
  · rintro ⟨rfl,fits⟩
    exact .fixed sized fits

theorem moved_text (text : isText type = true) : Moved buffer type start next ↔ TextMoved buffer start next := by
  constructor
  · intro moved
    cases moved with
    | text _ moved => exact moved
    | fixed known _ => cases type <;> cases text <;> cases known
    | reference | regex | binary => cases text
  · exact .text text

theorem skipFixed_moved (inside : position ≤ buffer.maxLength)
    (sized : fixedSize type = some size) (some_ : 0 < size) (small : size ≤ 12) :
    skipFixed buffer position size = .ok (next,after) ↔ next = .withinObj ∧ Moved buffer type position after := by
  rw [skipFixed_exact inside small,moved_fixed sized]
  tauto

theorem readText_moved (inside : position ≤ buffer.maxLength) :
    (do let last ← buffer.readUTF8String position
        return ((.withinObj : Next),last) : Except String (Next × Nat)) = .ok (next,after) ↔
      next = .withinObj ∧ TextMoved buffer position after := by
  rw [← readUTF8String_exact (by omega)]
  cases buffer.readUTF8String position with
  | error message => simp [bind,Except.bind]
  | ok last => simp [bind,Except.bind,pure,Except.pure,eq_comm]

theorem moved_near (inside : start ≤ buffer.maxLength)
    (moved : Moved buffer type start next) : next ≤ buffer.maxLength+12 := by
  cases moved with
  | @fixed _ size _ _ fits =>
    by_cases some_ : 0 < size
    · omega
    · omega
  | text _ text => exact Nat.le_add_right_of_le text.inside
  | reference text => exact Nat.add_le_add_right text.inside 12
  | regex _ flags => exact Nat.le_add_right_of_le (named_grows flags).2
  | binary _ _ fits => omega

theorem skip_reference {buffer : Buffer} (inside : oid ≤ buffer.maxLength) : Buffer.skip oid 12 = oid+12 := by
  have held := buffer.held
  unfold Buffer.skip cUint64
  omega

theorem readReference_moved (inside : position ≤ buffer.maxLength) :
    validateValue buffer position .dBRef = .ok (next,after) ↔
      next = .withinObj ∧ Moved buffer .dBRef position after := by
  have exactly := fun oid : Nat =>
    @readUTF8String_exact position oid buffer (by omega)
  unfold validateValue
  cases read : buffer.readUTF8String position with
  | error message =>
    constructor
    · intro impossible
      cases impossible
    rintro ⟨_,moved⟩
    cases moved with
    | fixed known _ | text known _ => cases known
    | reference text =>
      rw [(exactly _).mpr text] at read
      cases read
  | ok oid =>
    have text := (exactly oid).mp read
    simp only [bind,Except.bind,pure,Except.pure,skip_reference text.inside]
    constructor
    · intro equal
      cases equal
      exact ⟨rfl,.reference text⟩
    rintro ⟨rfl,moved⟩
    cases moved with
    | fixed known _ | text known _ => cases known
    | reference other =>
      rw [(exactly _).mpr other] at read
      cases read
      rfl

theorem readRegex_moved (inside : position ≤ buffer.maxLength) :
    validateValue buffer position .regEx = .ok (next,after) ↔
      next = .withinObj ∧ Moved buffer .regEx position after := by
  have exactly := fun (start last : Nat) (within : start ≤ buffer.maxLength) =>
    @readCString_exact start last buffer within
  unfold validateValue
  constructor
  · intro passed
    cases first : buffer.readCString position with
    | error message => simp [first,bind,Except.bind] at passed
    | ok options =>
      have pattern := (exactly position options inside).mp first
      cases second : buffer.readCString options with
      | error message => simp [first,second,bind,Except.bind] at passed
      | ok last =>
        have flags := (exactly options last (named_grows pattern).2).mp second
        simp only [first,second,bind,Except.bind,pure,Except.pure] at passed
        cases passed
        exact ⟨rfl,.regex pattern flags⟩
  · rintro ⟨rfl,moved⟩
    cases moved with
    | fixed known _ | text known _ => cases known
    | regex pattern flags =>
      simp only [(exactly _ _ inside).mpr pattern,(exactly _ _ (named_grows pattern).2).mpr flags,
        bind,Except.bind,pure,Except.pure]

theorem readBinary_moved (inside : position ≤ buffer.maxLength) :
    validateValue buffer position .binData = .ok (next,after) ↔
      next = .withinObj ∧ Moved buffer .binData position after := by
  obtain ⟨low,high⟩ := cInt_range (1+intAt buffer.bytes position)
  have exactly := fun (last : Nat) (sized : position+4 ≤ buffer.maxLength) =>
    skip_exact last (show position+4 ≤ buffer.maxLength+12 by omega) low high
  have near : position ≤ buffer.maxLength+12 := by omega
  unfold validateValue
  constructor
  · intro passed
    cases read : buffer.readInt position with
    | none => simp [read] at passed
    | some found =>
      obtain ⟨sz,start⟩ := found
      obtain ⟨sized,rfl,rfl⟩ := (readInt_exact near).mp read
      simp only [read] at passed
      split at passed
      · rename_i fits
        obtain ⟨moved,_⟩ := (exactly _ sized).mp ⟨fits,rfl⟩
        cases passed
        exact ⟨rfl,.binary sized (by rw [moved,binaryMove]; omega) fits⟩
      · cases passed
  · rintro ⟨rfl,moved⟩
    cases moved with
    | fixed known _ | text known _ => cases known
    | binary sized moved fits =>
      rw [binaryMove] at moved
      obtain ⟨within,same⟩ := (exactly after sized).mpr ⟨by omega,fits⟩
      rw [(readInt_exact near).mpr ⟨sized,rfl,rfl⟩]
      dsimp only
      rw [if_pos within,← same]

theorem validateValue_exact (inside : position ≤ buffer.maxLength) :
    validateValue buffer position type = .ok (next,after) ↔ (next = .withinObj ∧ Moved buffer type position after) ∨
        (next = .beginObj ∧ isObject type = true ∧ after = position) ∨
          (next = .beginCodeWScope ∧ type = .codeWScope ∧ after = position) := by
  cases type with
  | minKey | maxKey | jstNULL | undefined =>
    rw [moved_fixed rfl]
    simp [validateValue,isObject,eq_comm]
  | jstOID | numberInt | bool | numberDouble | numberLong | timestamp | date =>
    simpa [validateValue,isObject] using skipFixed_moved inside rfl (by decide) (by decide)
  | dBRef => simpa [isObject] using readReference_moved inside
  | regEx => simpa [isObject] using readRegex_moved inside
  | code | symbol | string =>
    rw [moved_text rfl]
    simpa [validateValue,isObject] using readText_moved inside
  | binData => simpa [isObject] using readBinary_moved inside
  | codeWScope =>
    have none : ¬ Moved buffer .codeWScope position after := by
      intro moved
      cases moved with
      | fixed known _ | text known _ => cases known
    simp [validateValue,isObject,none,eq_comm]
  | object | array =>
    have none : ∀ type, isObject type = true → ¬ Moved buffer type position after := by
      intro type object moved
      cases moved with
      | fixed known _ | text known _ => cases type <;> cases object <;> cases known
      | reference | regex | binary => cases object
    simp [validateValue,isObject,none _ (rfl : isObject .object = true),none _ (rfl : isObject .array = true),eq_comm]

theorem validateElementInfo_exact (near : position ≤ buffer.maxLength+12) :
    validateElementInfo buffer position = .ok (next,after) ↔ position < buffer.maxLength ∧
        ((buffer.bytes position = 0 ∧ next = .endObj ∧ after = position+1) ∨
          ∃ type value, buffer.bytes position ≠ 0 ∧ bsonType (buffer.bytes position) = some type ∧
            Named buffer.bytes buffer.maxLength (position+1) value ∧
              validateValue buffer value type = .ok (next,after)) := by
  unfold validateElementInfo
  cases read : buffer.readChar position with
  | none =>
    constructor
    · intro impossible
      cases impossible
    · rintro ⟨inside,_⟩
      rw [(readChar_exact near).mpr ⟨inside,rfl,rfl⟩] at read
      cases read
  | some found =>
    obtain ⟨byte,name⟩ := found
    obtain ⟨inside,rfl,rfl⟩ := (readChar_exact near).mp read
    dsimp only
    by_cases zero : buffer.bytes position = 0
    · simp [inside,zero,eq_comm]
    rw [if_neg zero]
    have exactly := fun last : Nat => @readCString_exact (position+1) last buffer inside
    constructor
    · intro passed
      refine ⟨inside,.inr ?_⟩
      cases named : buffer.readCString (position+1) with
      | error message => simp [named,bind,Except.bind] at passed
      | ok value =>
        simp only [named,bind,Except.bind] at passed
        split at passed
        · cases passed
        · rename_i type known
          exact ⟨type,value,zero,known,(exactly value).mp named,passed⟩
    · rintro ⟨_,ended | ⟨type,value,_,known,named,passed⟩⟩
      · exact absurd ended.1 zero
      · simp only [(exactly value).mpr named,bind,Except.bind,known,passed]

theorem beginObj_step (near : start ≤ buffer.maxLength+12) (stepped : machineStep buffer (.beginObj frames start) = .ok machine) :
    start+4 ≤ buffer.maxLength ∧
      withinObj buffer (openFrame start false (intAt buffer.bytes start)) frames (start+4) = .ok machine := by
  simp only [machineStep] at stepped
  cases read : buffer.readInt start with
  | none => simp [read] at stepped
  | some found =>
    obtain ⟨size,next⟩ := found
    obtain ⟨fits,rfl,rfl⟩ := (readInt_exact near).mp read
    exact ⟨fits,by simpa only [read] using stepped⟩

theorem beginCodeWScope_step (near : start ≤ buffer.maxLength+12)
    (stepped : machineStep buffer (.beginCodeWScope frames start) = .ok machine) :
    start+4 ≤ buffer.maxLength ∧ ∃ scope, TextMoved buffer (start+4) scope ∧
      machine = .beginObj (openFrame start true (intAt buffer.bytes start) :: frames) scope := by
  simp only [machineStep] at stepped
  cases read : buffer.readInt start with
  | none => simp [read] at stepped
  | some found =>
    obtain ⟨size,text⟩ := found
    obtain ⟨fits,rfl,rfl⟩ := (readInt_exact near).mp read
    cases passed : buffer.readUTF8String (start+4) with
    | error message => simp [read,passed,bind,Except.bind] at stepped
    | ok scope =>
      simp only [read,passed,bind,Except.bind,pure,Except.pure] at stepped
      cases stepped
      exact ⟨fits,scope,(readUTF8String_exact (by omega)).mp passed,rfl⟩

end Mongo.BsonValidate
