import SipxExternals.MongoBsonElements

namespace Mongo.BsonGrammar
open Mongo.BsonValidate

structure Lengths where
  text : Int → Prop
  binary : Int → Prop

def anyLengths : Lengths := ⟨fun _ => True,fun _ => True⟩
def properLengths : Lengths := ⟨fun length => 1 ≤ length,fun length => 0 ≤ length⟩

structure Text (lengths : Lengths) (bytes : Nat → UInt8) (limit start next : Nat) : Prop where
  sized : start+4 ≤ limit
  admitted : lengths.text (intAt bytes start)
  spans : (next : Int) = start+4+intAt bytes start
  positive : 0 < next
  inside : next ≤ limit
  ended : bytes (next-1) = 0

structure Binary (lengths : Lengths) (bytes : Nat → UInt8) (limit start next : Nat) : Prop where
  sized : start+4 ≤ limit
  admitted : lengths.binary (intAt bytes start)
  spans : (next : Int) = start+4+1+intAt bytes start
  inside : next ≤ limit

inductive Flat (lengths : Lengths) (bytes : Nat → UInt8) (limit : Nat) : BsonType → Nat → Nat → Prop where
  | fixed : fixedSize type = some size → start+size ≤ limit → Flat lengths bytes limit type start (start+size)
  | text : isText type = true → Text lengths bytes limit start next → Flat lengths bytes limit type start next
  | reference : Text lengths bytes limit start oid → oid+12 ≤ limit → Flat lengths bytes limit .dBRef start (oid+12)
  | regex : Named bytes limit start options → Named bytes limit options next →
      Flat lengths bytes limit .regEx start next
  | binary : Binary lengths bytes limit start next → Flat lengths bytes limit .binData start next

inductive Part where
  | document
  | elements
  | value (type : BsonType)

-- What the bytes from start up to next are when nothing but the end of the buffer
-- bounds them: positions may also go back, where a stored length is negative.
inductive Laid (lengths : Lengths) (bytes : Nat → UInt8) (limit : Nat) : Part → Nat → Nat → Prop where
  | document {start next : Nat} : start+4 ≤ limit → (next : Int)-start = intAt bytes start →
      Laid lengths bytes limit .elements (start+4) next → Laid lengths bytes limit .document start next
  | terminator : start < limit → bytes start = 0 → Laid lengths bytes limit .elements start (start+1)
  | element : start < limit → bytes start ≠ 0 → bsonType (bytes start) = some type →
      Named bytes limit (start+1) value → Laid lengths bytes limit (.value type) value next →
        Laid lengths bytes limit .elements next last → Laid lengths bytes limit .elements start last
  | flat : Flat lengths bytes limit type start next → Laid lengths bytes limit (.value type) start next
  | object : isObject type = true → Laid lengths bytes limit .document start next →
      Laid lengths bytes limit (.value type) start next
  | code {start scope next : Nat} : start+4 ≤ limit → Text lengths bytes limit (start+4) scope →
      Laid lengths bytes limit .document scope next → (next : Int)-start = intAt bytes start →
        Laid lengths bytes limit (.value .codeWScope) start next

-- A document bounds what it holds: each part ends inside the document around it.
inductive WellFormed (bytes : Nat → UInt8) : Part → Nat → Nat → Nat → Prop where
  | document {limit start next : Nat} : start+4 ≤ next → (next : Int) = start+intAt bytes start →
      next ≤ limit → WellFormed bytes .elements next (start+4) next → WellFormed bytes .document limit start next
  | terminator : start < limit → bytes start = 0 → WellFormed bytes .elements limit start (start+1)
  | element : start < limit → bytes start ≠ 0 → bsonType (bytes start) = some type →
      Named bytes limit (start+1) value → WellFormed bytes (.value type) limit value next →
        WellFormed bytes .elements limit next last → WellFormed bytes .elements limit start last
  | flat : Flat properLengths bytes limit type start next → WellFormed bytes (.value type) limit start next
  | object : isObject type = true → WellFormed bytes .document limit start next →
      WellFormed bytes (.value type) limit start next
  | code {limit start scope next : Nat} : (next : Int) = start+intAt bytes start → next ≤ limit →
      Text properLengths bytes next (start+4) scope → WellFormed bytes .document next scope next →
        WellFormed bytes (.value .codeWScope) limit start next

def StartsWellFormed (buffer : Buffer) : Prop :=
  ∃ next, WellFormed buffer.bytes .document buffer.maxLength 0 next

def StartsLaid (lengths : Lengths) (buffer : Buffer) : Prop :=
  ∃ next, Laid lengths buffer.bytes buffer.maxLength .document 0 next

theorem named_widen (named : Named bytes limit start next) (wider : next ≤ other) : Named bytes other start next := by
  obtain ⟨len,equal,_,rest⟩ := named
  exact ⟨len,equal,wider,rest⟩

theorem text_grows (text : Text properLengths bytes limit start next) : start+4 < next ∧ next ≤ limit := by
  have admitted : 1 ≤ intAt bytes start := text.admitted
  have spans := text.spans
  have inside := text.inside
  omega

theorem text_bounded (text : Text properLengths bytes limit start next) (bounded : next ≤ other) :
    Text properLengths bytes other start next := by
  have grown := text_grows text
  exact { text with sized := by omega, inside := bounded }

theorem flat_grows (flat : Flat properLengths bytes limit type start next) : start ≤ next ∧ next ≤ limit := by
  cases flat with
  | fixed _ inside => omega
  | text _ text | reference text inside =>
    have grown := text_grows text
    omega
  | regex pattern flags =>
    have first := named_grows pattern
    have second := named_grows flags
    omega
  | binary binary =>
    have admitted : 0 ≤ intAt bytes start := binary.admitted
    have spans := binary.spans
    have inside := binary.inside
    omega

theorem flat_bounded (flat : Flat properLengths bytes limit type start next) (bounded : next ≤ other) :
    Flat properLengths bytes other type start next := by
  cases flat with
  | fixed sized _ => exact .fixed sized bounded
  | text known text => exact .text known (text_bounded text bounded)
  | reference text inside => exact .reference (text_bounded text (by omega)) bounded
  | regex pattern flags =>
    have grown := named_grows flags
    exact .regex (named_widen pattern (by omega)) (named_widen flags bounded)
  | binary binary =>
    have admitted : 0 ≤ intAt bytes start := binary.admitted
    have spans := binary.spans
    exact .binary { binary with sized := by omega, inside := bounded }

theorem laid_grows (laid : Laid properLengths bytes limit part start next) : start ≤ next ∧ next ≤ limit := by
  induction laid with
  | document _ _ _ ih | terminator inside _ => omega
  | element _ _ _ named _ _ valued rest =>
    have grown := named_grows named
    omega
  | flat flat => exact flat_grows flat
  | object _ _ ih => exact ih
  | code _ text _ _ ih =>
    have grown := text_grows text
    omega

-- With proper lengths every part ends inside what holds it, so the bounds of the
-- enclosing documents come for free.
theorem laid_wellFormed (laid : Laid properLengths bytes limit part start next) (bounded : next ≤ bound) :
    WellFormed bytes part bound start next := by
  induction laid generalizing bound with
  | document _ sized elements ih =>
    have grown := laid_grows elements
    exact .document grown.1 (by omega) bounded (ih (Nat.le_refl _))
  | terminator _ zero =>
    exact .terminator bounded zero
  | @element start type value next last _ present known named valued rest valuedIh restIh =>
    have first := named_grows named
    have second := laid_grows valued
    have third := laid_grows rest
    exact .element (by omega) present known (named_widen named (by omega))
      (valuedIh (by omega)) (restIh bounded)
  | flat flat =>
    exact .flat (flat_bounded flat bounded)
  | object known _ ih =>
    exact .object known (ih bounded)
  | code _ text document sized ih =>
    have grown := laid_grows document
    exact .code (by omega) bounded (text_bounded text grown.1) (ih (Nat.le_refl _))

theorem wellFormed_laid (formed : WellFormed bytes part limit start next) (bounded : limit ≤ bound) :
    Laid properLengths bytes bound part start next := by
  induction formed with
  | document fits sized inside _ ih =>
    exact .document (by omega) (by omega) (ih (by omega))
  | terminator inside zero =>
    exact .terminator (by omega) zero
  | element inside present known named valued rest valuedIh restIh =>
    have grown := named_grows named
    exact .element (by omega) present known (named_widen named (by omega)) (valuedIh bounded)
      (restIh bounded)
  | flat flat =>
    have grown := flat_grows flat
    exact .flat (flat_bounded flat (by omega))
  | object known _ ih =>
    exact .object known (ih bounded)
  | code sized inside text _ ih =>
    have grown := text_grows text
    exact .code (by omega) (text_bounded text (by omega)) (ih (by omega)) (by omega)

theorem startsLaid_wellFormed : StartsLaid properLengths buffer ↔ StartsWellFormed buffer := by
  constructor
  · rintro ⟨next,laid⟩
    exact ⟨next,laid_wellFormed laid (laid_grows laid).2⟩
  · rintro ⟨next,formed⟩
    exact ⟨next,wellFormed_laid formed (Nat.le_refl _)⟩

theorem flat_any (flat : Flat lengths bytes limit type start next) : Flat anyLengths bytes limit type start next := by
  cases flat with
  | fixed sized inside => exact .fixed sized inside
  | text known text => exact .text known { text with admitted := trivial }
  | reference text inside => exact .reference { text with admitted := trivial } inside
  | regex pattern flags => exact .regex pattern flags
  | binary binary => exact .binary { binary with admitted := trivial }

theorem laid_any (laid : Laid lengths bytes limit part start next) : Laid anyLengths bytes limit part start next := by
  induction laid with
  | document fits sized _ ih => exact .document fits sized ih
  | terminator inside zero => exact .terminator inside zero
  | element inside present known named _ _ valued rest =>
    exact .element inside present known named valued rest
  | flat flat => exact .flat (flat_any flat)
  | object known _ ih => exact .object known ih
  | code fits text _ sized ih => exact .code fits { text with admitted := trivial } ih sized

end Mongo.BsonGrammar
