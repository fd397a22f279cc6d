import SipxExternals.NetSnmpPduFraming

namespace NetSnmp.PduValues
open Foundations AsnTypes AsnParse PduParse AsnFraming PduFraming
open Interaction (run_attempt run_bind_eq_ok run_bind_ok)
open Probe (Accepts accepts_bind_fetch accepts_bind_fetchMany accepts_bind_ok image run_bind_fetch slice)

section
variable {memory : Memory} {data budget length start : Nat} (object : Object memory (data+1) data budget length start)
include object

theorem real_accepts (bare : memory data = tag) (notOpaque : tag ≠ asnOpaque) :
    Accepts memory (asnParseReal tag berLen size data budget) ↔ length = size := by
  have content : (realContent tag berLen (memory data) length start data budget).run memory =
      .ok (memory data,length,start) := by
    rw [realContent,if_neg (by rw [bare]; tauto)]; rfl
  rw [asnParseReal,accepts_bind_fetch,accepts_sized object]
  rw [accepts_bind_ok content]
  rw [if_neg (not_not.mpr bare)]
  by_cases same : length = size
  · simp [same]
  · simp [same]

theorem real_accepts_wrapped (raw : memory data = asnOpaque) (tag1 : memory start = asnOpaqueTag1)
    (tag2 : memory (start+1) = tag) (notOpaque : tag ≠ asnOpaque)
    (inner : Object memory (start+2) data budget innerLength innerStart) :
    Accepts memory (asnParseReal tag berLen size data budget) ↔ length = berLen ∧ innerLength = size := by
  rw [asnParseReal,accepts_bind_fetch,accepts_sized object]
  by_cases exactly : length = berLen
  · have content : (realContent tag berLen (memory data) length start data budget).run memory =
        .ok (tag,innerLength,innerStart) := by
      rw [realContent,if_pos ⟨raw,exactly⟩,run_bind_fetch,if_pos tag1,run_bind_fetch,if_pos tag2,run_sized inner]
      rfl
    rw [accepts_bind_ok content]
    by_cases same : innerLength = size
    · simp [same,exactly]
    · simp [same]
  · have content : (realContent tag berLen (memory data) length start data budget).run memory =
        .ok (memory data,length,start) := by
      rw [realContent,if_neg (by tauto)]; rfl
    rw [accepts_bind_ok content]
    rw [raw,if_pos (Ne.symm notOpaque)]
    simp [exactly]

theorem signed64_rejects_bare (bare : memory data ≠ asnOpaque) :
    ¬ Accepts memory (asnParseSignedInt64 data budget) := by
  rw [asnParseSignedInt64,accepts_bind_fetch,accepts_sized object]
  rw [accepts_bind_fetch,accepts_bind_fetch,if_neg fun all => bare all.1]
  exact Probe.accepts_fail

theorem signed64_accepts_wrapped (raw : memory data = asnOpaque) (tag1 : memory start = asnOpaqueTag1)
    (tag2 : memory (start+1) = asnOpaqueI64) (inner : Object memory (start+2) data budget innerLength innerStart) :
    Accepts memory (asnParseSignedInt64 data budget) ↔ length ≤ asnOpaqueCounter64MxBerLen ∧
      innerLength ≤ uint64sizelimit ∧ (innerLength = uint64sizelimit → memory innerStart = 0) := by
  rw [asnParseSignedInt64,accepts_bind_fetch,accepts_sized object]
  rw [accepts_bind_fetch,accepts_bind_fetch]
  by_cases short : length ≤ asnOpaqueCounter64MxBerLen
  · rw [if_pos ⟨raw,short,tag1,tag2⟩,accepts_sized inner]
    by_cases long : innerLength > uint64sizelimit
    · rw [if_pos long]
      simp [Nat.not_le.mpr long]
    rw [if_neg long,accepts_bind_fetch]
    by_cases rejected : innerLength = uint64sizelimit ∧ memory innerStart ≠ 0
    · simp [rejected]
    · rw [if_neg rejected]
      simp only [accepts_bind_fetchMany,Probe.accepts_pure,true_iff]
      exact ⟨short,Nat.not_lt.mp long,fun full => by_contra fun first => rejected ⟨full,first⟩⟩
  · simp [short]

end

def outerLength (memory : Memory) (val : Nat) : Nat :=
  if memory (val+1) &&& asnLongLen = 0 then (memory (val+1)).toNat
  else octetsValue (slice memory (val+2) (memory (val+1) &&& 0x7f).toNat)

theorem outerLength_eq (object : Object memory (val+1) data budget length start) : outerLength memory val = length := by
  cases object.extent with
  | short one => rw [outerLength,if_pos one]
  | long count more counted some few small => rw [outerLength,if_neg more,counted]

-- The encodings of a value at `val` that its parser takes, read off the octets.
def WellFormed (memory : Memory) (val : Nat) (value : Header) : Prop :=
  match valueKind value.type with
  | some .integer => value.length ≤ 8
  | some .unsigned => NumberContent memory value.length value.next
  | some .unsigned64 => memory val ≠ asnOpaque ∧ NumberContent memory value.length value.next
  | some .float => value.length = 4 ∧ (memory val = asnOpaque → outerLength memory val = 7)
  | some .double => value.length = 8 ∧ (memory val = asnOpaque → outerLength memory val = 11)
  | some .signed64 =>
    memory val = asnOpaque ∧ outerLength memory val ≤ 12 ∧ NumberContent memory value.length value.next
  | some .objid => ObjidContent (slice memory value.next value.length)
  | some .bitstring => 1 ≤ value.length
  | some .string => True
  | some .null => True
  | none => True

theorem settle_defined (proper : ∀ value, wrap value ≠ .undefined) :
    (settle name size wrap (part.run memory)).val ≠ .undefined ↔ Accepts memory part := by
  cases found : part.run memory with
  | ok parsed => simpa [settle,Accepts,found] using proper parsed.value
  | error type => simp [settle,Accepts,found]

theorem settleString_defined (proper : ∀ octets, wrap octets ≠ .undefined) :
    (settleString op wrap (part.run memory)).val ≠ .undefined ↔ Accepts memory part := by
  cases found : part.run memory with
  | ok parsed => simpa [settleString,Accepts,found] using proper parsed.value
  | error type => simp [settleString,Accepts,found]

theorem settleObjid_defined : (settleObjid op (part.run memory)).val ≠ .undefined ↔ Accepts memory part := by
  cases found : part.run memory with
  | ok parsed | error fault => simp [settleObjid,Accepts,found]

section
variable {memory : Memory} {val : Nat} {value : Header} (headed : Headed memory val maxPacketLength value)
include headed

theorem headed_bare (ordinary : opaqueSpecial value.type = false) :
    memory val = value.type ∧ Object memory (val+1) val maxPacketLength value.length value.next := by
  cases headed with
  | bare plain object whole => exact ⟨rfl,object⟩
  | wrapped raw outer inside inner => exact absurd inside.2 (by simp [ordinary])

theorem field_accepts (field : Field memory takes peeks content val maxPacketLength part) (types : value.type ∈ takes)
    (plain : ∀ type ∈ takes, opaqueSpecial type = false) : Accepts memory part ↔ content value.length value.next := by
  obtain ⟨raw,object⟩ := headed_bare headed (plain _ types)
  exact field.accepts _ _ object (by rw [raw]; exact types)

theorem number64_accepts (types : value.type ∈ kindTypes .unsigned64) :
    Accepts memory (asnParseUnsignedInt64 val maxPacketLength) ↔
      memory val ≠ asnOpaque ∧ NumberContent memory value.length value.next := by
  cases headed with
  | bare plain object whole =>
    rw [asnParseUnsignedInt64_field.accepts _ _ object types]
    have other : ∀ type ∈ kindTypes .unsigned64, type ≠ asnOpaque := by decide +kernel
    exact (and_iff_right (other _ types)).symm
  | wrapped raw outer inside inner =>
    refine iff_of_false ?_ fun both => both.1 raw
    rintro ⟨found,ran⟩
    have type := (asnParseUnsignedInt64_field.ends found ran).1
    rw [raw] at type
    exact absurd type (by decide)

theorem real_value_accepts (type : value.type = tag) (notOpaque : tag ≠ asnOpaque) :
    Accepts memory (asnParseReal tag berLen size val maxPacketLength) ↔
      value.length = size ∧ (memory val = asnOpaque → outerLength memory val = berLen) := by
  cases headed with
  | bare plain object whole =>
    rw [real_accepts object type notOpaque]
    exact ⟨fun same => ⟨same,fun is => absurd (type.symm.trans is) notOpaque⟩,fun both => both.1⟩
  | wrapped raw outer inside inner =>
    rw [real_accepts_wrapped outer raw inside.1 type notOpaque inner,outerLength_eq outer]
    exact ⟨fun both => ⟨both.2,fun _ => both.1⟩,fun both => ⟨both.2 raw,both.1⟩⟩

theorem signed64_value_accepts (type : value.type = asnOpaqueI64) :
    Accepts memory (asnParseSignedInt64 val maxPacketLength) ↔
      memory val = asnOpaque ∧ outerLength memory val ≤ 12 ∧ NumberContent memory value.length value.next := by
  cases headed with
  | bare plain object whole =>
    have notOpaque : memory val ≠ asnOpaque := by
      dsimp only at type
      rw [type]
      decide
    exact iff_of_false (signed64_rejects_bare object notOpaque) fun both => notOpaque both.1
  | wrapped raw outer inside inner =>
    rw [signed64_accepts_wrapped outer raw inside.1 type inner,outerLength_eq outer]
    exact (and_iff_right raw).symm

theorem parseValue_defined (name : List Nat) (next left : Nat) :
    ∃ v, (parseValue ⟨name,value.type,value.length,val,next,left⟩).run memory = .ok (v,(valueKind value.type).isNone) ∧
      (valueKind value.type ≠ none → (v.val ≠ .undefined ↔ WellFormed memory val value)) := by
  unfold parseValue WellFormed
  dsimp only
  cases kind : valueKind value.type with
  | none => exact ⟨_,rfl,fun known => absurd rfl known⟩
  | some sort =>
    have types := valueKind_types kind
    cases sort with try refine ⟨_,run_bind_ok _ (run_attempt _ _),fun _ => ?_⟩
    | integer =>
      exact (settle_defined (by simp)).trans (field_accepts headed asnParseInt_field types (by decide +kernel))
    | unsigned =>
      exact (settle_defined (by simp)).trans (field_accepts headed asnParseUnsignedInt_field types (by decide +kernel))
    | unsigned64 =>
      exact (settle_defined (by simp)).trans (number64_accepts headed types)
    | float | double =>
      exact (settle_defined (by simp)).trans
        (real_value_accepts headed (by simpa [kindTypes] using types) (by decide))
    | signed64 =>
      exact (settle_defined (by simp)).trans (signed64_value_accepts headed (by simpa [kindTypes] using types))
    | string =>
      have accepts := field_accepts headed (asnParseString_field value.length) types (by decide +kernel)
      exact (settleString_defined (by simp)).trans (accepts.trans (iff_of_true le_rfl trivial))
    | objid =>
      exact settleObjid_defined.trans (field_accepts headed asnParseObjid_field types (by decide +kernel))
    | null => exact ⟨_,rfl,fun _ => by simp⟩
    | bitstring =>
      have accepts := field_accepts headed (asnParseBitstring_field value.length) types (by decide +kernel)
      exact (settleString_defined (by simp)).trans (accepts.trans (and_iff_right le_rfl))

end

-- The variable bindings from a place up to the end of the list, with where their values stand.
inductive Bindings (memory : Memory) (stop : Nat) : Nat → List (Nat × Header) → Prop where
  | nil (last : stop ≤ data) : Bindings memory stop data []
  | cons (val : Nat) (value : Header) (more : data < stop) (binding : Binding memory data stop val value)
      (rest : Bindings memory stop (value.next+value.length) others) : Bindings memory stop data ((val,value) :: others)

theorem more_iff (small : length ≤ 0x7fffffff) : cInt length > 0 ↔ 0 < length := by
  rw [cInt_small small]
  omega

theorem parseVarBinds_bindings (rounds : Nat) (all : data+length = stop) (small : length ≤ 0x7fffffff) (enough : length ≤ rounds)
    (ran : (parseVarBinds rounds data length).run memory = .ok result) : ∃ bindings, Bindings memory stop data bindings := by
  induction rounds generalizing data length result with
  | zero => exact ⟨[],.nil (by omega)⟩
  | succ rounds ih =>
    rw [parseVarBinds] at ran
    by_cases more : cInt length > 0
    · rw [if_pos more] at ran
      obtain ⟨op,parsed,ran⟩ := run_bind_eq_ok.mp ran
      obtain ⟨_,-,ran⟩ := run_bind_eq_ok.mp ran
      obtain ⟨_,rest,-⟩ := run_bind_eq_ok.mp ran
      obtain ⟨value,binding,same⟩ := snmpParseVarOp_ok parsed
      rw [all] at binding
      have bounds := binding_bounds binding
      rw [same] at rest
      obtain ⟨others,found⟩ := ih (by dsimp only; omega) (by dsimp only; omega) (by dsimp only; omega) rest
      exact ⟨_,.cons _ value (by rw [more_iff small] at more; omega) binding found⟩
    · exact ⟨[],.nil (by rw [more_iff small] at more; omega)⟩

theorem bindings_parsed (rounds : Nat) (found : Bindings memory stop data bindings) (all : data+length = stop)
    (small : length ≤ 0x7fffffff) (enough : length ≤ rounds) :
    ∃ vars badtype, (parseVarBinds rounds data length).run memory = .ok (vars,badtype) ∧
      (badtype = false ↔ ∀ binding ∈ bindings, valueKind binding.2.type ≠ none) ∧
      (badtype = false → ((∀ v ∈ vars, v.val ≠ .undefined) ↔ ∀ binding ∈ bindings, WellFormed memory binding.1 binding.2)) := by
  induction rounds generalizing data length bindings with
  | zero =>
    cases found with
    | nil last => exact ⟨[],false,rfl,by simp,by simp⟩
    | cons val value more binding rest => omega
  | succ rounds ih =>
    rw [parseVarBinds]
    cases found with
    | nil last =>
      rw [if_neg (by rw [more_iff small]; omega)]
      exact ⟨[],false,rfl,by simp,by simp⟩
    | cons val value more binding rest =>
      have bounds := binding_bounds binding
      obtain ⟨others,badrest,ran,known,defined⟩ :=
        ih rest (Nat.add_sub_cancel' bounds.2.1) (by omega) (by omega)
      rw [← all] at binding
      obtain ⟨name,parsed⟩ := binding_parsed binding
      obtain ⟨v,first,own⟩ := parseValue_defined bounds.2.2 name _ _
      rw [if_pos (by rw [more_iff small]; omega),run_bind_ok _ parsed,run_bind_ok _ first]
      dsimp only
      rw [show length-(value.next+value.length-data) = stop-(value.next+value.length) by omega,run_bind_ok _ ran]
      refine ⟨v :: others,_,rfl,?_,fun both => ?_⟩
      · simp [known,Option.isSome_iff_ne_none]
      · rw [Bool.or_eq_false_iff] at both
        rw [List.forall_mem_cons,List.forall_mem_cons,own (by simpa [Option.isSome_iff_ne_none] using both.1),defined both.2]

-- The bindings of a message that is accepted as far as its framing goes.
structure Delivered (memory : Memory) (data length : Nat) (bindings : List (Nat × Header)) : Prop where
  listed : ∃ list, Listed memory data length list ∧ Bindings memory (list.next+list.length) list.next bindings
  known : ∀ binding ∈ bindings, valueKind binding.2.type ≠ none

theorem snmpPduParse_iff (empty : pdu.variableList = []) :
    (∃ parsed, (snmpPduParse pdu data length).run memory = .ok parsed ∧ parsed.variableList = vars) ↔
      ∃ list, Listed memory data length list ∧
        (parseVarBinds list.length list.next list.length).run memory = .ok (vars,false) := by
  constructor
  · rintro ⟨parsed,ran,rfl⟩
    obtain ⟨header,opened,ran⟩ := run_bind_eq_ok.mp ran
    obtain ⟨⟨fields,next,left⟩,read,ran⟩ := run_bind_eq_ok.mp ran
    obtain ⟨list,listed,ran⟩ := run_bind_eq_ok.mp ran
    obtain ⟨⟨vars,badtype⟩,found,ran⟩ := run_bind_eq_ok.mp ran
    cases known : fieldKinds header.type.toNat with
    | none => rw [parseFields_unknown known] at read; cases read
    | some kinds =>
      obtain ⟨passed,sum,kept⟩ := (parseFields_chain known).ends fields next left read
      obtain ⟨headed,type⟩ := asnParseSequence_iff.mp listed
      obtain rfl : left = header.next+header.length-next := by omega
      refine ⟨list,⟨header,next,asnParseHeader_iff.mp opened,known,passed,headed,type⟩,?_⟩
      cases badtype with
      | true => cases ran
      | false =>
        cases ran
        rw [found]
        dsimp only
        split
        · rename_i none
          rw [none,kept,empty]
        · rfl
  · rintro ⟨list,⟨header,next,headed,known,passed,opened,type⟩,found⟩
    obtain ⟨fields,read⟩ := (parseFields_chain known).passes next passed
    have kept := ((parseFields_chain known).ends _ _ _ read).2.2
    refine ⟨{fields with variableList:=if vars = [] then fields.variableList else vars},?_,?_⟩
    · rw [snmpPduParse,run_bind_ok _ (asnParseHeader_iff.mpr headed),run_bind_ok _ read]
      dsimp only
      rw [parseBindings,run_bind_ok _ (asnParseSequence_iff.mpr ⟨opened,type⟩),run_bind_ok _ found]
      rfl
    · dsimp only
      split
      · rename_i none
        rw [kept,empty,none]
      · rfl

theorem accepted_values_iff (memory : Memory) (pdu : Pdu) (data length : Nat) (empty : pdu.variableList = []) :
    (∀ parsed, (snmpPduParse pdu data length).run memory = .ok parsed → ∀ v ∈ parsed.variableList, v.val ≠ .undefined) ↔
    (∀ bindings, Delivered memory data length bindings → ∀ binding ∈ bindings, WellFormed memory binding.1 binding.2) := by
  have small : ∀ list, Listed memory data length list → list.length ≤ 0x7fffffff := by
    rintro list ⟨header,next,headed,known,passed,opened,type⟩
    exact (headed_bounds opened).2.1
  constructor
  · rintro defined bindings ⟨⟨list,listed,found⟩,known⟩
    obtain ⟨vars,badtype,ran,none,each⟩ := bindings_parsed list.length found rfl (small list listed) le_rfl
    obtain rfl : badtype = false := none.mpr known
    obtain ⟨parsed,accepted,rfl⟩ := (snmpPduParse_iff empty).mpr ⟨list,listed,ran⟩
    exact (each rfl).mp (defined parsed accepted)
  intro wellFormed parsed accepted
  obtain ⟨list,listed,ran⟩ := (snmpPduParse_iff empty).mp ⟨parsed,accepted,rfl⟩
  obtain ⟨bindings,found⟩ := parseVarBinds_bindings list.length rfl (small list listed) le_rfl ran
  obtain ⟨vars,badtype,again,none,each⟩ := bindings_parsed list.length found rfl (small list listed) le_rfl
  rw [ran] at again
  cases again
  exact (each rfl).mpr (wellFormed bindings ⟨⟨list,listed,found⟩,none.mp rfl⟩)

def longInteger : List UInt8 :=
  [0xa2,0x1d,2,1,0,2,1,0,2,1,0,0x30,0x12,0x30,0x10,6,3,0x2b,6,1,2,9,0,0,0,0,0,0,0,0,1]

theorem longInteger_undefined : (snmpPduParse .fresh 0 longInteger.length).run (image longInteger) = .ok {Pdu.fresh with
      command:=snmpMsgResponse,flags:=ucdMsgFlagResponsePdu,
      variableList:=[⟨[1,3,6,1],asnInteger,.undefined,sizeofLong⟩]} := by
  decide +kernel

def shortInteger : List UInt8 :=
  [0xa2,0x15,2,1,0,2,1,0,2,1,0,0x30,0x0a,0x30,8,6,3,0x2b,6,1,2,1,1]

theorem accepted_values_short :
    (∀ parsed, (snmpPduParse .fresh 0 shortInteger.length).run (image shortInteger) = .ok parsed →
      ∀ v ∈ parsed.variableList, v.val ≠ .undefined) ↔
    (∀ bindings, Delivered (image shortInteger) 0 shortInteger.length bindings →
      ∀ binding ∈ bindings, WellFormed (image shortInteger) binding.1 binding.2) :=
  accepted_values_iff _ .fresh 0 _ rfl

end NetSnmp.PduValues
