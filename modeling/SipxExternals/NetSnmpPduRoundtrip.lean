import SipxExternals.NetSnmpPduRbuild
import SipxExternals.NetSnmpAsnRoundtrip

namespace NetSnmp.PduRoundtrip
open Foundations AsnTypes AsnParse AsnRbuild PduParse PduRbuild AsnEncoding AsnRoundtrip
open Interaction (run_bind_ok run_failWith_ok)
open Probe (Holds holds_append)
open Backfill (Emits Granted emits_bind emits_bind_silent emits_measured granted_always output output_emits output_eq)
open UInt8 (ofNat)
open List hiding length range

-- The values of the SNMP data types, in the representation the encoder expects.
def EncodableValue (type : UInt8) (valLen : Nat) : Value → Prop
  | .integer x => type = asnInteger ∧ valLen = sizeofLong ∧ -2147483648 ≤ x ∧ x ≤ 2147483647
  | .unsigned n => (type = asnCounter ∨ type = asnGauge ∨ type = asnTimeticks ∨ type = asnUinteger) ∧
      valLen = sizeofLong ∧ n ≤ 0xffffffff
  | .counter64 high low => type = asnCounter64 ∧ valLen = sizeofCounter64 ∧ high ≤ 0xffffffff ∧ low ≤ 0xffffffff
  | .string octets => (type = asnOctetStr ∨ type = asnIpaddress) ∧ valLen = octets.length
  | .objid subids => type = asnObjectId ∧ valLen = subids.length*sizeofOid ∧ ObjidFits subids
  | .none => type = asnNull ∨ type = snmpNosuchobject ∨ type = snmpNosuchinstance ∨ type = snmpEndofmibview
  | _ => False

structure Encodable (v : Variable) : Prop where
  name : ObjidFits v.name
  value : EncodableValue v.type v.valLen v.val

instance (type : UInt8) (valLen : Nat) : (val : Value) → Decidable (EncodableValue type valLen val)
  | .integer x => inferInstanceAs (Decidable (_ ∧ _ ∧ -2147483648 ≤ x ∧ x ≤ 2147483647))
  | .unsigned n => inferInstanceAs (Decidable ((_ ∨ _ ∨ _ ∨ _) ∧ _ ∧ n ≤ 0xffffffff))
  | .counter64 high low => inferInstanceAs (Decidable (_ ∧ _ ∧ high ≤ 0xffffffff ∧ low ≤ 0xffffffff))
  | .string octets => inferInstanceAs (Decidable ((_ ∨ _) ∧ valLen = octets.length))
  | .objid subids => inferInstanceAs (Decidable (_ ∧ _ ∧ ObjidFits subids))
  | .none => inferInstanceAs (Decidable (_ ∨ _ ∨ _ ∨ _))
  | .float _ | .double _ | .bitstring _ | .undefined => inferInstanceAs (Decidable False)

instance (v : Variable) : Decidable (Encodable v) :=
  decidable_of_iff (ObjidFits v.name ∧ EncodableValue v.type v.valLen v.val)
    ⟨fun both => ⟨both.1,both.2⟩,fun encodable => ⟨encodable.name,encodable.value⟩⟩

-- How a value parser is led to the value it is to give back: by a header that names
-- the type and the length.
structure ValueReads (type : UInt8) (val : Value) (content : List UInt8) : Prop where
  plain : type &&& asnExtensionId ≠ asnExtensionId
  notOpaque : type ≠ asnOpaque
  reads : ∀ memory op, Holds memory op.val (tlv type content) → (tlv type content).length ≤ 0x7fffffff →
    op.type = type → op.valLen = content.length →
    ∃ size, (parseValue op).run memory = .ok (⟨op.name,type,val,size⟩,false)

theorem attempt_reads {part : Probe ε α} (read : part.run memory = .ok value) {result : Except ε α → β} :
    ((part.attempt : Probe δ (Except ε α)) >>= fun outcome => pure (result outcome)).run memory =
      .ok (result (.ok value)) := by
  rw [run_bind_ok _ (Interaction.run_attempt part memory),read]
  rfl

theorem integer_reads (value : signedValue content = x) (low : -2147483648 ≤ x) (high : x ≤ 2147483647)
    (some : content ≠ []) (few : content.length ≤ 5) : ValueReads asnInteger (.integer x) content where
  plain := by decide
  notOpaque := by decide
  reads memory op held small type size := by
    have read := asnParseInt_reads held some (by simp only [sizeofLong]; omega) small
    rw [parseValue,type,show valueKind asnInteger = .some .integer from rfl]
    rw [maxPacketLength,attempt_reads read]
    simp only [settle,value,checkOverflowS_small low high]
    exact ⟨_,rfl⟩

theorem unsigned_reads (unsigned : type = asnCounter ∨ type = asnGauge ∨ type = asnTimeticks ∨ type = asnUinteger)
    (small : n ≤ 0xffffffff) : ValueReads type (.unsigned n) (padded 0 (wholeOctets n)) where
  plain := by rcases unsigned with rfl | rfl | rfl | rfl <;> decide
  notOpaque := by rcases unsigned with rfl | rfl | rfl | rfl <;> decide
  reads memory op held bounded kind size := by
    have read := asnParseUnsignedInt_reads held unsigned small bounded
    have sort : valueKind type = some .unsigned := by rcases unsigned with rfl | rfl | rfl | rfl <;> rfl
    rw [parseValue,kind,sort]
    rw [maxPacketLength,attempt_reads read]
    exact ⟨_,rfl⟩

theorem counter64_reads (highSmall : high ≤ 0xffffffff) (lowSmall : low ≤ 0xffffffff) :
    ValueReads asnCounter64 (.counter64 high low) (padded 0 (word64Octets high low)) where
  plain := by decide
  notOpaque := by decide
  reads memory op held bounded kind size := by
    have read := asnParseUnsignedInt64_reads rfl held highSmall lowSmall bounded
    rw [parseValue,kind,show valueKind asnCounter64 = some .unsigned64 from rfl]
    rw [maxPacketLength,attempt_reads read]
    exact ⟨_,rfl⟩

theorem string_reads (string : type = asnOctetStr ∨ type = asnIpaddress) : ValueReads type (.string octets) octets where
  plain := by rcases string with rfl | rfl <;> decide
  notOpaque := by rcases string with rfl | rfl <;> decide
  reads memory op held bounded kind size := by
    have short : octets.length ≤ 0x7fffffff := by rw [tlv_length] at bounded; omega
    have read := asnParseString_reads held (by tauto) short (le_of_eq size.symm) bounded
    have sort : valueKind type = some .string := by rcases string with rfl | rfl <;> rfl
    rw [parseValue,kind,sort]
    rw [maxPacketLength,attempt_reads read]
    exact ⟨_,rfl⟩

theorem objid_reads (fits : ObjidFits subids) : ValueReads asnObjectId (.objid subids) (objidOctets subids) where
  plain := by decide
  notOpaque := by decide
  reads memory op held bounded kind size := by
    have short : (objidOctets subids).length ≤ 0x7fffffff := by
      rw [tlv_length] at bounded; omega
    have read := asnParseObjid_reads fits held short bounded
    rw [parseValue,kind,show valueKind asnObjectId = some .objid from rfl]
    rw [maxPacketLength,attempt_reads read]
    exact ⟨_,rfl⟩

theorem null_reads
    (null : type = asnNull ∨ type = snmpNosuchobject ∨ type = snmpNosuchinstance ∨ type = snmpEndofmibview) :
    ValueReads type .none [] where
  plain := by rcases null with rfl | rfl | rfl | rfl <;> decide
  notOpaque := by rcases null with rfl | rfl | rfl | rfl <;> decide
  reads memory op held bounded kind size := by
    have sort : valueKind type = some .null := by rcases null with rfl | rfl | rfl | rfl <;> rfl
    rw [parseValue,kind,sort]
    exact ⟨op.valLen,rfl⟩

theorem rbuildValue_roundtrip (encodable : EncodableValue v.type v.valLen v.val) :
    ∃ content, Emits 0 0 (rbuildValue true v) () (tlv v.type content) ∧ ValueReads v.type v.val content := by
  obtain ⟨name,type,val,valLen⟩ := v
  unfold rbuildValue
  cases val with
  | integer x =>
    obtain ⟨rfl,rfl,low,high⟩ := encodable
    obtain ⟨content,emits,value,some,few⟩ := asnReallocRbuildInt_emits low high
    exact ⟨content,emits,integer_reads value low high some few⟩
  | unsigned n =>
    obtain ⟨unsigned,rfl,small⟩ := encodable
    have sort : valueKind type = some .unsigned := by rcases unsigned with rfl | rfl | rfl | rfl <;> rfl
    simp only [sort]
    exact ⟨_,asnReallocRbuildUnsignedInt_emits small,unsigned_reads unsigned small⟩
  | counter64 high low =>
    obtain ⟨rfl,rfl,highSmall,lowSmall⟩ := encodable
    exact ⟨_,asnReallocRbuildUnsignedInt64_emits highSmall lowSmall,counter64_reads highSmall lowSmall⟩
  | string octets =>
    obtain ⟨string,-⟩ := encodable
    have sort : valueKind type = some .string := by rcases string with rfl | rfl <;> rfl
    simp only [sort]
    exact ⟨_,asnReallocRbuildString_emits,string_reads string⟩
  | objid subids =>
    obtain ⟨rfl,-,fits⟩ := encodable
    exact ⟨_,asnReallocRbuildObjid_emits fits,objid_reads fits⟩
  | none =>
    have sort : valueKind type = some .null := by rcases encodable with rfl | rfl | rfl | rfl <;> rfl
    simp only [sort]
    exact ⟨_,asnReallocRbuildNull_emits,null_reads encodable⟩
  | float bits | double bits | bitstring octets | undefined => exact encodable.elim

structure BindingReads (v : Variable) (octets : List UInt8) : Prop where
  some : 0 < octets.length
  reads : ∀ memory data left, Holds memory data octets → octets.length ≤ left → octets.length ≤ 0x7fffffff →
    ∃ op found, (snmpParseVarOp data left).run memory = .ok op ∧ op.next = data+octets.length ∧
      op.left = left-octets.length ∧ (parseValue op).run memory = .ok (found,false) ∧ found.binding = v.binding

def boundOctets (v : Variable) (content : List UInt8) : List UInt8 :=
  tlv asnObjectId (objidOctets v.name)++tlv v.type content

theorem binding_reads (name : ObjidFits v.name) (value : ValueReads v.type v.val content) :
    BindingReads v (tlv asnSequenceConstructor (boundOctets v content)) where
  some := by simp [tlv]
  reads memory data left held room small := by
    have whole := tlv_length asnSequenceConstructor (boundOctets v content)
    have nameSize := tlv_length asnObjectId (objidOctets v.name)
    have valueSize := tlv_length v.type content
    have parts : (boundOctets v content).length = _ := length_append
    obtain ⟨-,-,inside⟩ := tlv_opened held (by omega) le_rfl
    obtain ⟨nameHeld,valueHeld⟩ := holds_append.mp inside
    have sequence := asnParseSequence_reads held (by decide) (by decide) (by omega) room
    have first := asnParseObjid_reads name nameHeld (by omega) (show _ ≤ (boundOctets v content).length by omega)
    have header := asnParseHeader_reads valueHeld value.plain value.notOpaque (by omega)
      (show _ ≤ (boundOctets v content).length-(tlv asnObjectId (objidOctets v.name)).length by omega)
    have ends := tlv_end data asnSequenceConstructor (boundOctets v content)
    obtain ⟨size,read⟩ := value.reads memory ⟨v.name,v.type,content.length,_,_,_⟩ valueHeld (by omega) rfl rfl
    refine ⟨_,_,?_,?_,?_,read,rfl⟩
    · rw [snmpParseVarOp,run_bind_ok _ sequence,run_bind_ok _ (run_failWith_ok.mpr first),
        if_neg (by simp),run_bind_ok _ header]
      rfl
    · dsimp only
      rw [tlv_end _ v.type]
      omega
    · dsimp only
      rw [tlv_end _ v.type]
      omega

theorem snmpReallocRbuildVarOp_roundtrip (encodable : Encodable v) :
    Emits 0 0 (snmpReallocRbuildVarOp true v) () (output (snmpReallocRbuildVarOp true v)) ∧
      BindingReads v (output (snmpReallocRbuildVarOp true v)) := by
  obtain ⟨content,emits,reads⟩ := rbuildValue_roundtrip encodable.value
  refine output_emits ⟨_,?_,binding_reads encodable.name reads⟩
  refine emits_bind (emits_measured (emits_bind emits ?_)) (asnReallocRbuildHeader_emits _ _)
  exact asnReallocRbuildObjid_emits encodable.name

def bindingsOctets (vars : List Variable) : List UInt8 :=
  vars.flatMap fun v => output (snmpReallocRbuildVarOp true v)

-- The encoder goes through the variables from the back, and so does the induction.
theorem bindings_emit (encodable : ∀ v ∈ vars, Encodable v) :
    Emits 0 0 (vars.reverse.forM (snmpReallocRbuildVarOp true)) () (bindingsOctets vars) := by
  induction vars using List.reverseRecOn with
  | nil => exact Backfill.emits_pure 0 ()
  | append_singleton vars v ih =>
    have emits := (snmpReallocRbuildVarOp_roundtrip (encodable v (by simp))).1
    rw [reverse_append,reverse_singleton,singleton_append,bindingsOctets,flatMap_append,flatMap_singleton]
    exact emits_bind emits (ih fun earlier mem => encodable earlier (by simp [mem]))

theorem rbuildVarBinds_emits (junk : Nat → Nat) (encodable : ∀ v ∈ vars, Encodable v) :
    Emits 0 0 (rbuildVarBinds junk vars) () (bindingsOctets vars) := by
  rw [rbuildVarBinds,vpcacheLoop_eq _ _ vars.length (loaded_fill junk _) (by omega) (by omega),visitAll_variables le_rfl,
    List.take_length]
  exact bindings_emit encodable

theorem parseVarBinds_reads (encodable : ∀ v ∈ vars, Encodable v)
    (held : Holds memory data (bindingsOctets vars)) (small : (bindingsOctets vars).length ≤ 0x7fffffff)
    (enough : (bindingsOctets vars).length ≤ rounds) :
    ∃ found, (parseVarBinds rounds data (bindingsOctets vars).length).run memory = .ok (found,false) ∧
      found.map Variable.binding = vars.map Variable.binding := by
  induction vars generalizing data rounds with
  | nil => exact ⟨[],by cases rounds <;> rfl,rfl⟩
  | cons v rest ih =>
    have split : bindingsOctets (v :: rest) = output (snmpReallocRbuildVarOp true v)++bindingsOctets rest := by
      simp [bindingsOctets]
    obtain ⟨-,reads⟩ := snmpReallocRbuildVarOp_roundtrip (encodable v (by simp))
    have some := reads.some
    rw [split,length_append] at small enough ⊢
    obtain ⟨firstHeld,restHeld⟩ := holds_append.mp held
    obtain ⟨op,found,parsed,next,left,value,same⟩ := reads.reads memory data _ firstHeld
      (Nat.le_add_right _ (bindingsOctets rest).length) (by omega)
    obtain ⟨less,rfl⟩ : ∃ less, rounds = less+1 := ⟨rounds-1,by omega⟩
    obtain ⟨others,restParsed,restSame⟩ := ih (fun later mem => encodable later (by simp [mem]))
      restHeld (by omega) (show (bindingsOctets rest).length ≤ less by omega)
    rw [Nat.add_sub_cancel_left] at left
    refine ⟨found :: others,?_,by simp [same,restSame]⟩
    rw [parseVarBinds,if_pos (by rw [cInt_small (by omega)]; omega),run_bind_ok _ parsed,run_bind_ok _ value]
    rw [next,left,run_bind_ok _ restParsed]
    rfl

def Int32 (x : Int) : Prop := -2147483648 ≤ x ∧ x ≤ 2147483647

def fieldOctets (x : Int) : List UInt8 := output (asnReallocRbuildInt true asnInteger x sizeofLong)

def FieldReads (x : Int) (octets : List UInt8) : Prop :=
  ∀ memory data budget, Holds memory data octets → octets.length ≤ budget →
    (asnParseInt data budget).run memory = .ok ⟨asnInteger,x,data+octets.length,budget-octets.length⟩

theorem field_roundtrip (range : Int32 x) :
    Emits 0 0 (asnReallocRbuildInt true asnInteger x sizeofLong) () (fieldOctets x) ∧ FieldReads x (fieldOctets x) := by
  obtain ⟨content,emits,value,some,few⟩ := asnReallocRbuildInt_emits range.1 range.2
  refine output_emits ⟨_,emits,fun memory data budget held room => ?_⟩
  rw [asnParseInt_reads held some (by simp only [sizeofLong]; omega) room,value,checkOverflowS_small range.1 range.2]

def headOctets (pdu : Pdu) : List UInt8 :=
  fieldOctets pdu.reqid++fieldOctets pdu.errstat++fieldOctets pdu.errindex

theorem parseRequestFields_reads (ids : Int32 pdu.reqid ∧ Int32 pdu.errstat ∧ Int32 pdu.errindex)
    (held : Holds memory data (headOctets pdu)) (room : (headOctets pdu).length ≤ budget) :
    (parseRequestFields target data budget).run memory =
      .ok ({target with reqid:=pdu.reqid,errstat:=pdu.errstat,errindex:=pdu.errindex},
        data+(headOctets pdu).length,budget-(headOctets pdu).length) := by
  unfold headOctets at *
  obtain ⟨front,third⟩ := holds_append.mp held
  obtain ⟨first,second⟩ := holds_append.mp front
  rw [length_append] at third
  rw [length_append,length_append] at room ⊢
  have readId := (field_roundtrip ids.1).2 memory data budget first (by omega)
  have readStat := (field_roundtrip ids.2.1).2 memory _ (budget-(fieldOctets pdu.reqid).length) second (by omega)
  have readIndex := (field_roundtrip ids.2.2).2 memory _
    (budget-(fieldOctets pdu.reqid).length-(fieldOctets pdu.errstat).length) third (by omega)
  rw [← add_assoc] at readIndex
  rw [parseRequestFields,run_bind_ok _ (run_failWith_ok.mpr readId),run_bind_ok _ (run_failWith_ok.mpr readStat),
    run_bind_ok _ (run_failWith_ok.mpr readIndex),Nat.sub_sub,Nat.sub_sub,Nat.add_assoc data,Nat.add_assoc data]
  rfl

-- A PDU other than a v1 trap, with everything in it in the range of its type.
structure Request (pdu : Pdu) : Prop where
  command : isMsgCommand pdu.command = true
  ids : Int32 pdu.reqid ∧ Int32 pdu.errstat ∧ Int32 pdu.errindex
  bindings : ∀ v ∈ pdu.variableList, Encodable v

theorem message_command (message : isMsgCommand command = true) :
    command ≠ snmpMsgTrap ∧ (ofNat command).toNat = command ∧
    ofNat command &&& asnExtensionId ≠ asnExtensionId ∧ ofNat command ≠ asnOpaque := by
  simp only [isMsgCommand,Bool.or_eq_true,decide_eq_true_eq] at message
  rcases message with ((((((rfl | rfl) | rfl) | rfl) | rfl) | rfl) | rfl) | rfl <;> decide

def bodyOctets (pdu : Pdu) : List UInt8 :=
  headOctets pdu++tlv asnSequenceConstructor (bindingsOctets pdu.variableList)

def pduOctets (pdu : Pdu) : List UInt8 := tlv (UInt8.ofNat pdu.command) (bodyOctets pdu)

theorem snmpPduReallocRbuild_emits (request : Request pdu) :
    Emits 0 0 (snmpPduReallocRbuild junk pdu) () (pduOctets pdu) := by
  refine emits_bind (emits_measured ?_) (asnReallocRbuildHeader_emits _ _)
  obtain ⟨reqid,errstat,errindex⟩ := request.ids
  have fields : Emits 0 0 (rbuildRequestFields pdu) () (headOctets pdu) :=
    emits_bind (field_roundtrip errindex).1 (emits_bind (field_roundtrip errstat).1 (field_roundtrip reqid).1)
  have bindings := emits_measured (rbuildVarBinds_emits junk request.bindings)
  have header := Backfill.emits_ignore
    (asnReallocRbuildHeader_emits asnSequenceConstructor (bindingsOctets pdu.variableList).length)
  rw [rbuildBody,if_pos (message_command request.command).1,bodyOctets,tlv,← cons_append,← append_assoc]
  exact emits_bind bindings (emits_bind header fields)

structure SameHead (pdu other : Pdu) : Prop where
  command : other.command = pdu.command
  reqid : other.reqid = pdu.reqid
  errstat : other.errstat = pdu.errstat
  errindex : other.errindex = pdu.errindex

theorem parseFields_reads (request : Request pdu) (held : Holds memory data (headOctets pdu))
    (room : (headOctets pdu).length ≤ length) :
    ∃ fields, (parseFields target ⟨ofNat pdu.command,length,data⟩).run memory =
        .ok (fields,data+(headOctets pdu).length,length-(headOctets pdu).length) ∧
      SameHead pdu fields ∧ fields.variableList = target.variableList := by
  obtain ⟨notTrap,byte,-,-⟩ := message_command request.command
  unfold parseFields
  simp only [byte,if_neg notTrap,request.command,if_true]
  split <;>
    exact ⟨_,parseRequestFields_reads request.ids held room,⟨rfl,rfl,rfl,rfl⟩,rfl⟩

theorem parseBindings_reads (encodable : ∀ v ∈ vars, Encodable v)
    (held : Holds memory data (tlv asnSequenceConstructor (bindingsOctets vars)))
    (small : (tlv asnSequenceConstructor (bindingsOctets vars)).length ≤ 0x7fffffff)
    (empty : fields.variableList = []) :
    ∃ found, (parseBindings fields data (tlv asnSequenceConstructor (bindingsOctets vars)).length).run memory =
      .ok {fields with variableList:=found} ∧ found.map Variable.binding = vars.map Variable.binding := by
  have size := tlv_length asnSequenceConstructor (bindingsOctets vars)
  obtain ⟨-,-,inside⟩ := tlv_opened held (by omega) le_rfl
  have sequence := asnParseSequence_reads held (by decide) (by decide) (by omega) le_rfl
  obtain ⟨found,parsed,same⟩ := parseVarBinds_reads encodable inside (by omega) le_rfl
  refine ⟨found,?_,same⟩
  rw [parseBindings,run_bind_ok _ sequence,run_bind_ok _ parsed,empty]
  by_cases none : found = [] <;> simp [none]

theorem snmpPduParse_reads (request : Request pdu) (held : Holds memory data (pduOctets pdu))
    (small : (pduOctets pdu).length ≤ 0x7fffffff) (empty : target.variableList = []) :
    ∃ parsed, (snmpPduParse target data (pduOctets pdu).length).run memory = .ok parsed ∧ SameHead pdu parsed ∧
      parsed.variableList.map Variable.binding = pdu.variableList.map Variable.binding := by
  obtain ⟨-,-,plain,notOpaque⟩ := message_command request.command
  have whole := tlv_length (ofNat pdu.command) (bodyOctets pdu)
  have body : (bodyOctets pdu).length = (headOctets pdu).length +
      (tlv asnSequenceConstructor (bindingsOctets pdu.variableList)).length := by
    rw [bodyOctets,length_append]
  rw [pduOctets] at small held ⊢
  obtain ⟨-,-,inside⟩ := tlv_opened held (by omega) le_rfl
  have header := asnParseHeader_reads held plain notOpaque (by omega) le_rfl
  obtain ⟨fieldsHeld,listHeld⟩ := holds_append.mp inside
  obtain ⟨fields,read,⟨command,reqid,errstat,errindex⟩,kept⟩ := parseFields_reads request fieldsHeld
    (show _ ≤ (bodyOctets pdu).length by omega)
  obtain ⟨found,bindings,same⟩ := parseBindings_reads request.bindings listHeld (by omega)
    (kept.trans empty)
  refine ⟨{fields with variableList:=found},?_,⟨command,reqid,errstat,errindex⟩,same⟩
  rw [snmpPduParse,run_bind_ok _ header,run_bind_ok _ read]
  rw [show (bodyOctets pdu).length-(headOctets pdu).length =
    (tlv asnSequenceConstructor (bindingsOctets pdu.variableList)).length by omega,bindings]

-- What was built is read back unless it is too long for the length check of the parser.
theorem pdu_roundtrip (junk : Nat → Nat) (heap : Heap) (pdu target : Pdu) (request : Request pdu)
    (granted : Granted heap .empty ((snmpPduReallocRbuild junk pdu).run heap .empty).2)
    (empty : target.variableList = []) (memory : Memory) (data : Nat)
    (held : Holds memory data ((snmpPduReallocRbuild junk pdu).run heap .empty).2.octets) :
    ((snmpPduReallocRbuild junk pdu).run heap .empty).1 = some () ∧
    (((snmpPduReallocRbuild junk pdu).run heap .empty).2.offset ≤ 0x7fffffff →
      ∃ parsed, (snmpPduParse target data ((snmpPduReallocRbuild junk pdu).run heap .empty).2.offset).run memory =
          .ok parsed ∧ SameHead pdu parsed ∧
        parsed.variableList.map Variable.binding = pdu.variableList.map Variable.binding) := by
  obtain ⟨later,ran,octets,-⟩ := snmpPduReallocRbuild_emits request heap .empty (le_refl 0) granted
  rw [ran] at held ⊢
  simp only [TailBuffer.empty,append_nil] at octets
  refine ⟨rfl,?_⟩
  simp only [TailBuffer.offset,octets] at held ⊢
  exact fun small => snmpPduParse_reads request held small empty

def samplePdu : Pdu :=
  {Pdu.fresh with
    command:=snmpMsgResponse,reqid:=-1,errstat:=2,errindex:=0x7fffffff,
    variableList:=List.replicate 51 ⟨[1,3,6,1],asnInteger,.integer (-129),sizeofLong⟩ ++
      [⟨[2,999,0xffffffff],asnCounter,.unsigned 0xffffffff,sizeofLong⟩,
       ⟨[0,0],asnCounter64,.counter64 0x80000000 1,sizeofCounter64⟩,
       ⟨[1,3],asnIpaddress,.string [127,0,0,1],4⟩,
       ⟨[1,3],asnObjectId,.objid [1,3,6],24⟩,
       ⟨[1,3],snmpEndofmibview,.none,0⟩]}

theorem samplePdu_request : Request samplePdu where
  command := rfl
  ids := by unfold Int32; decide
  bindings := by decide

theorem pdu_roundtrip_sample : ((snmpPduReallocRbuild (fun _ => 0) samplePdu).run (fun _ => true) .empty).1 = some () ∧
    (((snmpPduReallocRbuild (fun _ => 0) samplePdu).run (fun _ => true) .empty).2.offset ≤ 0x7fffffff →
      ∃ parsed, (snmpPduParse .fresh 0
          ((snmpPduReallocRbuild (fun _ => 0) samplePdu).run (fun _ => true) .empty).2.offset).run
          (Probe.image ((snmpPduReallocRbuild (fun _ => 0) samplePdu).run (fun _ => true) .empty).2.octets) =
          .ok parsed ∧ SameHead samplePdu parsed ∧
        parsed.variableList.map Variable.binding = samplePdu.variableList.map Variable.binding) :=
  pdu_roundtrip _ _ samplePdu .fresh samplePdu_request (granted_always _ _) rfl _ 0 (Probe.holds_image _)

theorem asnParseHeader_oversize (held : Holds memory data (tlv type content)) (long : 0x7fffffff < content.length)
    (small : content.length < 2^63) : (asnParseHeader data budget).run memory = .error () := by
  obtain ⟨here,rest⟩ := Probe.holds_cons.mp held
  obtain ⟨length,-⟩ := holds_append.mp rest
  rw [asnParseHeader,Probe.run_bind_fetch]
  split
  · rfl
  rw [sized,run_bind_ok _ (run_failWith_ok.mpr (lengthOctets_read length small))]
  rw [if_pos (by simp [asnParseLengthCheck,long])]
  rfl

theorem snmpPduParse_oversize (held : Holds memory data (pduOctets pdu))
    (long : 0x7fffffff < (bodyOctets pdu).length) (small : (bodyOctets pdu).length < 2^63) :
    (snmpPduParse target data budget).run memory = .error () := by
  rw [snmpPduParse,Interaction.run_bind_error _ (asnParseHeader_oversize held long small)]

theorem fieldOctets_short (range : Int32 x) : (fieldOctets x).length ≤ 15 := by
  obtain ⟨content,emits,-,-,few⟩ := asnReallocRbuildInt_emits range.1 range.2
  have short := lengthOctets_short (show content.length < 2^63 by omega)
  rw [fieldOctets,output_eq emits,tlv_length]
  omega

theorem bindingsOctets_string (name : ObjidFits v.name) (type : v.type = asnOctetStr) (val : v.val = .string octets) :
    bindingsOctets [v] = tlv asnSequenceConstructor (boundOctets v octets) := by
  have value : Emits 0 0 (rbuildValue true v) () (tlv v.type octets) := by
    rw [rbuildValue,type,val]
    exact asnReallocRbuildString_emits
  have emits : Emits 0 0 (snmpReallocRbuildVarOp true v) () (tlv asnSequenceConstructor (boundOctets v octets)) := by
    refine emits_bind (emits_measured (emits_bind value ?_)) (asnReallocRbuildHeader_emits _ _)
    exact asnReallocRbuildObjid_emits name
  simp [bindingsOctets,output_eq emits]

def shortName : List Nat := [1,3]

theorem shortName_fits : ObjidFits shortName := by decide

def stringPdu (octets : List UInt8) : Pdu :=
  {Pdu.fresh with command:=snmpMsgResponse,variableList:=[⟨shortName,asnOctetStr,.string octets,octets.length⟩]}

theorem zero_int32 : Int32 0 := by unfold Int32; decide

theorem stringPdu_request (octets : List UInt8) : Request (stringPdu octets) where
  command := by rfl
  ids := ⟨zero_int32,zero_int32,zero_int32⟩
  bindings v mem := by
    simp only [stringPdu,mem_singleton] at mem
    subst v
    exact ⟨shortName_fits,.inl rfl,rfl⟩

theorem tlv_bounds (type : UInt8) (small : content.length < 2^63) :
    content.length < (tlv type content).length ∧ (tlv type content).length ≤ content.length+10 := by
  have short := lengthOctets_short small
  rw [tlv_length]
  omega

theorem stringPdu_size (small : octets.length < 2^62) :
    octets.length < (bodyOctets (stringPdu octets)).length ∧ (bodyOctets (stringPdu octets)).length < 2^63 := by
  have zero := fieldOctets_short zero_int32
  have name : (objidOctets shortName).length = 1 := by simp [objidOctets,shortName,joinFirst,subidOctets,continued]
  have first := tlv_bounds asnObjectId (show (objidOctets shortName).length < 2^63 by omega)
  have second := tlv_bounds asnOctetStr (show octets.length < 2^63 by omega)
  rw [bodyOctets,headOctets,length_append,length_append,length_append,
    show (stringPdu octets).variableList = [⟨shortName,asnOctetStr,.string octets,octets.length⟩] from rfl,
    bindingsOctets_string shortName_fits rfl rfl,show (stringPdu octets).reqid = 0 from rfl,
    show (stringPdu octets).errstat = 0 from rfl,show (stringPdu octets).errindex = 0 from rfl]
  generalize whole : boundOctets _ octets = bound
  have parts : bound.length = (tlv asnObjectId (objidOctets shortName)).length+(tlv asnOctetStr octets).length := by
    rw [← whole]
    exact length_append
  have binding := tlv_bounds asnSequenceConstructor (show bound.length < 2^63 by omega)
  have list := tlv_bounds asnSequenceConstructor (show (tlv asnSequenceConstructor bound).length < 2^63 by omega)
  omega

-- Longer than what the length check lets through: built, but not read back.
theorem stringPdu_oversize (long : 0x7fffffff ≤ octets.length) (small : octets.length < 2^62)
    (held : Holds memory data ((snmpPduReallocRbuild junk (stringPdu octets)).run (fun _ => true) .empty).2.octets) :
    ((snmpPduReallocRbuild junk (stringPdu octets)).run (fun _ => true) .empty).1 = some () ∧
    (snmpPduParse target data ((snmpPduReallocRbuild junk (stringPdu octets)).run (fun _ => true) .empty).2.offset).run
      memory = .error () := by
  obtain ⟨later,ran,written,-⟩ := snmpPduReallocRbuild_emits (stringPdu_request octets) (fun _ => true) .empty
    (le_refl 0) (granted_always _ _)
  obtain ⟨longer,limit⟩ := stringPdu_size small
  rw [ran] at held ⊢
  simp only [written,TailBuffer.empty,append_nil] at held
  exact ⟨rfl,snmpPduParse_oversize held (by omega) limit⟩

-- The allocator refuses its second request, which is the one for the header of the
-- variable-bindings list, and grants all others.
def refusingSecond : Heap := fun request => request ≠ 1

def refusedBuild : Option Unit × TailBuffer :=
  (snmpPduReallocRbuild (fun _ => 0) (stringPdu (List.replicate 247 0))).run refusingSecond .empty

theorem unread_builds : (Request (stringPdu (replicate 0x80000000 0)) ∧ ∀ junk target memory data,
      Holds memory data ((snmpPduReallocRbuild junk (stringPdu (replicate 0x80000000 0))).run
        (fun _ => true) .empty).2.octets →
      ((snmpPduReallocRbuild junk (stringPdu (replicate 0x80000000 0))).run (fun _ => true) .empty).1 = some () ∧
      (snmpPduParse target data ((snmpPduReallocRbuild junk (stringPdu (replicate 0x80000000 0))).run
        (fun _ => true) .empty).2.offset).run memory = .error ()) ∧
    (Request (stringPdu (replicate 247 0)) ∧ refusedBuild.1 = some () ∧
      (snmpPduParse .fresh 0 refusedBuild.2.offset).run (Probe.image refusedBuild.2.octets) = .error ()) := by
  refine ⟨⟨stringPdu_request _,fun junk target memory data held => ?_⟩,stringPdu_request _,by decide +kernel⟩
  have size := @length_replicate UInt8 0x80000000 0
  exact stringPdu_oversize (by omega) (by omega) held

end NetSnmp.PduRoundtrip
