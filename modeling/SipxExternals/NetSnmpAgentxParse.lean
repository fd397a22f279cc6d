import SipxExternals.FoundationsInteraction
import SipxExternals.NetSnmpAgentxBuild

namespace NetSnmp.AgentxParse
open Foundations AsnTypes AgentxBuild

inductive Buffer where
  | value | oid | endOid
deriving DecidableEq

def Buffer.size : Buffer → Nat
  | .value => snmpMaxMsgSize
  | .oid | .endOid => maxOidLen*sizeofOid

inductive Action where
  | read (offset : Nat)
  | subtract (length amount : Nat)
  | write (buffer : Buffer) (first count : Nat)
deriving DecidableEq

def Action.Answer : Action → Type
  | .read _ => UInt8
  | .subtract _ _ => Unit
  | .write _ _ _ => Unit

def actions : Interface := ⟨Action,Action.Answer⟩

def packet (memory : Memory) : Handler actions
  | .read offset => memory offset
  | .subtract _ _ => ()
  | .write _ _ _ => ()

inductive Fault where
  | badVersion | incompletePacket | parseErr | unknownPdu | exhausted
deriving DecidableEq

abbrev Parser := Interaction actions Fault

def fetch (offset : Nat) : Parser UInt8 := @Interaction.perform actions Fault (.read offset)
def fill (buffer : Buffer) (first count : Nat) : Parser Unit := @Interaction.perform actions Fault (.write buffer first count)

-- *length -= amount, for a size_t of 64 bits.
def reduce (length amount : Nat) : Parser Nat := do
  let _ ← (@Interaction.perform actions Fault (.subtract length amount) : Parser Unit)
  return (length+2^64-amount)%2^64

def fetchMany (offset : Nat) : Nat → Parser (List UInt8)
  | 0 => return []
  | count+1 => do
    let octet ← fetch offset
    let octets ← fetchMany (offset+1) count
    return octet :: octets

def wordValue (networkByteOrder : Bool) (octets : List UInt8) : Nat :=
  octetsValue (if networkByteOrder then octets else octets.reverse)

def agentxParseInt (data : Nat) (networkByteOrder : Bool) : Parser Int := do
  let octets ← fetchMany data 4
  return cInt (wordValue networkByteOrder octets)

def agentxParseShort (data : Nat) (networkByteOrder : Bool) : Parser Nat := do
  let octets ← fetchMany data 2
  return wordValue networkByteOrder octets

structure Parsed (α : Type) where
  data : Nat
  length : Nat
  value : α

def parseSubids (networkByteOrder : Bool) (buffer : Buffer) : Nat → Nat → Nat → Nat → Parser (Parsed (List Nat))
  | 0,_,data,length => return ⟨data,length,[]⟩
  | count+1,index,data,length => do
    let x ← agentxParseInt data networkByteOrder
    let _ ← fill buffer (sizeofOid*index) sizeofOid
    let length ← reduce length 4
    let rest ← parseSubids networkByteOrder buffer count (index+1) (data+4) length
    return ⟨rest.data,rest.length,cUint x :: rest.value⟩

def expandedLength (nSubid five : UInt8) : Nat := if five ≠ 0 then nSubid.toNat+5 else nSubid.toNat

def parseOidBody (nSubid five : UInt8) (data length : Nat) (buffer : Buffer) (oidLen : Nat) (networkByteOrder : Bool) :
    Parser (Parsed (List Nat)) :=
  if nSubid = 0 ∧ five = 0 then do
    let _ ← fill buffer 0 (2*sizeofOid)
    return ⟨data,length,[0,0]⟩
  else if oidLen < expandedLength nSubid five then .fail .parseErr
  else if length < 4*nSubid.toNat then .fail .parseErr
  else if five ≠ 0 then do
    let _ ← fill buffer 0 (5*sizeofOid)
    let rest ← parseSubids networkByteOrder buffer nSubid.toNat 5 data length
    return ⟨rest.data,rest.length,1 :: 3 :: 6 :: 1 :: five.toNat :: rest.value⟩
  else parseSubids networkByteOrder buffer nSubid.toNat 0 data length

-- The octet that says whether the object identifier is inclusive is looked at only
-- when the caller wants it.
def fetchInclude (inc : Bool) (offset : Nat) : Parser UInt8 := if inc then fetch offset else pure 0

def agentxParseOid (data length : Nat) (inc : Bool) (buffer : Buffer) (oidLen : Nat) (networkByteOrder : Bool) :
    Parser (Parsed (UInt8 × List Nat)) :=
  if length < 4 then .fail .parseErr
  else do
    let nSubid ← fetch data
    let five ← fetch (data+1)
    let included ← fetchInclude inc (data+2)
    let length ← reduce length 4
    let body ← parseOidBody nSubid five (data+4) length buffer oidLen networkByteOrder
    return ⟨body.data,body.length,included,body.value⟩

def storeString (len data length : Nat) : Parser (Parsed (List UInt8)) := do
  let octets ← fetchMany (data+4) len
  let _ ← fill .value 0 len
  let _ ← fill .value len 1
  let padded := (len+3)%2^32 / 4*4
  let length ← reduce length (padded+4)
  return ⟨data+(padded+4),length,octets⟩

def agentxParseString (data length strLen : Nat) (networkByteOrder : Bool) : Parser (Parsed (List UInt8)) :=
  if length < 4 then .fail .parseErr
  else do
    let len ← agentxParseInt data networkByteOrder
    if length < (cUint len+4)%2^32 then .fail .parseErr
    else if strLen < cUint len then .fail .parseErr
    else storeString (cUint len) data length

inductive Content where
  | int (value : Nat)
  | octets (value : List UInt8)
  | subids (value : List Nat)
  | counter64 (high low : Nat)
  | float (bits : Nat)
  | double (bits : Nat)
  | empty

def opaqueContent (octets : List UInt8) : UInt8 × Content :=
  if octets.length ≤ 3 ∨ octets.getD 0 0 ≠ asnOpaqueTag1 then (asnOpaque,.octets octets)
  else if octets.getD 1 0 = asnOpaqueFloat then
    if octets.length ≠ 3+sizeofFloat ∨ (octets.getD 2 0).toNat ≠ sizeofFloat then (asnOpaque,.octets octets)
    else (asnOpaqueFloat,.float (octetsValue (octets.drop 3)))
  else if octets.getD 1 0 = asnOpaqueDouble then
    if octets.length ≠ 3+sizeofDouble ∨ (octets.getD 2 0).toNat ≠ sizeofDouble then (asnOpaque,.octets octets)
    else (asnOpaqueDouble,.double (octetsValue (octets.drop 3)))
  else (asnOpaque,.octets octets)

def contentSize : Content → Nat
  | .float _ => sizeofFloat
  | .double _ => sizeofDouble
  | _ => 0

def agentxParseOpaque (data length opaqueLen : Nat) (networkByteOrder : Bool) : Parser (Parsed (UInt8 × Content)) := do
  let string ← agentxParseString data length opaqueLen networkByteOrder
  let _ ← fill .value 0 (contentSize (opaqueContent string.value).2)
  return ⟨string.data,string.length,opaqueContent string.value⟩

-- The value switch of agentx_parse_varbind. An object identifier goes to the value
-- buffer with data_len, a number of octets, taken for a number of sub-identifiers.
def parseValue (type : Nat) (data length dataLen : Nat) (networkByteOrder : Bool) : Parser (Parsed (UInt8 × Content)) :=
  match wireKind type with
  | .int => do
    let intVal ← agentxParseInt data networkByteOrder
    let _ ← fill .value 0 4
    let length ← reduce length 4
    return ⟨data+4,length,UInt8.ofNat type,.int (cUint intVal)⟩
  | .string => do
    let string ← agentxParseString data length dataLen networkByteOrder
    return ⟨string.data,string.length,UInt8.ofNat type,.octets string.value⟩
  | .opaqueString => agentxParseOpaque data length dataLen networkByteOrder
  | .objid => do
    let objid ← agentxParseOid data length false .value dataLen networkByteOrder
    return ⟨objid.data,objid.length,UInt8.ofNat type,.subids objid.value.2⟩
  | .counter64 => do
    let first ← agentxParseInt data networkByteOrder
    let second ← agentxParseInt (data+4) networkByteOrder
    let _ ← fill .value 0 sizeofCounter64
    let length ← reduce length 8
    let halves := if networkByteOrder then (cUlong first,cUlong second) else (cUlong second,cUlong first)
    return ⟨data+8,length,UInt8.ofNat type,.counter64 halves.1 halves.2⟩
  | .empty => return ⟨data,length,UInt8.ofNat type,.empty⟩
  | _ => .fail .parseErr

def agentxParseVarbind (data length oidLen dataLen : Nat) (networkByteOrder : Bool) :
    Parser (Parsed (List Nat × UInt8 × Content)) := do
  let type ← agentxParseShort data networkByteOrder
  let length ← reduce length 4
  let name ← agentxParseOid (data+4) length false .oid oidLen networkByteOrder
  let value ← parseValue type name.data name.length dataLen networkByteOrder
  return ⟨value.data,value.length,name.value.2,value.value⟩

-- snmp_set_var_value: an int of four octets is widened to a long, with its sign
-- only for ASN_INTEGER.
def snmpSetVarValue (type : UInt8) : Content → Value × Nat
  | .int value => if type = asnInteger then (.integer (cInt value),sizeofLong) else (.unsigned value,sizeofLong)
  | .octets value => (.string value,value.length)
  | .subids value => (.objid value,value.length*sizeofOid)
  | .counter64 high low => (.counter64 high low,sizeofCounter64)
  | .float bits => (.float bits,sizeofFloat)
  | .double bits => (.double bits,sizeofDouble)
  | .empty => (.none,0)

def snmpPduAddVariable (name : List Nat) (type : UInt8) (content : Content) : Variable :=
  ⟨name,type,(snmpSetVarValue type content).1,(snmpSetVarValue type content).2⟩

def parseSearchRange (networkByteOrder : Bool) (data length : Nat) : Parser (Parsed Variable) := do
  let start ← agentxParseOid data length true .oid maxOidLen networkByteOrder
  let stop ← agentxParseOid start.data start.length false .endOid maxOidLen networkByteOrder
  let type := if start.value.1 ≠ 0 then asnPrivInclRange else asnPrivExclRange
  return ⟨stop.data,stop.length,snmpPduAddVariable start.value.2 type (.subids stop.value.2)⟩

def parseBinding (networkByteOrder : Bool) (data length : Nat) : Parser (Parsed Variable) := do
  let varbind ← agentxParseVarbind data length maxOidLen snmpMaxMsgSize networkByteOrder
  return ⟨varbind.data,varbind.length,snmpPduAddVariable varbind.value.1 varbind.value.2.1 varbind.value.2.2⟩

-- while (*length > 0): the rounds are counted. A round that ends leaves less than
-- it found as long as the length has not wrapped.
def parseList (item : Nat → Nat → Parser (Parsed Variable)) : Nat → Nat → Nat → Parser (List Variable)
  | 0,_,length => if length > 0 then .fail .exhausted else return []
  | rounds+1,data,length =>
    if length > 0 then do
      let found ← item data length
      let rest ← parseList item rounds found.data found.length
      return found.value :: rest
    else return []

def parseSearchRanges (networkByteOrder : Bool) : Nat → Nat → Nat → Parser (List Variable) :=
  parseList (parseSearchRange networkByteOrder)

def parseVarbinds (networkByteOrder : Bool) : Nat → Nat → Nat → Parser (List Variable) :=
  parseList (parseBinding networkByteOrder)

def parseDescribed (data length : Nat) (networkByteOrder : Bool) : Parser (List Variable) := do
  let name ← agentxParseOid data length false .oid maxOidLen networkByteOrder
  let description ← agentxParseString name.data name.length snmpMaxMsgSize networkByteOrder
  return [snmpPduAddVariable name.value.2 asnOctetStr (.octets description.value)]

def parseRegion (data length : Nat) (rangeSubid : Int) (networkByteOrder : Bool) : Parser (List Variable) := do
  let name ← agentxParseOid data length false .oid maxOidLen networkByteOrder
  if rangeSubid ≠ 0 then do
    let rangeBound ← agentxParseInt name.data networkByteOrder
    let _ ← reduce name.length 4
    let _ ← fill .endOid 0 (name.value.2.length*sizeofOid)
    let _ ← fill .endOid ((rangeSubid-1).toNat*sizeofOid) sizeofOid
    return [snmpPduAddVariable name.value.2 asnPrivInclRange
      (.subids (name.value.2.set (rangeSubid-1).toNat (cUlong rangeBound)))]
  else return [snmpPduAddVariable name.value.2 asnNull .empty]

def parseHeaderWords (pdu : Pdu) (data length : Nat) : Parser (Parsed Pdu) := do
  let sessid ← agentxParseInt data (pdu.flags.has networkByteOrder)
  let transid ← agentxParseInt (data+4) (pdu.flags.has networkByteOrder)
  let reqid ← agentxParseInt (data+8) (pdu.flags.has networkByteOrder)
  let payload ← agentxParseInt (data+12) (pdu.flags.has networkByteOrder)
  let length ← reduce length 20
  if length ≠ cUlong payload then .fail .incompletePacket
  else return ⟨data+16,length,{ pdu with sessid, transid, reqid }⟩

def agentxParseHeader (pdu : Pdu) (data length : Nat) : Parser (Parsed Pdu) :=
  if length < 20 then .fail .incompletePacket
  else do
    let version ← fetch data
    let command ← fetch (data+1)
    let flags ← fetch (data+2)
    parseHeaderWords { pdu with version := agentxVersionBase ||| version.toNat, command := Command.ofOctet command, flags := pdu.flags ||| BitVec.ofNat 64 flags.toNat } (data+4) length

-- The context goes to the community, and to the context name unless that is set;
-- strdup ends at the first zero octet.
def parseContext (pdu : Pdu) (data length : Nat) : Parser (Parsed Pdu) :=
  if pdu.flags.has nonDefaultContext then do
    let context ← agentxParseString data length snmpMaxMsgSize (pdu.flags.has networkByteOrder)
    let pdu := { pdu with community := some context.value }
    let pdu := if context.value.length > 0 ∧ pdu.contextName = none then
      { pdu with contextName := some (context.value.takeWhile (· ≠ 0)), contextNameLen := context.value.length } else pdu
    return ⟨context.data,context.length,pdu⟩
  else return ⟨data,length,pdu⟩

def addVariables (pdu : Pdu) (added : List Variable) : Pdu := { pdu with variableList := pdu.variableList++added }

def parseBody (pdu : Pdu) (data length : Nat) : Parser Pdu :=
  let order := pdu.flags.has networkByteOrder
  match pdu.command with
  | .msgOpen => do
    let time ← fetch data
    let length ← reduce length 4
    return addVariables { pdu with time := time.toNat } (← parseDescribed (data+4) length order)
  | .msgClose => do
    let errstat ← fetch data
    let _ ← reduce length 4
    return { pdu with errstat := errstat.toNat }
  | .msgRegister => do
    let time ← fetch data
    let priority ← fetch (data+1)
    let rangeSubid ← fetch (data+2)
    let length ← reduce length 4
    return addVariables { pdu with time := time.toNat, priority := priority.toNat, rangeSubid := rangeSubid.toNat }
      (← parseRegion (data+4) length rangeSubid.toNat order)
  | .msgUnregister => do
    let priority ← fetch (data+1)
    let rangeSubid ← fetch (data+2)
    let length ← reduce length 4
    return addVariables { pdu with priority := priority.toNat, rangeSubid := rangeSubid.toNat }
      (← parseRegion (data+4) length rangeSubid.toNat order)
  | .msgGetbulk => do
    let nonRepeaters ← agentxParseShort data order
    let maxRepetitions ← agentxParseShort (data+2) order
    let length ← reduce length 4
    return addVariables { pdu with errstat := nonRepeaters, errindex := maxRepetitions }
      (← parseSearchRanges order length (data+4) length)
  | .msgGetnext | .msgGet => do return addVariables pdu (← parseSearchRanges order length data length)
  | .msgResponse => do
    let time ← agentxParseInt data order
    let length ← reduce length 4
    let errstat ← agentxParseShort (data+4) order
    let errindex ← agentxParseShort (data+6) order
    let length ← reduce length 4
    return addVariables { pdu with flags := pdu.flags ||| ucdResponsePdu, time := cUlong time, errstat := errstat, errindex := errindex }
      (← parseVarbinds order length (data+8) length)
  | .msgIndexAllocate | .msgIndexDeallocate | .msgNotify | .msgTestset => do return addVariables pdu (← parseVarbinds order length data length)
  | .msgCommitset => return pdu
  | .msgUndoset => return pdu
  | .msgCleanupset => return pdu
  | .msgPing => return pdu
  | .msgAddAgentCaps => do return addVariables pdu (← parseDescribed data length order)
  | .msgRemoveAgentCaps => do
    let name ← agentxParseOid data length false .oid maxOidLen order
    return addVariables pdu [snmpPduAddVariable name.value.2 asnNull .empty]
  | .unknown => .fail .unknownPdu

def agentxParse (sessionVersion : Nat) (pdu : Pdu) (len : Nat) : Parser Pdu :=
  if sessionVersion &&& agentxVersionBase ≠ agentxVersionBase then .fail .badVersion
  else do
    let header ← agentxParseHeader pdu 0 len
    let pdu := { header.value with
      flags := (header.value.flags ||| ucdAlwaysInView ||| ucdForcePduCopy) &&& ~~~ucdResponsePdu }
    let context ← parseContext pdu header.data header.length
    parseBody context.value context.data context.length

def emptyPdu : Pdu := ⟨0,.unknown,0,0,0,0,0,0,0,0,0,none,none,0,[]⟩

section
open Interaction (run_bind_ok)
open Probe (slice)

theorem run_fetch (offset : Nat) (follow : UInt8 → Parser α) :
    (fetch offset >>= follow).run (packet memory) = (follow (memory offset)).run (packet memory) := rfl

theorem run_fill : (fill buffer first count >>= follow).run (packet memory) = (follow ()).run (packet memory) := rfl

theorem run_reduce : (reduce length amount >>= follow).run (packet memory) =
    (follow ((length+2^64-amount)%2^64)).run (packet memory) := rfl

theorem run_fetchMany (offset count : Nat) : (fetchMany offset count).run (packet memory) = .ok (slice memory offset count) := by
  induction count generalizing offset with
  | zero => rfl
  | succ count ih =>
    rw [fetchMany,run_fetch,run_bind_ok _ (ih (offset+1))]
    rfl

theorem run_agentxParseInt {networkByteOrder : Bool} : (agentxParseInt data networkByteOrder).run (packet memory) =
    .ok (cInt (wordValue networkByteOrder (slice memory data 4))) :=
  run_bind_ok _ (run_fetchMany data 4)

theorem run_agentxParseShort {networkByteOrder : Bool} : (agentxParseShort data networkByteOrder).run (packet memory) =
    .ok (wordValue networkByteOrder (slice memory data 2)) :=
  run_bind_ok _ (run_fetchMany data 2)

theorem reduced (fits : amount ≤ length) (small : length < 2^64) : (length+2^64-amount)%2^64 = length-amount := by
  omega

end

end NetSnmp.AgentxParse
