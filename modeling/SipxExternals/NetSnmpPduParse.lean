import SipxExternals.NetSnmpAsnParse

namespace NetSnmp.PduParse
open Foundations AsnTypes AsnParse

def snmpMsgGet : Nat := 0xa0
def snmpMsgGetnext : Nat := 0xa1
def snmpMsgResponse : Nat := 0xa2
def snmpMsgSet : Nat := 0xa3
def snmpMsgTrap : Nat := 0xa4
def snmpMsgGetbulk : Nat := 0xa5
def snmpMsgInform : Nat := 0xa6
def snmpMsgTrap2 : Nat := 0xa7
def snmpMsgReport : Nat := 0xa8

def ucdMsgFlagResponsePdu : Nat := 0x100

structure Pdu where
  command : Nat
  reqid : Int
  errstat : Int
  errindex : Int
  time : Nat
  flags : Nat
  enterprise : List Nat
  trapType : Int
  specificType : Int
  agentAddr : List UInt8
  variableList : List Variable
deriving DecidableEq

def Pdu.fresh : Pdu := ⟨0,0,0,0,0,0,[],0,0,[0,0,0,0],[]⟩

structure VarOp where
  name : List Nat
  type : UInt8
  valLen : Nat
  val : Nat
  next : Nat
  left : Nat

def snmpParseVarOp (data listlength : Nat) : Probe Unit VarOp := do
  let sequence ← asnParseSequence data listlength asnSequenceConstructor
  let name ← (asnParseObjid sequence.next sequence.length).failWith ()
  if name.type ≠ asnObjectId then .fail ()
  else do
    let header ← asnParseHeader name.next name.left
    let next := header.next+header.length
    return ⟨name.value,header.type,header.length,name.next,next,listlength-(next-data)⟩

-- A value parser's return pointer is not looked at: when it is NULL the binding
-- keeps the type stored by then and storage without a value.
def settle (name : List Nat) (size : Nat) (wrap : α → Value) : Except UInt8 (Parsed α) → Variable
  | .ok parsed => ⟨name,parsed.type,wrap parsed.value,size⟩
  | .error type => ⟨name,type,.undefined,size⟩

def settleString (op : VarOp) (wrap : List UInt8 → Value) : Except UInt8 (Parsed (List UInt8)) → Variable
  | .ok parsed => ⟨op.name,parsed.type,wrap parsed.value,parsed.value.length⟩
  | .error type => ⟨op.name,type,.undefined,op.valLen⟩

-- On failure the copy is of *objidlength entries of an array that was partly written.
def settleObjid (op : VarOp) : Except (UInt8 × Nat) (Parsed (List Nat)) → Variable
  | .ok parsed => ⟨op.name,parsed.type,.objid parsed.value,parsed.value.length*sizeofOid⟩
  | .error (type,room) => ⟨op.name,type,.undefined,room*sizeofOid⟩

def parseValue (op : VarOp) : Probe Unit (Variable × Bool) :=
  match valueKind op.type with
  | some .integer => do
    let outcome ← (asnParseInt op.val maxPacketLength).attempt
    return (settle op.name sizeofLong .integer outcome,false)
  | some .unsigned => do
    let outcome ← (asnParseUnsignedInt op.val maxPacketLength).attempt
    return (settle op.name sizeofLong .unsigned outcome,false)
  | some .unsigned64 => do
    let outcome ← (asnParseUnsignedInt64 op.val maxPacketLength).attempt
    return (settle op.name sizeofCounter64 (fun word => .counter64 word.1 word.2) outcome,false)
  | some .float => do
    let outcome ← (asnParseFloat op.val maxPacketLength).attempt
    return (settle op.name sizeofFloat .float outcome,false)
  | some .double => do
    let outcome ← (asnParseDouble op.val maxPacketLength).attempt
    return (settle op.name sizeofDouble .double outcome,false)
  | some .signed64 => do
    let outcome ← (asnParseSignedInt64 op.val maxPacketLength).attempt
    return (settle op.name sizeofCounter64 (fun word => .counter64 word.1 word.2) outcome,false)
  | some .string => do
    let outcome ← (asnParseString op.val maxPacketLength op.valLen).attempt
    return (settleString op .string outcome,false)
  | some .objid => do
    let outcome ← (asnParseObjid op.val maxPacketLength).attempt
    return (settleObjid op outcome,false)
  | some .null => return (⟨op.name,op.type,.none,op.valLen⟩,false)
  | some .bitstring => do
    let outcome ← (asnParseBitstring op.val maxPacketLength op.valLen).attempt
    return (settleString op .bitstring outcome,false)
  | none => return (⟨op.name,op.type,.undefined,op.valLen⟩,true)

-- Each round uses up an octet of *length, so as many rounds as the length are enough.
def parseVarBinds : Nat → Nat → Nat → Probe Unit (List Variable × Bool)
  | 0,_,_ => .done ([],false)
  | rounds+1,data,length =>
    if cInt length > 0 then do
      let op ← snmpParseVarOp data length
      let (first,badtype) ← parseValue op
      let (rest,badrest) ← parseVarBinds rounds op.next op.left
      return (first :: rest,badtype || badrest)
    else .done ([],false)

def isMsgCommand (command : Nat) : Bool :=
  command = snmpMsgResponse || command = snmpMsgReport || command = snmpMsgGet || command = snmpMsgGetnext ||
    command = snmpMsgGetbulk || command = snmpMsgSet || command = snmpMsgTrap2 || command = snmpMsgInform

def parseRequestFields (pdu : Pdu) (data length : Nat) : Probe Unit (Pdu × Nat × Nat) := do
  let reqid ← (asnParseInt data length).failWith ()
  let errstat ← (asnParseInt reqid.next reqid.left).failWith ()
  let errindex ← (asnParseInt errstat.next errstat.left).failWith ()
  return ({pdu with reqid:=reqid.value,errstat:=errstat.value,errindex:=errindex.value}, errindex.next,errindex.left)

def parseTrapFields (pdu : Pdu) (data length : Nat) : Probe Unit (Pdu × Nat × Nat) := do
  let enterprise ← (asnParseObjid data length).failWith ()
  let address ← (asnParseString enterprise.next enterprise.left 4).failWith ()
  let generic ← (asnParseInt address.next address.left).failWith ()
  let specific ← (asnParseInt generic.next generic.left).failWith ()
  let time ← (asnParseUnsignedInt specific.next specific.left).failWith ()
  -- memmove into agent_addr leaves its other octets, the first of them zeroed
  let rest := (pdu.agentAddr.drop address.value.length).set 0 0
  let fields := {pdu with
    enterprise:=enterprise.value,agentAddr:=address.value++rest,
    trapType:=generic.value,specificType:=specific.value,time:=time.value}
  return (fields,time.next,time.left)

def parseFields (pdu : Pdu) (header : Header) : Probe Unit (Pdu × Nat × Nat) :=
  let command := header.type.toNat
  let cleared := {pdu with command:=command,flags:=pdu.flags-(pdu.flags &&& ucdMsgFlagResponsePdu)}
  if command = snmpMsgTrap then parseTrapFields cleared header.next header.length
  else if command = snmpMsgResponse ∨ command = snmpMsgReport then
    parseRequestFields {cleared with flags:=cleared.flags ||| ucdMsgFlagResponsePdu} header.next header.length
  else if isMsgCommand command then parseRequestFields cleared header.next header.length
  else .fail ()

def parseBindings (fields : Pdu) (data length : Nat) : Probe Unit Pdu := do
  let sequence ← asnParseSequence data length asnSequenceConstructor
  let (bindings,badtype) ← parseVarBinds sequence.length sequence.next sequence.length
  if badtype then .fail ()
  else return {fields with variableList:=if bindings = [] then fields.variableList else bindings}

def snmpPduParse (pdu : Pdu) (data length : Nat) : Probe Unit Pdu := do
  let header ← asnParseHeader data length
  let (fields,next,left) ← parseFields pdu header
  parseBindings fields next left

end NetSnmp.PduParse
