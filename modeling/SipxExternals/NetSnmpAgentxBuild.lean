import SipxExternals.NetSnmpAsnTypes

namespace NetSnmp.AgentxBuild
open Foundations AsnTypes

inductive Command where
  | msgOpen | msgClose | msgRegister | msgUnregister | msgGet | msgGetnext | msgGetbulk | msgTestset
  | msgCommitset | msgUndoset | msgCleanupset | msgNotify | msgPing | msgIndexAllocate
  | msgIndexDeallocate | msgAddAgentCaps | msgRemoveAgentCaps | msgResponse | unknown
deriving DecidableEq

def commands : List Command :=
  [.unknown,.msgOpen,.msgClose,.msgRegister,.msgUnregister,.msgGet,.msgGetnext,.msgGetbulk,.msgTestset,
    .msgCommitset,.msgUndoset,.msgCleanupset,.msgNotify,.msgPing,.msgIndexAllocate,.msgIndexDeallocate,
    .msgAddAgentCaps,.msgRemoveAgentCaps,.msgResponse]

def Command.ofOctet (octet : UInt8) : Command := commands.getD octet.toNat .unknown
def Command.octet (command : Command) : UInt8 := UInt8.ofNat (commands.idxOf command)

abbrev Flags := BitVec 64

def nonDefaultContext : Flags := 0x08
def networkByteOrder : Flags := 0x10
def ucdResponsePdu : Flags := 0x100
def ucdForcePduCopy : Flags := 0x400
def ucdAlwaysInView : Flags := 0x800

def asnPrivInclRange : UInt8 := 0xc2
def asnPrivExclRange : UInt8 := 0xc3
def agentxVersionBase : Nat := 192
def snmpMaxMsgSize : Nat := 1472

-- non_repeaters and max_repetitions are other names of errstat and errindex.
structure Pdu where
  version : Nat
  command : Command
  reqid : Int
  transid : Int
  sessid : Int
  errstat : Int
  errindex : Int
  time : Nat
  flags : Flags
  priority : Int
  rangeSubid : Int
  community : Option (List UInt8)
  contextName : Option (List UInt8)
  contextNameLen : Nat
  variableList : List Variable

def Flags.has (flags flag : Flags) : Bool := flags &&& flag != 0

def cUint (x : Int) : Nat := (x%2^32).toNat
def cUlong (x : Int) : Nat := (x%2^64).toNat
def cUchar (x : Int) : UInt8 := UInt8.ofNat (x%256).toNat

def agentxReallocBuildInt (value : Nat) (networkOrder : Bool) : List UInt8 :=
  let octets := [UInt8.ofNat (value / 16777216),UInt8.ofNat (value / 65536),UInt8.ofNat (value / 256),UInt8.ofNat value]
  if networkOrder then octets else octets.reverse

def agentxReallocBuildShort (value : Nat) (networkOrder : Bool) : List UInt8 :=
  let octets := [UInt8.ofNat (value / 256),UInt8.ofNat value]
  if networkOrder then octets else octets.reverse

def compact : List Nat → Nat × List Nat
  | a :: b :: c :: d :: e :: rest =>
    if a = 1 ∧ b = 3 ∧ c = 6 ∧ d = 1 ∧ 0 < e ∧ e < 256 then (e,rest) else (0,a :: b :: c :: d :: e :: rest)
  | name => (0,name)

def agentxReallocBuildOid (inclusive : Nat) (name : List Nat) (networkOrder : Bool) : List UInt8 :=
  let included := if name.length = 0 then 0 else inclusive
  let short := compact name
  [UInt8.ofNat short.2.length,UInt8.ofNat short.1,UInt8.ofNat included,0] ++
    short.2.flatMap fun subid => agentxReallocBuildInt subid networkOrder

def padding (length : Nat) : Nat := if length%4 ≠ 0 then 4-length%4 else 0

def agentxReallocBuildString (string : List UInt8) (networkOrder : Bool) : List UInt8 :=
  agentxReallocBuildInt string.length networkOrder++string++List.replicate (padding string.length) 0

-- The octets of the float and double opaque types; the words of a double change
-- places and each is put into network order.
def agentxReallocBuildDouble (bits : Nat) (networkOrder : Bool) : List UInt8 :=
  agentxReallocBuildString ([asnOpaqueTag1,asnOpaqueDouble,UInt8.ofNat sizeofDouble] ++
    agentxReallocBuildInt (bits / 2^32) true++agentxReallocBuildInt bits true) networkOrder

def agentxReallocBuildFloat (bits : Nat) (networkOrder : Bool) : List UInt8 :=
  agentxReallocBuildString ([asnOpaqueTag1,asnOpaqueFloat,UInt8.ofNat sizeofFloat] ++
    agentxReallocBuildInt bits true) networkOrder

def counter64Octets (high low : Nat) : List UInt8 :=
  agentxReallocBuildInt high false++agentxReallocBuildInt (high / 2^32) false ++
    agentxReallocBuildInt low false++agentxReallocBuildInt (low / 2^32) false

inductive WireKind where
  | int | float | double | opaque64 | string | opaqueString | objid | counter64 | empty | unsupported
deriving DecidableEq

def wireKind (type : Nat) : WireKind :=
  if type = asnInteger.toNat ∨ type = asnCounter.toNat ∨ type = asnGauge.toNat ∨ type = asnTimeticks.toNat ∨
    type = asnUinteger.toNat then .int
  else if type = asnOctetStr.toNat ∨ type = asnIpaddress.toNat then .string
  else if type = asnOpaque.toNat then .opaqueString
  else if type = asnPrivInclRange.toNat ∨ type = asnPrivExclRange.toNat ∨ type = asnObjectId.toNat then .objid
  else if type = asnCounter64.toNat then .counter64
  else if type = asnNull.toNat ∨ type = snmpNosuchobject.toNat ∨ type = snmpNosuchinstance.toNat ∨
    type = snmpEndofmibview.toNat then .empty
  else if type = asnOpaqueFloat.toNat then .float
  else if type = asnOpaqueDouble.toNat then .double
  else if type = asnOpaqueI64.toNat ∨ type = asnOpaqueU64.toNat ∨ type = asnOpaqueCounter64.toNat then .opaque64
  else .unsupported

def wireType (type : UInt8) : UInt8 :=
  match wireKind type.toNat with
  | .float => asnOpaque
  | .double => asnOpaque
  | .opaque64 => asnOpaque
  | .objid => asnObjectId
  | _ => type

-- A value of another shape than its type calls for does not occur.
def buildValue (vp : Variable) (networkOrder : Bool) : Option (List UInt8) :=
  match wireKind vp.type.toNat,vp.val with
  | .int,.integer value => some (agentxReallocBuildInt (cUint value) networkOrder)
  | .int,.unsigned value => some (agentxReallocBuildInt value networkOrder)
  | .float,.float bits => some (agentxReallocBuildFloat bits networkOrder)
  | .double,.double bits => some (agentxReallocBuildDouble bits networkOrder)
  | .opaque64,.counter64 high low => some (agentxReallocBuildString (counter64Octets high low) networkOrder)
  | .string,.string octets | .opaqueString,.string octets => some (agentxReallocBuildString octets networkOrder)
  | .objid,.objid subids => some (agentxReallocBuildOid 1 subids networkOrder)
  | .counter64,.counter64 high low =>
    if networkOrder then some (agentxReallocBuildInt high networkOrder++agentxReallocBuildInt low networkOrder)
    else some (agentxReallocBuildInt low networkOrder++agentxReallocBuildInt high networkOrder)
  | .empty,_ => some []
  | _,_ => none

def agentxReallocBuildVarbind (vp : Variable) (networkOrder : Bool) : Option (List UInt8) := do
  let value ← buildValue vp networkOrder
  return agentxReallocBuildShort (wireType vp.type).toNat networkOrder++[0,0] ++
    agentxReallocBuildOid 0 vp.name networkOrder++value

def buildSearchRange (networkOrder : Bool) (vp : Variable) : Option (List UInt8) :=
  match vp.val with
  | .objid subids => some (agentxReallocBuildOid (if vp.type = asnPrivInclRange then 1 else 0) vp.name networkOrder ++
      agentxReallocBuildOid 0 subids networkOrder)
  | _ => none

def buildList (item : Variable → Option (List UInt8)) : List Variable → Option (List UInt8)
  | [] => some []
  | vp :: rest => do
    let first ← item vp
    let others ← buildList item rest
    return first++others

def buildSearchRanges (networkOrder : Bool) : List Variable → Option (List UInt8) :=
  buildList (buildSearchRange networkOrder)

def buildVarbinds (networkOrder : Bool) : List Variable → Option (List UInt8) :=
  buildList fun vp => agentxReallocBuildVarbind vp networkOrder

def buildDescribed (networkOrder : Bool) : List Variable → Option (List UInt8)
  | vp :: _ =>
    match vp.val with
    | .string octets => some (agentxReallocBuildOid 0 vp.name networkOrder++agentxReallocBuildString octets networkOrder)
    | _ => none
  | [] => none

def buildRegion (pdu : Pdu) (networkOrder : Bool) : Option (List UInt8) :=
  match pdu.variableList with
  | vp :: _ =>
    if pdu.rangeSubid = 0 then some (agentxReallocBuildOid 0 vp.name networkOrder)
    else
      match vp.val with
      | .objid subids => some (agentxReallocBuildOid 0 vp.name networkOrder ++
          agentxReallocBuildInt (subids.getD (pdu.rangeSubid-1).toNat 0) networkOrder)
      | _ => none
  | [] => none

def agentxReallocBuildHeader (pdu : Pdu) : List UInt8 :=
  let networkOrder := pdu.flags.has networkByteOrder
  [1,pdu.command.octet,UInt8.ofNat (pdu.flags.toNat%256),0] ++
    agentxReallocBuildInt (cUint pdu.sessid) networkOrder++agentxReallocBuildInt (cUint pdu.transid) networkOrder ++
    agentxReallocBuildInt (cUint pdu.reqid) networkOrder++agentxReallocBuildInt 0 networkOrder ++
    if pdu.flags.has nonDefaultContext then agentxReallocBuildString (pdu.community.getD []) networkOrder else []

def Command.contextless : Command → Bool
  | .msgOpen => true
  | .msgClose => true
  | .msgResponse => true
  | .msgCommitset => true
  | .msgUndoset => true
  | .msgCleanupset => true
  | _ => false

def contextFlags (pdu : Pdu) : Flags :=
  if pdu.command.contextless then pdu.flags &&& ~~~nonDefaultContext else pdu.flags

-- strdup copies the context name up to its first zero octet; none: its length goes behind the end of the copy.
def prepare (pdu : Pdu) : Option Pdu :=
  match pdu.contextName,pdu.community with
  | some name,none =>
    let copy := name.takeWhile (· ≠ 0)++[0]
    if pdu.contextNameLen ≤ copy.length then
      some { pdu with community := some (copy.take pdu.contextNameLen), flags := contextFlags pdu ||| nonDefaultContext }
    else none
  | _,_ => some { pdu with flags := contextFlags pdu }

def buildBody (pdu : Pdu) (networkOrder : Bool) : Option (List UInt8) :=
  match pdu.command with
  | .msgOpen => do
    let described ← buildDescribed networkOrder pdu.variableList
    return [cUchar pdu.time,0,0,0]++described
  | .msgClose => some [cUchar pdu.errstat,0,0,0]
  | .msgRegister => do
    let region ← buildRegion pdu networkOrder
    return [cUchar pdu.time,cUchar pdu.priority,cUchar pdu.rangeSubid,0]++region
  | .msgUnregister => do
    let region ← buildRegion pdu networkOrder
    return [0,cUchar pdu.priority,cUchar pdu.rangeSubid,0]++region
  | .msgGetbulk => do
    let ranges ← buildSearchRanges networkOrder pdu.variableList
    return agentxReallocBuildShort (cUint pdu.errstat) networkOrder ++
      agentxReallocBuildShort (cUint pdu.errindex) networkOrder++ranges
  | .msgGet | .msgGetnext => buildSearchRanges networkOrder pdu.variableList
  | .msgResponse => do
    let varbinds ← buildVarbinds networkOrder pdu.variableList
    return agentxReallocBuildInt pdu.time networkOrder++agentxReallocBuildShort (cUint pdu.errstat) networkOrder ++
      agentxReallocBuildShort (cUint pdu.errindex) networkOrder++varbinds
  | .msgIndexAllocate | .msgIndexDeallocate | .msgNotify | .msgTestset => buildVarbinds networkOrder pdu.variableList
  | .msgCommitset => some []
  | .msgUndoset => some []
  | .msgPing => some []
  | .msgCleanupset => some []
  | .msgAddAgentCaps => buildDescribed networkOrder pdu.variableList
  | .msgRemoveAgentCaps =>
    match pdu.variableList with
    | vp :: _ => some (agentxReallocBuildOid 0 vp.name networkOrder)
    | [] => none
  | .unknown => none

-- agentx_build_int(*buf + 16, ...): the payload length, known only at the end.
def fixLength (packet : List UInt8) (networkOrder : Bool) : List UInt8 :=
  packet.take 16++agentxReallocBuildInt (packet.length-20) networkOrder++packet.drop 20

def agentxReallocBuild (pdu : Pdu) : Option (List UInt8) := do
  let networkOrder := pdu.flags.has networkByteOrder
  let sent ← prepare pdu
  let body ← buildBody sent networkOrder
  return fixLength (agentxReallocBuildHeader sent++body) networkOrder

end NetSnmp.AgentxBuild
