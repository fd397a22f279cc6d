import SipxExternals.NetSnmpAgentxBodies

namespace NetSnmp.AgentxRoundtrip
open Foundations AsnTypes AgentxBuild AgentxParse AgentxWire
open Interaction (run_bind_ok)
open Probe (Holds holds_append holds_cons)
open List hiding all length range set

def lowFlags (flags : Flags) : Nat := flags.toNat%256

def headerFlags (low : Nat) : Flags := 0 ||| BitVec.ofNat 64 low
def parsedFlags (low : Nat) : Flags := (headerFlags low ||| ucdAlwaysInView ||| ucdForcePduCopy) &&& ~~~ucdResponsePdu

theorem lowFlags_bit : (lowFlags flags).testBit i = (decide (i < 8) && flags.getLsbD i) := by
  rw [lowFlags,show 256 = 2^8 by norm_num,Nat.testBit_mod_two_pow,BitVec.testBit_toNat]

theorem headerFlags_bit (low : i < 8) : (headerFlags (lowFlags flags)).getLsbD i = flags.getLsbD i := by
  have octet : headerFlags (lowFlags flags) = BitVec.ofNat 64 (lowFlags flags) := BitVec.zero_or
  rw [octet,BitVec.getLsbD_ofNat,lowFlags_bit]
  simp [low,show i < 64 by omega]

theorem parsedFlags_bit (low : i < 8) : (parsedFlags (lowFlags flags)).getLsbD i = flags.getLsbD i := by
  rw [parsedFlags,control_bit low,headerFlags_bit low]

theorem lowFlags_same (bits : ∀ i, i < 8 → first.getLsbD i = second.getLsbD i) : lowFlags first = lowFlags second := by
  refine Nat.eq_of_testBit_eq fun i => ?_
  rw [lowFlags_bit,lowFlags_bit]
  by_cases low : i < 8
  · rw [bits i low]
  · simp [low]

theorem parsedFlags_low : lowFlags (parsedFlags (lowFlags flags)) = lowFlags flags ∧
    lowFlags (parsedFlags (lowFlags flags) ||| ucdResponsePdu) = lowFlags flags := by
  constructor
  · exact lowFlags_same fun i low => parsedFlags_bit low
  · refine lowFlags_same fun i low => ?_
    rw [BitVec.getLsbD_or,parsedFlags_bit low,(ucd_high low).2.2,Bool.or_false]

def headerOctets (pdu : Pdu) (order : Bool) (payload : Nat) : List UInt8 :=
  [1,pdu.command.octet,UInt8.ofNat (lowFlags pdu.flags),0]++agentxReallocBuildInt (cUint pdu.sessid) order ++
    agentxReallocBuildInt (cUint pdu.transid) order++agentxReallocBuildInt (cUint pdu.reqid) order ++
    agentxReallocBuildInt payload order

@[simp] theorem headerOctets_length : (headerOctets pdu order payload).length = 20 := by
  simp [headerOctets]

theorem fixLength_header :
    fixLength (headerOctets pdu order 0++rest) order = headerOctets pdu order rest.length++rest := by
  rw [fixLength,drop_left' headerOctets_length,length_append,headerOctets_length,Nat.add_sub_cancel_left]
  congr 1
  rw [headerOctets,headerOctets,append_assoc,take_left' (by simp)]

theorem octet_command : Command.ofOctet command.octet = command := by
  cases command <;> decide

def headerWords (pdu : Pdu) (order : Bool) (payload : Nat) : List UInt8 :=
  agentxReallocBuildInt (cUint pdu.sessid) order++(agentxReallocBuildInt (cUint pdu.transid) order ++
    (agentxReallocBuildInt (cUint pdu.reqid) order++agentxReallocBuildInt payload order))

theorem headerWords_read (held : Holds memory data (headerWords pdu order payload)) (flag : base.flags.has networkByteOrder = order)
    (small : 20+payload < 2^64) : (parseHeaderWords base data (20+payload)).run (packet memory) =
      if payload = cUlong (cInt payload) then .ok ⟨data+16,payload,{ base with sessid := cInt (cUint pdu.sessid), transid := cInt (cUint pdu.transid), reqid := cInt (cUint pdu.reqid) }⟩
      else .error .incompletePacket := by
  obtain ⟨sessid,rest⟩ := holds_append.mp held
  obtain ⟨transid,rest⟩ := holds_append.mp rest
  obtain ⟨reqid,last⟩ := holds_append.mp rest
  rw [buildInt_length] at transid reqid last
  rw [buildInt_length] at reqid last
  rw [buildInt_length] at last
  rw [parseHeaderWords,flag,run_bind_ok _ (int_read sessid),run_bind_ok _ (int_read transid),run_bind_ok _ (int_read reqid),
    run_bind_ok _ (int_read last),run_reduce,reduced (Nat.le_add_right _ _) small,Nat.add_sub_cancel_left]
  by_cases whole : payload = cUlong (cInt payload)
  · rw [if_pos whole,if_neg (fun other => other whole)]
    rfl
  · rw [if_neg whole,if_pos whole]
    rfl

def headedPdu (pdu : Pdu) : Pdu :=
  { emptyPdu with version := agentxVersionBase ||| 1, command := pdu.command, flags := headerFlags (lowFlags pdu.flags), sessid := cInt (cUint pdu.sessid), transid := cInt (cUint pdu.transid), reqid := cInt (cUint pdu.reqid) }

theorem header_read (held : Holds memory 0 (headerOctets pdu order payload)) (flag : pdu.flags.has networkByteOrder = order)
    (small : 20+payload < 2^64) : (agentxParseHeader emptyPdu 0 (20+payload)).run (packet memory) =
      if payload = cUlong (cInt payload) then .ok ⟨20,payload,headedPdu pdu⟩ else .error .incompletePacket := by
  have parts : headerOctets pdu order payload =
      1 :: pdu.command.octet :: UInt8.ofNat (lowFlags pdu.flags) :: 0 :: headerWords pdu order payload := by
    simp [headerOctets,headerWords]
  rw [parts] at held
  obtain ⟨version,rest⟩ := holds_cons.mp held
  obtain ⟨command,rest⟩ := holds_cons.mp rest
  obtain ⟨flags,rest⟩ := holds_cons.mp rest
  obtain ⟨_,words⟩ := holds_cons.mp rest
  have octet : (UInt8.ofNat (lowFlags pdu.flags)).toNat = lowFlags pdu.flags :=
    octet_small (Nat.mod_lt _ (by decide))
  have ordered : (headerFlags (lowFlags pdu.flags)).has networkByteOrder = order := by
    rw [← flag,has_order,has_order,headerFlags_bit (by decide)]
  rw [agentxParseHeader,if_neg (by omega),run_fetch,run_fetch,run_fetch,version,command,flags,octet,octet_command]
  exact headerWords_read words ordered small

-- The context names of a PDU, and one of them where the flag calls for it.
structure ContextProper (pdu : Pdu) : Prop where
  community : ∀ name ∈ pdu.community, StringProper name
  contextName : ∀ name ∈ pdu.contextName, StringProper name ∧ pdu.contextNameLen = name.length
  present : pdu.flags.has nonDefaultContext = true → pdu.command.contextless = false → (pdu.community.or pdu.contextName).isSome

-- The builder leaves the flag and the context as they are.
structure ContextKept (pdu : Pdu) : Prop where
  set : pdu.community = none → pdu.contextName.isSome → pdu.flags.has nonDefaultContext = true
  kept : pdu.command.contextless = true → pdu.flags.has nonDefaultContext = true → pdu.community = none ∧ pdu.contextName.isSome
  whole : pdu.community = none → ∀ name ∈ pdu.contextName, 0 ∉ name.dropLast

def context (pdu : Pdu) : Option (List UInt8) :=
  if pdu.flags.has nonDefaultContext then pdu.community.or pdu.contextName else none

def Settled (sent : Pdu) : Prop :=
  sent.flags.has nonDefaultContext = true → ∃ name, sent.community = some name ∧ StringProper name

theorem context_name (has : sent.flags.has nonDefaultContext = true) (given : sent.community = some name) :
    context sent = some name := by
  rw [context,if_pos has,given]
  rfl

def contextSize (pdu : Pdu) : Nat := ((context pdu).map stringSize).getD 0

def contextOctets (pdu : Pdu) (order : Bool) : List UInt8 :=
  ((context pdu).map fun name => agentxReallocBuildString name order).getD []

theorem context_bit : nonDefaultContext.getLsbD i = decide (i = 3) := by
  have power : nonDefaultContext = BitVec.twoPow 64 3 := rfl
  rw [power,BitVec.getLsbD_twoPow]
  simp [eq_comm]

theorem context_cleared : (flags &&& ~~~nonDefaultContext).has nonDefaultContext = false := by
  rw [has_context,BitVec.getLsbD_and,BitVec.getLsbD_not,context_bit]
  simp

theorem context_set : (flags ||| nonDefaultContext).has nonDefaultContext = true := by
  rw [has_context,BitVec.getLsbD_or,context_bit]
  simp

-- The copy reaches as far as the name unless a zero octet is in front of its last one.
theorem copy_whole (name : List UInt8) : name.length ≤ (name.takeWhile (· ≠ 0)++[0]).length ↔ 0 ∉ name.dropLast := by
  induction name with
  | nil => simp
  | cons octet name ih =>
    cases name with
    | nil => simp
    | cons next name =>
      by_cases zero : octet = 0
      · simp [zero]
      · simpa [takeWhile_cons,zero,Ne.symm zero] using ih

theorem copy_take {name : List UInt8} (whole : 0 ∉ name.dropLast) :
    (name.takeWhile (· ≠ 0)++[0]).take name.length = name := by
  induction name with
  | nil => rfl
  | cons octet name ih =>
    cases name with
    | nil =>
      by_cases zero : octet = 0
      · simp [zero]
      · simp [zero]
    | cons next name =>
      have zero : octet ≠ 0 := fun same => whole (by simp [same])
      simpa [takeWhile_cons,zero] using ih fun later => whole (by simp [later])

-- What a PDU is when its header is built.
structure Prepared (pdu sent : Pdu) : Prop where
  same : sent = { pdu with flags := sent.flags, community := sent.community }
  bits : ∀ i, i ≠ 3 → sent.flags.getLsbD i = pdu.flags.getLsbD i
  flag : sent.flags.has nonDefaultContext =
    ((pdu.community.isNone && pdu.contextName.isSome) || (!pdu.command.contextless && pdu.flags.has nonDefaultContext))
  community : sent.community = if sent.flags.has nonDefaultContext then pdu.community.or pdu.contextName else pdu.community

theorem contextFlags_bit (other : i ≠ 3) : (contextFlags pdu).getLsbD i = pdu.flags.getLsbD i := by
  rw [contextFlags]
  split
  · rw [BitVec.getLsbD_and,BitVec.getLsbD_not,context_bit]
    by_cases inside : i < 64
    · simp [other,inside]
    · simp [BitVec.getLsbD_of_ge _ _ (not_lt.mp inside)]
  · rfl

theorem contextFlags_context : (contextFlags pdu).has nonDefaultContext = (!pdu.command.contextless && pdu.flags.has nonDefaultContext) := by
  rw [contextFlags]
  cases pdu.command.contextless with
  | false => simp
  | true => simp [context_cleared]

theorem prepare_copied (proper : ContextProper pdu) (none : pdu.community = none) (given : pdu.contextName = some name) :
    prepare pdu = if 0 ∉ name.dropLast then
      some { pdu with community := some name, flags := contextFlags pdu ||| nonDefaultContext } else .none := by
  obtain ⟨_,length⟩ := proper.contextName name given
  have shape : prepare pdu = if name.length ≤ (name.takeWhile (· ≠ 0)++[0]).length then
      some { pdu with community := some ((name.takeWhile (· ≠ 0)++[0]).take name.length), flags := contextFlags pdu ||| nonDefaultContext }
      else .none := by
    simp [prepare,none,given,length]
  rw [shape]
  simp only [copy_whole]
  split
  · rw [copy_take ‹_›]
  · rfl

theorem prepare_other (other : ¬(pdu.community = none ∧ pdu.contextName.isSome)) :
    prepare pdu = some { pdu with flags := contextFlags pdu } := by
  rw [prepare]
  cases given : pdu.community <;> cases name : pdu.contextName <;> simp_all

theorem prepare_prepared (proper : ContextProper pdu) (ran : prepare pdu = some sent) : Prepared pdu sent := by
  by_cases copies : pdu.community = none ∧ pdu.contextName.isSome
  · obtain ⟨name,given⟩ := Option.isSome_iff_exists.mp copies.2
    rw [prepare_copied proper copies.1 given] at ran
    split at ran
    · cases ran
      refine ⟨rfl,fun i other => ?_,?_,?_⟩
      · simp [BitVec.getLsbD_or,context_bit,other,contextFlags_bit other]
      · simp [context_set,copies]
      · simp [context_set,copies.1,given]
    · cases ran
  · rw [prepare_other copies] at ran
    cases ran
    refine ⟨rfl,fun i => contextFlags_bit,?_,?_⟩
    · rw [contextFlags_context]
      cases given : pdu.community <;> cases name : pdu.contextName <;> simp_all
    · cases given : pdu.community <;> cases name : pdu.contextName <;> simp_all

theorem prepare_settled (proper : ContextProper pdu) (ran : prepare pdu = some sent) : Settled sent := by
  intro has
  have prepared := prepare_prepared proper ran
  have named : (pdu.community.or pdu.contextName).isSome := by
    have cases_of := prepared.flag.symm.trans has
    simp only [Bool.or_eq_true,Bool.and_eq_true,Bool.not_eq_true'] at cases_of
    rcases cases_of with ⟨_,given⟩ | ⟨takes,flag⟩
    · simp [given]
    · exact proper.present flag takes
  obtain ⟨name,given⟩ := Option.isSome_iff_exists.mp named
  refine ⟨name,by rw [prepared.community,if_pos has,given],?_⟩
  rcases Option.or_eq_some_iff.mp given with first | ⟨_,second⟩
  · exact proper.community name first
  · exact (proper.contextName name second).1

theorem prepare_context (prepared : Prepared pdu sent)
    (same : sent.flags.has nonDefaultContext = pdu.flags.has nonDefaultContext) : context sent = context pdu := by
  have names : sent.contextName = pdu.contextName := by rw [prepared.same]
  rw [context,context,← same,names,prepared.community]
  split
  · cases pdu.community <;> simp
  · rfl

theorem prepare_flags (prepared : Prepared pdu sent)
    (same : sent.flags.has nonDefaultContext = pdu.flags.has nonDefaultContext) : sent.flags = pdu.flags := by
  refine BitVec.eq_of_getLsbD_eq fun i _ => ?_
  by_cases third : i = 3
  · rw [has_context,has_context] at same
    rw [third,same]
  · exact prepared.bits i third

theorem prepare_kept (proper : ContextProper pdu) : ContextKept pdu ↔
    ∃ sent, prepare pdu = some sent ∧ sent.flags.has nonDefaultContext = pdu.flags.has nonDefaultContext := by
  constructor
  · intro kept
    obtain ⟨sent,ran⟩ : ∃ sent, prepare pdu = some sent := by
      by_cases copies : pdu.community = none ∧ pdu.contextName.isSome
      · obtain ⟨name,given⟩ := Option.isSome_iff_exists.mp copies.2
        rw [prepare_copied proper copies.1 given,if_pos (kept.whole copies.1 name given)]
        exact ⟨_,rfl⟩
      · exact ⟨_,prepare_other copies⟩
    refine ⟨sent,ran,?_⟩
    have first := kept.set
    have second := kept.kept
    rw [(prepare_prepared proper ran).flag]
    cases given : pdu.community <;> cases name : pdu.contextName <;> cases takes : pdu.command.contextless <;> simp_all
  · rintro ⟨sent,ran,same⟩
    have flag := (prepare_prepared proper ran).flag.symm.trans same
    refine ⟨fun none named => ?_,fun less has => ?_,fun none name given => ?_⟩
    · simpa [none,named] using flag.symm
    · simpa [less,has] using flag
    · rw [prepare_copied proper none given] at ran
      split at ran
      · assumption
      · cases ran

theorem header_built (settled : Settled sent) (flag : sent.flags.has networkByteOrder = order) :
    agentxReallocBuildHeader sent = headerOctets sent order 0++contextOctets sent order := by
  rw [agentxReallocBuildHeader,flag,contextOctets]
  cases has : sent.flags.has nonDefaultContext with
  | false =>
    simp only [has,Bool.false_eq_true,if_false,context,append_nil,Option.map_none,Option.getD_none]
    rfl
  | true =>
    obtain ⟨name,given,_⟩ := settled has
    rw [context_name has given,given]
    rfl

def openedPdu (pdu : Pdu) : Pdu := { headedPdu pdu with flags := parsedFlags (lowFlags pdu.flags) }

theorem contextOctets_length : (contextOctets pdu order).length = contextSize pdu := by
  rw [contextOctets,contextSize]
  cases context pdu with
  | none => rfl
  | some name => exact buildString_length

-- The identifiers pass through unsigned ints and come back as ints.
def readHeading (pdu : Pdu) : Command × Int × Int × Int :=
  (pdu.command,cInt (cUint pdu.sessid),cInt (cUint pdu.transid),cInt (cUint pdu.reqid))

structure Begun (pdu base : Pdu) : Prop where
  heads : heading base = readHeading pdu
  flags : base.flags = parsedFlags (lowFlags pdu.flags)
  community : base.community = context pdu
  empty : base.variableList = []

theorem begun (base : Pdu) (known : openedPdu pdu = opened) (heads : heading base = heading opened)
    (flags : base.flags = opened.flags) (community : base.community = context pdu) (empty : base.variableList = []) :
    Begun pdu base where
  heads := by rw [heads,← known]; simp [heading,openedPdu,headedPdu,readHeading]
  flags := by simp [flags,← known,openedPdu]
  community := community
  empty := empty

theorem context_read (settled : Settled pdu) (flag : pdu.flags.has networkByteOrder = order)
    (held : Holds memory data (contextOctets pdu order)) (fits : contextSize pdu ≤ length) (small : length < 2^64) :
    ∃ base, (parseContext (openedPdu pdu) data length).run (packet memory) =
      .ok ⟨data+contextSize pdu,length-contextSize pdu,base⟩ ∧ Begun pdu base := by
  have same : (openedPdu pdu).flags.has nonDefaultContext = pdu.flags.has nonDefaultContext := by
    rw [has_context,has_context]
    exact parsedFlags_bit (by decide)
  have ordered : (openedPdu pdu).flags.has networkByteOrder = order := by
    rw [← flag,has_order,has_order]
    exact parsedFlags_bit (by decide)
  have fresh : (openedPdu pdu).contextName = none ∧ (openedPdu pdu).community = none ∧ (openedPdu pdu).variableList = [] :=
    ⟨rfl,rfl,rfl⟩
  obtain ⟨opened,known⟩ : ∃ opened, openedPdu pdu = opened := ⟨_,rfl⟩
  rw [known] at same ordered fresh ⊢
  obtain ⟨unnamed,blank,empty⟩ := fresh
  cases has : pdu.flags.has nonDefaultContext with
  | false =>
    have none : context pdu = none := by rw [context,has]; rfl
    have zero : contextSize pdu = 0 := by rw [contextSize,none]; rfl
    refine ⟨opened,?_,begun opened known rfl rfl (blank.trans none.symm) empty⟩
    rw [parseContext,same,has,zero]
    rfl
  | true =>
    obtain ⟨name,given,text⟩ := settled has
    have found := context_name has given
    have size : contextSize pdu = (agentxReallocBuildString name order).length := by rw [contextSize,found,buildString_length]; rfl
    rw [size] at fits ⊢
    rw [contextOctets,found] at held
    have read := agentxParseString_reads text (show name.length ≤ snmpMaxMsgSize from le_of_lt text.2) order memory data length held fits small
    refine ⟨{ opened with community := some name, contextName := some (name.takeWhile (· ≠ 0)), contextNameLen := name.length },
      ?_,begun _ known rfl rfl found.symm empty⟩
    rw [parseContext,same,has,ordered]
    simp only [if_true]
    rw [run_bind_ok _ read,if_pos ⟨text.1,unnamed⟩]
    rfl

def WordProper (x : Int) : Prop := -2^31 ≤ x ∧ x < 2^32

def payloadSize (pdu : Pdu) : Nat := contextSize pdu+bodySize pdu

-- An AgentX PDU of one of the types with a payload, built to a size that memory can hold.
structure Proper (pdu : Pdu) : Prop where
  sessid : WordProper pdu.sessid
  transid : WordProper pdu.transid
  reqid : WordProper pdu.reqid
  context : ContextProper pdu
  body : BodyProper pdu
  room : ∀ sent, prepare pdu = some sent → 20+payloadSize sent < 2^63

structure Ready (sent : Pdu) : Prop where
  settled : Settled sent
  body : BodyProper sent
  room : 20+payloadSize sent < 2^63

theorem ready (proper : Proper pdu) (ran : prepare pdu = some sent) : Ready sent where
  settled := prepare_settled proper.context ran
  body := by
    rw [(prepare_prepared proper.context ran).same]
    exact proper.body
  room := proper.room sent ran

structure Arrived (pdu result : Pdu) : Prop where
  heads : heading result = readHeading pdu
  flags : lowFlags result.flags = lowFlags pdu.flags
  context : AgentxRoundtrip.context result = AgentxRoundtrip.context pdu
  fields : headerFields result = arrivedFields pdu
  bindings : result.variableList.map Variable.binding = arrivedBindings pdu

theorem context_kept (settled : Settled pdu) (begun : Begun pdu base) (filled : Filled base result fields bindings) : context result = context pdu := by
  have bit : result.flags.has nonDefaultContext = pdu.flags.has nonDefaultContext := by
    rw [has_context,has_context]
    rcases filled.flags with same | more
    · rw [same,begun.flags,parsedFlags_bit (by decide)]
    · rw [more,BitVec.getLsbD_or,begun.flags,parsedFlags_bit (by decide),(ucd_high (by decide)).2.2,Bool.or_false]
  rw [context,bit,filled.community,begun.community]
  cases has : pdu.flags.has nonDefaultContext with
  | false => simp [context,has]
  | true =>
    obtain ⟨name,given,_⟩ := settled has
    rw [context_name has given]
    rfl

theorem packet_built (ready : Ready sent) (ran : prepare pdu = some sent) (flag : sent.flags.has networkByteOrder = order)
    (same : pdu.flags.has networkByteOrder = order) : ∃ body, BodyConveyed sent order body ∧
      agentxReallocBuild pdu = some (headerOctets sent order (payloadSize sent)++(contextOctets sent order++body)) := by
  obtain ⟨body,conveyed⟩ := body_conveyed ready.body
  refine ⟨body,conveyed,?_⟩
  have size : (contextOctets sent order++body).length = payloadSize sent := by
    rw [length_append,contextOctets_length,conveyed.length,payloadSize]
  rw [agentxReallocBuild,same,ran,Option.bind_eq_bind,Option.bind_some,conveyed.sent,header_built ready.settled flag]
  simp only [Option.bind_eq_bind,Option.bind_some,append_assoc,fixLength_header,size]
  rfl

theorem packet_read (ready : Ready pdu) (flag : pdu.flags.has networkByteOrder = order) (conveyed : BodyConveyed pdu order body)
    (agentx : sessionVersion &&& agentxVersionBase = agentxVersionBase)
    (held : Holds memory 0 (headerOctets pdu order (payloadSize pdu)++(contextOctets pdu order++body))) :
    if payloadSize pdu = cUlong (cInt (payloadSize pdu)) then
      ∃ result, (agentxParse sessionVersion emptyPdu (20+payloadSize pdu)).run (packet memory) = .ok result ∧ Arrived pdu result
    else (agentxParse sessionVersion emptyPdu (20+payloadSize pdu)).run (packet memory) = .error .incompletePacket := by
  have room := ready.room
  have sizes : payloadSize pdu = contextSize pdu+bodySize pdu := rfl
  obtain ⟨front,rest⟩ := holds_append.mp held
  obtain ⟨named,there⟩ := holds_append.mp rest
  rw [headerOctets_length] at named there
  rw [contextOctets_length] at there
  have header := header_read front flag (by omega)
  have started : ¬ sessionVersion &&& agentxVersionBase ≠ agentxVersionBase := fun other => other agentx
  split
  · rename_i whole
    rw [if_pos whole] at header
    obtain ⟨base,parsed,begins⟩ := context_read ready.settled flag named (Nat.le_trans (Nat.le_add_right _ _) (Nat.le_of_eq sizes.symm))
      (by omega)
    have ordered : base.flags.has networkByteOrder = order := by
      rw [← flag,has_order,has_order,begins.flags,parsedFlags_bit (by decide)]
    obtain ⟨result,ran,fills⟩ := conveyed.read memory _ base (congrArg Prod.fst begins.heads) ordered there (by rw [conveyed.length]; omega)
    have rest : payloadSize pdu-contextSize pdu = body.length := by rw [conveyed.length]; omega
    refine ⟨result,?_,?_⟩
    · rw [agentxParse,if_neg started,run_bind_ok _ header]
      change (do
        let context ← parseContext (openedPdu pdu) 20 (payloadSize pdu)
        parseBody context.value context.data context.length : Parser Pdu).run (packet memory) = _
      rw [run_bind_ok _ parsed,rest]
      exact ran
    obtain ⟨low,high⟩ := parsedFlags_low
    refine ⟨fills.heads.trans begins.heads,?_,context_kept ready.settled begins fills,fills.fields,?_⟩
    · rcases fills.flags with same | more
      · rw [same,begins.flags,low]
      · rw [more,begins.flags,high]
    · rw [fills.bindings,begins.empty]
      rfl
  · rename_i short
    rw [if_neg short] at header
    rw [agentxParse,if_neg started,Interaction.run_bind_error _ header]

def ValueNarrow : Value → Prop
  | .counter64 high low => high < 2^31 ∧ low < 2^31
  | _ => True

def BoundNarrow (rangeSubid : Int) : Value → Prop
  | .objid subids => subids.getD (rangeSubid-1).toNat 0 < 2^31
  | _ => True

def VariableNarrow (pdu : Pdu) (vp : Variable) : Prop :=
  if pdu.command = .msgRegister ∨ pdu.command = .msgUnregister then BoundNarrow pdu.rangeSubid vp.val else ValueNarrow vp.val

-- What passes through an int is below 2^31, and the context is kept.
structure Narrow (pdu : Pdu) : Prop where
  sessid : pdu.sessid < 2^31
  transid : pdu.transid < 2^31
  reqid : pdu.reqid < 2^31
  time : pdu.command = .msgResponse → pdu.time < 2^31
  values : ∀ vp ∈ pdu.variableList, VariableNarrow pdu vp
  payload : payloadSize pdu < 2^31
  context : ContextKept pdu

theorem cInt_cUint_same (word : WordProper x) : cInt (cUint x) = x ↔ x < 2^31 := by
  rw [cInt_cUint word.1 word.2]
  split <;> omega

theorem cUlong_cInt_same (small : value < 2^32) : cUlong (cInt value) = value ↔ value < 2^31 := by
  rw [cUlong_cInt small]
  split <;> omega

theorem payload_same (room : value < 2^63) : value = cUlong (cInt value) ↔ value < 2^31 := by
  rw [cUlong,cInt_eq]
  split <;> omega

theorem fields_same (proper : BodyProper pdu) : arrivedFields pdu = headerFields pdu ↔
    (pdu.command = .msgResponse → pdu.time < 2^31) := by
  by_cases command : pdu.command = .msgResponse
  · simp only [BodyProper,command] at proper
    simp only [arrivedFields,headerFields,command,cons.injEq,true_implies,and_true]
    rw [← cUlong_cInt_same proper.1]
    omega
  have other : arrivedFields pdu = headerFields pdu := by
    unfold arrivedFields
    split
    · exact absurd ‹_› command
    · rfl
  simp [other,command]

theorem received_same (halves : ∀ high low, val = .counter64 high low → high < 2^32 ∧ low < 2^32) :
    received val = val ↔ ValueNarrow val := by
  cases val with
  | counter64 high low =>
    obtain ⟨first,second⟩ := halves high low rfl
    simp [received,ValueNarrow,Value.counter64.injEq,cUlong_cInt_same first,cUlong_cInt_same second]
  | _ => simp [received,ValueNarrow]

theorem binding_halves (proper : BindingProper vp) (counter : vp.val = .counter64 high low) :
    high < 2^32 ∧ low < 2^32 := by
  have valued := proper.2
  rw [counter] at valued
  generalize vp.type = type at valued
  cases valued with
  | counter64 first second => exact ⟨first,second⟩

theorem range_halves (proper : RangeProper vp) : vp.val ≠ .counter64 high low := by
  obtain ⟨_,_,stop,value,_⟩ := proper
  rw [value]
  exact Value.noConfusion

theorem described_halves (proper : DescribedProper vars) (mem : vp ∈ vars) : vp.val ≠ .counter64 high low := by
  obtain ⟨name,description,valLen,rfl,_⟩ := proper
  rw [mem_singleton.mp mem]
  exact Value.noConfusion

theorem halves_small (proper : BodyProper pdu) (first : pdu.command ≠ .msgRegister) (second : pdu.command ≠ .msgUnregister)
    (mem : vp ∈ pdu.variableList) (counter : vp.val = .counter64 high low) : high < 2^32 ∧ low < 2^32 := by
  rw [BodyProper] at proper
  cases command : pdu.command with rw [command] at proper
  | msgRegister => exact absurd command first
  | msgUnregister => exact absurd command second
  | msgOpen => exact absurd counter (described_halves proper.2 mem)
  | msgClose =>
    rw [proper.2] at mem
    cases mem
  | msgGet | msgGetnext => exact absurd counter (range_halves (proper vp mem))
  | msgGetbulk => exact absurd counter (range_halves (proper.2.2 vp mem))
  | msgTestset | msgNotify | msgIndexAllocate | msgIndexDeallocate => exact binding_halves (proper vp mem) counter
  | msgResponse => exact binding_halves (proper.2.2.2 vp mem) counter
  | msgAddAgentCaps => exact absurd counter (described_halves proper mem)
  | msgRemoveAgentCaps =>
    obtain ⟨name,valLen,single,_⟩ := proper
    rw [single,mem_singleton] at mem
    rw [mem] at counter
    cases counter
  | _ => cases proper

theorem region_same (proper : RegionProper rangeSubid vars) (mem : vp ∈ vars) :
    regionArrived rangeSubid vp = vp.binding ↔ BoundNarrow rangeSubid vp.val := by
  cases proper with
  | single zero named =>
    rw [mem_singleton.mp mem]
    simp [regionArrived,Variable.binding,BoundNarrow]
  | @range name bound valLen low high named small =>
    have inside : (rangeSubid-1).toNat < name.length := by omega
    have value : ∀ subid, (name.set (rangeSubid-1).toNat subid).getD (rangeSubid-1).toNat 0 = subid := fun subid => by
      rw [getD_eq_getElem?_getD,getElem?_set_self inside]
      rfl
    rw [mem_singleton.mp mem]
    simp only [regionArrived,Variable.binding,BoundNarrow,value,set_set,Prod.mk.injEq,true_and,Value.objid.injEq]
    rw [← cUlong_cInt_same small]
    constructor
    · intro same
      have entry := congrArg (fun subids => subids.getD (rangeSubid-1).toNat 0) same
      rwa [value,value] at entry
    · intro same
      rw [same]

theorem bindings_same (proper : BodyProper pdu) : arrivedBindings pdu = pdu.variableList.map Variable.binding ↔
    ∀ vp ∈ pdu.variableList, VariableNarrow pdu vp := by
  by_cases region : pdu.command = .msgRegister ∨ pdu.command = .msgUnregister
  · have regional : RegionProper pdu.rangeSubid pdu.variableList := by
      rcases region with command | command
      · simp only [BodyProper,command] at proper
        exact proper.2.2
      · simp only [BodyProper,command] at proper
        exact proper.2
    have all : arrivedBindings pdu = pdu.variableList.map (regionArrived pdu.rangeSubid) := by
      rcases region with command | command <;> simp only [arrivedBindings,command]
    rw [all,map_inj_left]
    refine forall₂_congr fun vp mem => ?_
    rw [region_same regional mem,VariableNarrow,if_pos region]
  · obtain ⟨first,second⟩ := not_or.mp region
    have all : arrivedBindings pdu = pdu.variableList.map arrived := by
      unfold arrivedBindings
      split
      · exact absurd ‹_› first
      · exact absurd ‹_› second
      · rfl
    rw [all,map_inj_left]
    refine forall₂_congr fun vp mem => ?_
    rw [VariableNarrow,if_neg region,← received_same fun high low counter => halves_small proper first second mem counter]
    simp [arrived,Variable.binding]

-- What a PDU says: its type, flags, identifiers, context, fields and bindings.
structure Same (pdu result : Pdu) : Prop where
  heads : heading result = heading pdu
  flags : lowFlags result.flags = lowFlags pdu.flags
  context : AgentxRoundtrip.context result = AgentxRoundtrip.context pdu
  fields : headerFields result = headerFields pdu
  bindings : result.variableList.map Variable.binding = pdu.variableList.map Variable.binding

def RoundTrips (sessionVersion : Nat) (pdu : Pdu) : Prop :=
  ∃ octets, agentxReallocBuild pdu = some octets ∧ ∀ memory, Holds memory 0 octets →
    ∃ result, (agentxParse sessionVersion emptyPdu octets.length).run (packet memory) = .ok result ∧ Same pdu result

theorem same_narrow (proper : Proper pdu) (ran : prepare pdu = some sent) (arrives : Arrived sent result)
    (payload : payloadSize sent < 2^31) : Same pdu result ↔ Narrow pdu := by
  have prepared := prepare_prepared proper.context ran
  obtain ⟨flags,community,rfl⟩ : ∃ flags community, sent = { pdu with flags := flags, community := community } :=
    ⟨_,_,prepared.same⟩
  have heads : readHeading pdu = heading pdu ↔ pdu.sessid < 2^31 ∧ pdu.transid < 2^31 ∧ pdu.reqid < 2^31 := by
    simp [readHeading,heading,cInt_cUint_same proper.sessid,cInt_cUint_same proper.transid,cInt_cUint_same proper.reqid]
  constructor
  · intro same
    have bit := congrArg (Nat.testBit · 3) (arrives.flags.symm.trans same.flags)
    simp only [lowFlags_bit,show 3 < 8 by decide,decide_true,Bool.true_and,← has_context] at bit
    have size : payloadSize { pdu with flags := flags, community := community } = payloadSize pdu := by
      simp only [payloadSize,contextSize,prepare_context prepared bit]
      rfl
    obtain ⟨sessid,transid,reqid⟩ := heads.mp (arrives.heads.symm.trans same.heads)
    exact ⟨sessid,transid,reqid,(fields_same proper.body).mp (arrives.fields.symm.trans same.fields),
      (bindings_same proper.body).mp (arrives.bindings.symm.trans same.bindings),size ▸ payload,
      (prepare_kept proper.context).mpr ⟨_,ran,bit⟩⟩
  intro narrow
  obtain ⟨other,again,bit⟩ := (prepare_kept proper.context).mp narrow.context
  rw [ran] at again
  cases again
  exact ⟨arrives.heads.trans (heads.mpr ⟨narrow.sessid,narrow.transid,narrow.reqid⟩),
    by rw [arrives.flags,prepare_flags prepared bit],arrives.context.trans (prepare_context prepared bit),
    arrives.fields.trans ((fields_same proper.body).mpr narrow.time),
    arrives.bindings.trans ((bindings_same proper.body).mpr narrow.values)⟩

def counted (low : Nat) : Pdu :=
  ⟨agentxVersionBase ||| 1,.msgResponse,3,2,1,0,0,100,networkByteOrder,0,0,none,none,0,[⟨[1,3,6,1,2,1,1],asnCounter64,.counter64 0 low,sizeofCounter64⟩]⟩

theorem counted_context : (counted low).flags.has nonDefaultContext = false := by
  change networkByteOrder.has nonDefaultContext = false
  decide

theorem counted_size : payloadSize (counted low) = 32 := by
  rw [payloadSize,contextSize,context,counted_context]
  rfl

theorem counted_proper (small : low < 2^32) : Proper (counted low) where
  sessid := (⟨by decide,by decide⟩ : WordProper 1)
  transid := (⟨by decide,by decide⟩ : WordProper 2)
  reqid := (⟨by decide,by decide⟩ : WordProper 3)
  context := ⟨fun _ wrong => (by cases wrong),fun _ wrong => (by cases wrong),
    fun has => absurd (has.symm.trans counted_context) Bool.noConfusion⟩
  body := by
    have named : OidProper [1,3,6,1,2,1,1] := ⟨by decide,by decide,by decide⟩
    have zero : ShortProper 0 := ⟨by decide,by decide⟩
    refine ⟨(by decide : 100 < 2^32),zero,zero,fun vp mem => ?_⟩
    rw [mem_singleton.mp mem]
    exact ⟨named,ValueProper.counter64 (by decide) small⟩
  room := by
    intro sent ran
    have same : contextFlags (counted low) = networkByteOrder :=
      (by decide : networkByteOrder &&& ~~~nonDefaultContext = networkByteOrder)
    rw [prepare_other fun copies => Bool.noConfusion copies.2,same] at ran
    cases ran
    show 20+payloadSize (counted low) < 2^63
    rw [counted_size]
    decide

def returned (pdu : Pdu) : Option Pdu :=
  (agentxReallocBuild pdu).bind fun octets => ((agentxParse 193 emptyPdu octets.length).run (packet (Probe.image octets))).toOption

theorem returned_same (trips : RoundTrips 193 pdu) : ∃ result, returned pdu = some result ∧ Same pdu result := by
  obtain ⟨octets,built,read⟩ := trips
  obtain ⟨result,ran,same⟩ := read _ (Probe.holds_image octets)
  exact ⟨result,by rw [returned,built,Option.bind_some,ran]; rfl,same⟩

theorem flags_changed (read : (returned pdu).map (fun result => lowFlags result.flags) = some low)
    (other : lowFlags pdu.flags ≠ low) : ¬ RoundTrips 193 pdu := by
  intro trips
  obtain ⟨result,again,same⟩ := returned_same trips
  rw [again] at read
  exact other (same.flags.symm.trans (Option.some.inj read))

end NetSnmp.AgentxRoundtrip
