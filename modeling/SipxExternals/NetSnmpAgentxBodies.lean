import SipxExternals.NetSnmpAgentxWire

namespace NetSnmp.AgentxRoundtrip
open Foundations AsnTypes AgentxBuild AgentxParse AgentxWire List
open Interaction (run_bind_ok)
open Probe (Holds holds_append holds_cons)

def arrived (vp : Variable) : List Nat × UInt8 × Value := (vp.name,vp.type,received vp.val)

-- The variables of a PDU are sent as octets, of which the parser makes bindings.
structure Conveyed (built : Option (List UInt8)) (size : Nat) (parse : Nat → Nat → Parser (List Variable))
    (bindings : List (List Nat × UInt8 × Value)) (octets : List UInt8) : Prop where
  sent : built = some octets
  length : octets.length = size
  read : ∀ memory data, Holds memory data octets → octets.length < 2^64 →
    ∃ added, (parse data octets.length).run (packet memory) = .ok added ∧ added.map Variable.binding = bindings

structure ItemConveyed (build : Variable → Option (List UInt8)) (item : Nat → Nat → Parser (Parsed Variable))
    (size : Variable → Nat) (vp : Variable) (octets : List UInt8) (found : Variable) : Prop where
  sent : build vp = some octets
  length : octets.length = size vp
  some : 0 < octets.length
  read : Reads item octets found
  binding : found.binding = arrived vp

theorem parseList_conveyed : ∀ (vars : List Variable),
    (∀ vp ∈ vars, ∃ octets found, ItemConveyed build parse size vp octets found) →
    ∃ octets, buildList build vars = some octets ∧ octets.length = (vars.map size).sum ∧
      ∀ memory data rounds, Holds memory data octets → octets.length < 2^64 → octets.length ≤ rounds →
        ∃ added, (parseList parse rounds data octets.length).run (packet memory) = .ok added ∧
          added.map Variable.binding = vars.map arrived
  | [],_ => by
    refine ⟨[],rfl,rfl,fun memory data rounds _ _ _ => ⟨[],?_,rfl⟩⟩
    cases rounds <;> rfl
  | vp :: rest,each => by
    obtain ⟨first,found,item⟩ := each vp (.head _)
    obtain ⟨others,built,length,read⟩ := parseList_conveyed rest (forall_mem_cons.mp each).2
    refine ⟨first++others,?_,?_,?_⟩
    · rw [buildList,item.sent,built]
      rfl
    · rw [length_append,item.length,length,map_cons,sum_cons]
    intro memory data rounds held small enough
    obtain ⟨here,there⟩ := holds_append.mp held
    rw [length_append] at small enough ⊢
    have some := item.some
    cases rounds with
    | zero => omega
    | succ rounds =>
      have head := item.read memory data (first.length+others.length) here (Nat.le_add_right _ _) small
      rw [Nat.add_sub_cancel_left] at head
      obtain ⟨added,ran,bindings⟩ := read memory (data+first.length) rounds there (by omega) (by omega)
      refine ⟨found :: added,?_,?_⟩
      · rw [parseList,if_pos (by omega),run_bind_ok _ head,run_bind_ok _ ran]
        rfl
      · rw [map_cons,map_cons,item.binding,bindings]

def bindingSize (vp : Variable) : Nat := 4+oidSize vp.name+valueSize vp.val
def describedSize (vp : Variable) : Nat := oidSize vp.name+valueSize vp.val

def BindingProper (vp : Variable) : Prop := OidProper vp.name ∧ ValueProper vp.type vp.val

theorem binding_conveyed (proper : BindingProper vp) : ∃ octets found,
    ItemConveyed (fun vp => agentxReallocBuildVarbind vp order) (parseBinding order) bindingSize vp octets found := by
  obtain ⟨named,valued⟩ := proper
  obtain ⟨value,content,carried⟩ := value_carried valued order
  refine ⟨agentxReallocBuildShort vp.type.toNat order++([0,0]++(agentxReallocBuildOid 0 vp.name order++value)),
    snmpPduAddVariable vp.name vp.type content,?_,?_,?_,?_,?_⟩
  · have sent := carried.sent
    have built : buildValue vp order = some value := carried.built
    simp only [agentxReallocBuildVarbind,built,sent]
    simp
  · have size := carried.size
    simp only [length_append,buildShort_length,buildOid_length,size,bindingSize,length_cons,length_nil]
    omega
  · simp only [length_append,buildShort_length]
    omega
  · intro memory data length held fits small
    simp only [length_append,buildShort_length,buildOid_length,length_cons,length_nil] at fits ⊢
    obtain ⟨typed,rest⟩ := holds_append.mp held
    obtain ⟨_,rest⟩ := holds_append.mp rest
    obtain ⟨name,there⟩ := holds_append.mp rest
    rw [buildShort_length] at name there
    simp only [length_cons,length_nil,buildOid_length] at name there
    have nameRun := name_read named name (show oidSize vp.name ≤ length-4 by omega) (by omega) false .oid
    have valueRun := carried.read memory (data+4+oidSize vp.name) (length-4-oidSize vp.name) there (by omega) (by omega)
    have type : vp.type.toNat%65536 = vp.type.toNat := by
      have octet := vp.type.toNat_lt
      omega
    have whole : (agentxParseVarbind data length maxOidLen snmpMaxMsgSize order).run (packet memory) =
        .ok ⟨data+4+oidSize vp.name+value.length,length-4-oidSize vp.name-value.length,vp.name,vp.type,content⟩ := by
      rw [agentxParseVarbind,run_bind_ok _ (short_read typed),run_reduce,reduced (by omega) small,run_bind_ok _ nameRun,type,
        run_bind_ok _ valueRun]
      rfl
    rw [parseBinding,run_bind_ok _ whole,show 2+(0+1+1+(oidSize vp.name+value.length)) = 4+oidSize vp.name+value.length by omega,
      ← Nat.add_assoc,← Nat.add_assoc,← Nat.sub_sub,← Nat.sub_sub]
    rfl
  · have stored := carried.stored
    simp only [snmpPduAddVariable,Variable.binding,arrived,stored]

def RangeProper (vp : Variable) : Prop :=
  OidProper vp.name ∧ (vp.type = asnPrivInclRange ∨ vp.type = asnPrivExclRange) ∧
    ∃ stop, vp.val = .objid stop ∧ OidProper stop

theorem range_conveyed (proper : RangeProper vp) : ∃ octets found,
    ItemConveyed (buildSearchRange order) (parseSearchRange order) describedSize vp octets found := by
  obtain ⟨named,typed,stop,value,ended⟩ := proper
  have type : (if UInt8.ofNat (if vp.type = asnPrivInclRange then 1 else 0) ≠ 0 then asnPrivInclRange else asnPrivExclRange) =
      vp.type := by
    rcases typed with included | excluded
    · rw [included]
      rfl
    · rw [excluded]
      rfl
  refine ⟨_,⟨vp.name,vp.type,.objid stop,stop.length*sizeofOid⟩,by rw [buildSearchRange,value],?_,?_,?_,?_⟩
  · rw [length_append,buildOid_length,buildOid_length,describedSize,value]
    rfl
  · rw [length_append,buildOid_length,oidSize]
    omega
  · intro memory data length held fits small
    obtain ⟨here,there⟩ := holds_append.mp held
    rw [length_append,buildOid_length,buildOid_length] at fits
    rw [buildOid_length] at there
    have first := name_read named here (show oidSize vp.name ≤ length by omega) small true .oid
    have second := name_read ended there (show oidSize stop ≤ length-oidSize vp.name by omega) (by omega) false .endOid
    rw [parseSearchRange,run_bind_ok _ first,run_bind_ok _ second]
    simp only [if_true,type,Interaction.run_pure,length_append,buildOid_length,Nat.add_assoc,Nat.sub_sub]
    rfl
  · rw [arrived,value]
    rfl

theorem bindings_conveyed (order : Bool) (proper : ∀ vp ∈ vars, BindingProper vp) :
    ∃ octets, Conveyed (buildVarbinds order vars) (vars.map bindingSize).sum
      (fun data length => parseVarbinds order length data length) (vars.map arrived) octets := by
  obtain ⟨octets,sent,length,read⟩ := parseList_conveyed vars fun vp mem => binding_conveyed (proper vp mem)
  exact ⟨octets,sent,length,fun memory data held small => read memory data octets.length held small (Nat.le_refl _)⟩

theorem ranges_conveyed (order : Bool) (proper : ∀ vp ∈ vars, RangeProper vp) :
    ∃ octets, Conveyed (buildSearchRanges order vars) (vars.map describedSize).sum
      (fun data length => parseSearchRanges order length data length) (vars.map arrived) octets := by
  obtain ⟨octets,sent,length,read⟩ := parseList_conveyed vars fun vp mem => range_conveyed (proper vp mem)
  exact ⟨octets,sent,length,fun memory data held small => read memory data octets.length held small (Nat.le_refl _)⟩

def DescribedProper (vars : List Variable) : Prop :=
  ∃ name description valLen, vars = [⟨name,asnOctetStr,.string description,valLen⟩] ∧ OidProper name ∧ StringProper description

theorem described_conveyed (order : Bool) (proper : DescribedProper vars) :
    ∃ octets, Conveyed (buildDescribed order vars) (vars.map describedSize).sum
      (fun data length => parseDescribed data length order) (vars.map arrived) octets := by
  obtain ⟨name,description,valLen,rfl,named,described⟩ := proper
  refine ⟨agentxReallocBuildOid 0 name order++agentxReallocBuildString description order,rfl,?_,?_⟩
  · simp [describedSize,valueSize]
  intro memory data held small
  obtain ⟨here,there⟩ := holds_append.mp held
  rw [length_append,buildOid_length,buildString_length] at small ⊢
  rw [buildOid_length] at there
  have first := name_read named here (Nat.le_add_right _ (stringSize description)) small false .oid
  have second := agentxParseString_reads described (show description.length ≤ snmpMaxMsgSize from le_of_lt described.2) order memory
    (data+oidSize name) (stringSize description) there (by rw [buildString_length]) (by omega)
  rw [Nat.add_sub_cancel_left] at first
  refine ⟨[snmpPduAddVariable name asnOctetStr (.octets description)],?_,rfl⟩
  rw [parseDescribed,run_bind_ok _ first,run_bind_ok _ second]
  rfl

-- The upper bound of a range replaces one sub-identifier of the start.
inductive RegionProper (rangeSubid : Int) : List Variable → Prop where
  | single (zero : rangeSubid = 0) (named : OidProper name) : RegionProper rangeSubid [⟨name,asnNull,.none,valLen⟩]
  | range (low : 1 ≤ rangeSubid) (high : rangeSubid ≤ name.length) (named : OidProper name) (small : bound < 2^32) :
      RegionProper rangeSubid [⟨name,asnPrivInclRange,.objid (name.set (rangeSubid-1).toNat bound),valLen⟩]

def regionSize (rangeSubid : Int) (vp : Variable) : Nat := oidSize vp.name+if rangeSubid = 0 then 0 else 4

-- The bound is parsed as an int and stored as a sub-identifier of 64 bits.
def regionArrived (rangeSubid : Int) (vp : Variable) : List Nat × UInt8 × Value :=
  (vp.name,vp.type,match vp.val with
    | .objid subids => .objid (subids.set (rangeSubid-1).toNat (cUlong (cInt (subids.getD (rangeSubid-1).toNat 0))))
    | val => val)

theorem region_conveyed (order : Bool) (proper : RegionProper pdu.rangeSubid pdu.variableList) :
    ∃ octets, Conveyed (buildRegion pdu order) (pdu.variableList.map (regionSize pdu.rangeSubid)).sum
      (fun data length => parseRegion data length pdu.rangeSubid order) (pdu.variableList.map (regionArrived pdu.rangeSubid)) octets := by
  generalize given : pdu.variableList = vars at proper
  cases proper with
  | @single name valLen zero named =>
    refine ⟨agentxReallocBuildOid 0 name order,?_,?_,?_⟩
    · rw [buildRegion,given]
      simp only [if_pos zero]
    · simp [regionSize,zero]
    intro memory data held small
    rw [buildOid_length] at small ⊢
    have first := name_read named held le_rfl small false .oid
    refine ⟨[snmpPduAddVariable name asnNull .empty],?_,rfl⟩
    rw [parseRegion,run_bind_ok _ first,if_neg (fun nonzero => nonzero zero)]
    rfl
  | @range name bound valLen low high named small =>
    have nonzero : pdu.rangeSubid ≠ 0 := by omega
    have inside : (pdu.rangeSubid-1).toNat < name.length := by omega
    have value : (name.set (pdu.rangeSubid-1).toNat bound).getD (pdu.rangeSubid-1).toNat 0 = bound := by
      rw [getD_eq_getElem?_getD,getElem?_set_self inside]
      rfl
    refine ⟨agentxReallocBuildOid 0 name order++agentxReallocBuildInt bound order,?_,?_,?_⟩
    · rw [buildRegion,given]
      simp only [if_neg nonzero,value]
    · simp [regionSize,nonzero]
    intro memory data held room
    obtain ⟨here,there⟩ := holds_append.mp held
    rw [length_append,buildOid_length,buildInt_length] at room ⊢
    rw [buildOid_length] at there
    have first := name_read named here (Nat.le_add_right _ 4) room false .oid
    rw [Nat.add_sub_cancel_left] at first
    refine ⟨[snmpPduAddVariable name asnPrivInclRange (.subids (name.set (pdu.rangeSubid-1).toNat (cUlong (cInt bound))))],?_,?_⟩
    · rw [parseRegion,run_bind_ok _ first,if_pos nonzero,run_bind_ok _ (int_read there),run_reduce,run_fill,run_fill]
      rfl
    · simp only [map_cons,map_nil,regionArrived,value,set_set]
      rfl

def OctetProper (x : Int) : Prop := 0 ≤ x ∧ x < 256
def ShortProper (x : Int) : Prop := 0 ≤ x ∧ x < 65536

def BodyProper (pdu : Pdu) : Prop :=
  match pdu.command with
  | .msgOpen => OctetProper pdu.time ∧ DescribedProper pdu.variableList
  | .msgClose => OctetProper pdu.errstat ∧ pdu.variableList = []
  | .msgRegister => OctetProper pdu.time ∧ OctetProper pdu.priority ∧ RegionProper pdu.rangeSubid pdu.variableList
  | .msgUnregister => OctetProper pdu.priority ∧ RegionProper pdu.rangeSubid pdu.variableList
  | .msgGet | .msgGetnext => ∀ vp ∈ pdu.variableList, RangeProper vp
  | .msgGetbulk => ShortProper pdu.errstat ∧ ShortProper pdu.errindex ∧ ∀ vp ∈ pdu.variableList, RangeProper vp
  | .msgTestset | .msgNotify | .msgIndexAllocate | .msgIndexDeallocate => ∀ vp ∈ pdu.variableList, BindingProper vp
  | .msgAddAgentCaps => DescribedProper pdu.variableList
  | .msgRemoveAgentCaps => ∃ name valLen, pdu.variableList = [⟨name,asnNull,.none,valLen⟩] ∧ OidProper name
  | .msgResponse => pdu.time < 2^32 ∧ ShortProper pdu.errstat ∧ ShortProper pdu.errindex ∧
      ∀ vp ∈ pdu.variableList, BindingProper vp
  | _ => False

def headerFields (pdu : Pdu) : List Int :=
  match pdu.command with
  | .msgOpen => [pdu.time]
  | .msgClose => [pdu.errstat]
  | .msgRegister => [pdu.time,pdu.priority,pdu.rangeSubid]
  | .msgUnregister => [pdu.priority,pdu.rangeSubid]
  | .msgGetbulk => [pdu.errstat,pdu.errindex]
  | .msgResponse => [pdu.time,pdu.errstat,pdu.errindex]
  | _ => []

def bodySize (pdu : Pdu) : Nat :=
  match pdu.command with
  | .msgOpen => 4+(pdu.variableList.map describedSize).sum
  | .msgClose => 4
  | .msgRegister | .msgUnregister => 4+(pdu.variableList.map (regionSize pdu.rangeSubid)).sum
  | .msgGetbulk => 4+(pdu.variableList.map describedSize).sum
  | .msgResponse => 8+(pdu.variableList.map bindingSize).sum
  | .msgTestset | .msgNotify | .msgIndexAllocate | .msgIndexDeallocate => (pdu.variableList.map bindingSize).sum
  | _ => (pdu.variableList.map describedSize).sum

def arrivedFields (pdu : Pdu) : List Int :=
  match pdu.command with
  | .msgResponse => [cUlong (cInt pdu.time),pdu.errstat,pdu.errindex]
  | _ => headerFields pdu

def arrivedBindings (pdu : Pdu) : List (List Nat × UInt8 × Value) :=
  match pdu.command with
  | .msgRegister | .msgUnregister => pdu.variableList.map (regionArrived pdu.rangeSubid)
  | _ => pdu.variableList.map arrived

def heading (pdu : Pdu) : Command × Int × Int × Int := (pdu.command,pdu.sessid,pdu.transid,pdu.reqid)

structure Filled (base result : Pdu) (fields : List Int) (bindings : List (List Nat × UInt8 × Value)) : Prop where
  heads : heading result = heading base
  flags : result.flags = base.flags ∨ result.flags = base.flags ||| ucdResponsePdu
  community : result.community = base.community
  fields : headerFields result = fields
  bindings : result.variableList.map Variable.binding = base.variableList.map Variable.binding++bindings

structure BodyConveyed (pdu : Pdu) (order : Bool) (octets : List UInt8) : Prop where
  sent : buildBody pdu order = some octets
  length : octets.length = bodySize pdu
  read : ∀ memory data base, base.command = pdu.command → base.flags.has networkByteOrder = order →
    Holds memory data octets → octets.length < 2^64 →
    ∃ result, (parseBody base data octets.length).run (packet memory) = .ok result ∧
      Filled base result (arrivedFields pdu) (arrivedBindings pdu)

theorem cUchar_toNat (proper : OctetProper x) : ((cUchar x).toNat : Int) = x := by
  obtain ⟨low,high⟩ := proper
  rw [cUchar,UInt8.toNat_ofNat']
  omega

theorem cUint_short (proper : ShortProper x) : ((cUint x%65536 : Nat) : Int) = x := by
  obtain ⟨low,high⟩ := proper
  rw [cUint]
  omega

structure Kept (base changed : Pdu) : Prop where
  heads : heading changed = heading base
  flags : changed.flags = base.flags ∨ changed.flags = base.flags ||| ucdResponsePdu
  community : changed.community = base.community
  list : changed.variableList = base.variableList

theorem filled (kept : Kept base changed) (fields : headerFields changed = expected)
    (bindings : added.map Variable.binding = others) : Filled base (addVariables changed added) expected others where
  heads := kept.heads
  flags := kept.flags
  community := kept.community
  fields := fields
  bindings := by rw [addVariables,map_append,bindings,kept.list]

theorem headed_body (count : Nat) (head : List UInt8) (width : head.length = count) (change : Pdu → Pdu)
    (conveyed : Conveyed built size parse expected octets) (all : arrivedBindings pdu = expected)
    (sent : buildBody pdu order = built.map (head++·)) (sized : bodySize pdu = count+size)
    (parses : ∀ base memory data length, base.command = pdu.command → base.flags.has networkByteOrder = order →
      Holds memory data head → count ≤ length → length < 2^64 →
      (parseBody base data length).run (packet memory) =
        (do return addVariables (change base) (← parse (data+count) (length-count)) : Parser Pdu).run (packet memory))
    (kept : ∀ base, Kept base (change base))
    (fields : ∀ base, base.command = pdu.command → headerFields (change base) = arrivedFields pdu) :
    BodyConveyed pdu order (head++octets) where
  sent := by rw [sent,conveyed.sent]; rfl
  length := by rw [length_append,conveyed.length,sized,width]
  read := by
    intro memory data base same flag held small
    obtain ⟨front,rest⟩ := holds_append.mp held
    rw [width] at rest
    rw [length_append,width] at small ⊢
    obtain ⟨added,ran,bindings⟩ := conveyed.read memory (data+count) rest (by omega)
    refine ⟨addVariables (change base) added,?_,filled (kept base) (fields base same) (bindings.trans all.symm)⟩
    rw [parses base memory data _ same flag front (Nat.le_add_right _ _) small,Nat.add_sub_cancel_left,run_bind_ok _ ran]
    rfl

abbrev Sendable (pdu : Pdu) (order : Bool) : Prop := ∃ octets, BodyConveyed pdu order octets

theorem plain_body (parse : Nat → Nat → Parser (List Variable))
    (conveyed : ∃ octets, Conveyed (buildBody pdu order) (bodySize pdu) parse (arrivedBindings pdu) octets)
    (plain : ∀ base : Pdu, base.command = pdu.command → base.flags.has networkByteOrder = order →
      headerFields base = arrivedFields pdu ∧
        ∀ data length, parseBody base data length = (do return addVariables base (← parse data length))) : Sendable pdu order := by
  obtain ⟨octets,conveyed⟩ := conveyed
  refine ⟨octets,conveyed.sent,conveyed.length,fun memory data base same flag held small => ?_⟩
  obtain ⟨added,ran,bindings⟩ := conveyed.read memory data held small
  obtain ⟨fields,parses⟩ := plain base same flag
  refine ⟨addVariables base added,?_,filled ⟨rfl,.inl rfl,rfl,rfl⟩ fields bindings⟩
  rw [parses,run_bind_ok _ ran]
  rfl

theorem shorts_read (held : Holds memory data (agentxReallocBuildShort first order++agentxReallocBuildShort second order)) :
    (agentxParseShort data order).run (packet memory) = .ok (first%65536) ∧
      (agentxParseShort (data+2) order).run (packet memory) = .ok (second%65536) := by
  obtain ⟨here,there⟩ := holds_append.mp held
  rw [buildShort_length] at there
  exact ⟨short_read here,short_read there⟩

theorem region_subid (proper : RegionProper rangeSubid vars) : OctetProper rangeSubid := by
  cases proper with
  | single zero _ => exact ⟨by omega,by omega⟩
  | range low high named _ =>
    have few := named.2.1
    exact ⟨by omega,by omega⟩

section
variable (proper : BodyProper pdu)
include proper

theorem open_body (command : pdu.command = .msgOpen) : Sendable pdu order := by
  simp only [BodyProper,command] at proper
  obtain ⟨timed,described⟩ := proper
  obtain ⟨octets,conveyed⟩ := described_conveyed order described
  refine ⟨_,headed_body 4 [cUchar pdu.time,0,0,0] rfl (fun base => { base with time := (cUchar pdu.time).toNat }) conveyed
    (by simp only [arrivedBindings,command]) ?_ ?_ ?_ (fun _ => ⟨rfl,.inl rfl,rfl,rfl⟩) ?_⟩
  · simp only [buildBody,command,conveyed.sent]
    rfl
  · simp only [bodySize,command]
  · intro base memory data length same flag held fits small
    obtain ⟨time,_⟩ := holds_cons.mp held
    simp only [parseBody,same,command,flag]
    rw [run_fetch,run_reduce,reduced fits small,time]
  · intro base same
    simp only [headerFields,same,command,arrivedFields,cUchar_toNat timed]

theorem close_body (command : pdu.command = .msgClose) : Sendable pdu order := by
  simp only [BodyProper,command] at proper
  obtain ⟨reason,empty⟩ := proper
  refine ⟨[cUchar pdu.errstat,0,0,0],?_,?_,?_⟩
  · simp only [buildBody,command]
  · simp only [bodySize,command]
    rfl
  intro memory data base same flag held small
  obtain ⟨errstat,_⟩ := holds_cons.mp held
  refine ⟨{ base with errstat := (cUchar pdu.errstat).toNat },?_,rfl,.inl rfl,rfl,?_,?_⟩
  · simp only [parseBody,same,command]
    rw [run_fetch,run_reduce,errstat]
    rfl
  · simp only [headerFields,same,command,arrivedFields,cUchar_toNat reason]
  · simp only [arrivedBindings,command,empty]
    simp

theorem register_body (command : pdu.command = .msgRegister) : Sendable pdu order := by
  simp only [BodyProper,command] at proper
  obtain ⟨timed,ranked,region⟩ := proper
  have subid := region_subid region
  obtain ⟨octets,conveyed⟩ := region_conveyed order region
  refine ⟨_,headed_body 4 [cUchar pdu.time,cUchar pdu.priority,cUchar pdu.rangeSubid,0] rfl
    (fun base => { base with time := (cUchar pdu.time).toNat, priority := (cUchar pdu.priority).toNat, rangeSubid := (cUchar pdu.rangeSubid).toNat })
    conveyed (by simp only [arrivedBindings,command]) ?_ ?_ ?_ (fun _ => ⟨rfl,.inl rfl,rfl,rfl⟩) ?_⟩
  · simp only [buildBody,command,conveyed.sent]
    rfl
  · simp only [bodySize,command]
  · intro base memory data length same flag held fits small
    obtain ⟨time,held⟩ := holds_cons.mp held
    obtain ⟨priority,held⟩ := holds_cons.mp held
    obtain ⟨rangeSubid,_⟩ := holds_cons.mp held
    simp only [parseBody,same,command,flag]
    rw [run_fetch,run_fetch,run_fetch,run_reduce,reduced fits small,time,priority,rangeSubid,cUchar_toNat subid]
  · intro base same
    simp only [headerFields,same,command,arrivedFields,cUchar_toNat timed,cUchar_toNat ranked,cUchar_toNat subid]

theorem unregister_body (command : pdu.command = .msgUnregister) : Sendable pdu order := by
  simp only [BodyProper,command] at proper
  obtain ⟨ranked,region⟩ := proper
  have subid := region_subid region
  obtain ⟨octets,conveyed⟩ := region_conveyed order region
  refine ⟨_,headed_body 4 [0,cUchar pdu.priority,cUchar pdu.rangeSubid,0] rfl
    (fun base => { base with priority := (cUchar pdu.priority).toNat, rangeSubid := (cUchar pdu.rangeSubid).toNat })
    conveyed (by simp only [arrivedBindings,command]) ?_ ?_ ?_ (fun _ => ⟨rfl,.inl rfl,rfl,rfl⟩) ?_⟩
  · simp only [buildBody,command,conveyed.sent]
    rfl
  · simp only [bodySize,command]
  · intro base memory data length same flag held fits small
    obtain ⟨_,held⟩ := holds_cons.mp held
    obtain ⟨priority,held⟩ := holds_cons.mp held
    obtain ⟨rangeSubid,_⟩ := holds_cons.mp held
    simp only [parseBody,same,command,flag]
    rw [run_fetch,run_fetch,run_reduce,reduced fits small,priority,rangeSubid,cUchar_toNat subid]
  · intro base same
    simp only [headerFields,same,command,arrivedFields,cUchar_toNat ranked,cUchar_toNat subid]

theorem getbulk_body (command : pdu.command = .msgGetbulk) : Sendable pdu order := by
  simp only [BodyProper,command] at proper
  obtain ⟨nonRepeaters,maxRepetitions,ranges⟩ := proper
  obtain ⟨octets,conveyed⟩ := ranges_conveyed order ranges
  refine ⟨_,headed_body 4 (agentxReallocBuildShort (cUint pdu.errstat) order++agentxReallocBuildShort (cUint pdu.errindex) order)
    (by simp) (fun base => { base with errstat := (cUint pdu.errstat%65536 : Nat), errindex := (cUint pdu.errindex%65536 : Nat) })
    conveyed (by simp only [arrivedBindings,command]) ?_ ?_ ?_ (fun _ => ⟨rfl,.inl rfl,rfl,rfl⟩) ?_⟩
  · simp only [buildBody,command,conveyed.sent]
    rfl
  · simp only [bodySize,command]
  · intro base memory data length same flag held fits small
    obtain ⟨first,second⟩ := shorts_read held
    simp only [parseBody,same,command,flag]
    rw [run_bind_ok _ first,run_bind_ok _ second,run_reduce,reduced fits small]
  · intro base same
    simp only [headerFields,same,command,arrivedFields,cUint_short nonRepeaters,cUint_short maxRepetitions]

theorem response_body (command : pdu.command = .msgResponse) : Sendable pdu order := by
  simp only [BodyProper,command] at proper
  obtain ⟨timed,errstat,errindex,bindings⟩ := proper
  obtain ⟨octets,conveyed⟩ := bindings_conveyed order bindings
  refine ⟨_,headed_body 8 (agentxReallocBuildInt pdu.time order ++
      (agentxReallocBuildShort (cUint pdu.errstat) order++agentxReallocBuildShort (cUint pdu.errindex) order))
    (by simp) (fun base => { base with flags := base.flags ||| ucdResponsePdu, time := cUlong (cInt pdu.time), errstat := (cUint pdu.errstat%65536 : Nat), errindex := (cUint pdu.errindex%65536 : Nat) })
    conveyed (by simp only [arrivedBindings,command]) ?_ ?_ ?_ (fun _ => ⟨rfl,.inr rfl,rfl,rfl⟩) ?_⟩
  · simp only [buildBody,command,conveyed.sent]
    simp
  · simp only [bodySize,command]
  · intro base memory data length same flag held fits small
    obtain ⟨time,shorts⟩ := holds_append.mp held
    rw [buildInt_length] at shorts
    obtain ⟨first,second⟩ := shorts_read shorts
    simp only [parseBody,same,command,flag]
    rw [run_bind_ok _ (int_read time),run_reduce,reduced (by omega) small,run_bind_ok _ first,run_bind_ok _ second,run_reduce,
      reduced (by omega) (by omega),Nat.sub_sub]
  · intro base same
    simp only [headerFields,same,command,arrivedFields,cUint_short errstat,cUint_short errindex]

theorem removeAgentCaps_body (command : pdu.command = .msgRemoveAgentCaps) : Sendable pdu order := by
  simp only [BodyProper,command] at proper
  obtain ⟨name,valLen,single,named⟩ := proper
  refine ⟨agentxReallocBuildOid 0 name order,?_,?_,?_⟩
  · simp only [buildBody,command,single]
  · simp [bodySize,command,single,describedSize,valueSize]
  intro memory data base same flag held small
  have first := name_read named held buildOid_length.ge small false .oid
  refine ⟨addVariables base [snmpPduAddVariable name asnNull .empty],?_,filled ⟨rfl,.inl rfl,rfl,rfl⟩ ?_ ?_⟩
  · simp only [parseBody,same,command,flag]
    rw [run_bind_ok _ first]
    rfl
  · simp only [headerFields,same,command,arrivedFields]
  · simp only [arrivedBindings,command,single]
    rfl

theorem body_conveyed : Sendable pdu order := by
  cases command : pdu.command with
  | msgOpen => exact open_body proper command
  | msgClose => exact close_body proper command
  | msgRegister => exact register_body proper command
  | msgUnregister => exact unregister_body proper command
  | msgGet | msgGetnext =>
    simp only [BodyProper,command] at proper
    refine plain_body (fun data length => parseSearchRanges order length data length) ?_ fun base same flag => ?_
    · simpa only [buildBody,bodySize,arrivedBindings,command] using ranges_conveyed order proper
    · simp only [headerFields,arrivedFields,parseBody,same,command,flag,implies_true,and_self]
  | msgGetbulk => exact getbulk_body proper command
  | msgTestset | msgNotify | msgIndexAllocate | msgIndexDeallocate =>
    simp only [BodyProper,command] at proper
    refine plain_body (fun data length => parseVarbinds order length data length) ?_ fun base same flag => ?_
    · simpa only [buildBody,bodySize,arrivedBindings,command] using bindings_conveyed order proper
    · simp only [headerFields,arrivedFields,parseBody,same,command,flag,implies_true,and_self]
  | msgAddAgentCaps =>
    simp only [BodyProper,command] at proper
    refine plain_body (fun data length => parseDescribed data length order) ?_ fun base same flag => ?_
    · simpa only [buildBody,bodySize,arrivedBindings,command] using described_conveyed order proper
    · simp only [headerFields,arrivedFields,parseBody,same,command,flag,implies_true,and_self]
  | msgRemoveAgentCaps => exact removeAgentCaps_body proper command
  | msgResponse => exact response_body proper command
  | msgCommitset | msgUndoset | msgCleanupset | msgPing | unknown => simp only [BodyProper,command] at proper

end

end NetSnmp.AgentxRoundtrip
