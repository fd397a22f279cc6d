import SipxExternals.NetSnmpAgentxParse

namespace NetSnmp.AgentxWire
open Foundations AsnTypes AgentxBuild AgentxParse
open Interaction (run_bind_ok run_pure)
open Probe (Holds holds_append slice_of_holds holds_cons)
open UInt8 (ofNat ofNat_toNat toNat_ofNat)
open List hiding all below count length tail

def Reads (part : Nat → Nat → Parser (Parsed α)) (octets : List UInt8) (value : α) : Prop :=
  ∀ memory data length, Holds memory data octets → octets.length ≤ length → length < 2^64 →
    (part data length).run (packet memory) = .ok ⟨data+octets.length,length-octets.length,value⟩

theorem reads_map {first : Nat → Nat → Parser (Parsed α)} (begins : Reads first octets value) (change : α → β) :
    Reads (fun data length => do
      let found ← first data length
      return ⟨found.data,found.length,change found.value⟩) octets (change value) := by
  intro memory data length held fits small
  rw [run_bind_ok _ (begins memory data length held fits small)]
  rfl

section
variable (value : Nat)
include value

theorem octetsValue_word : octetsValue
    [ofNat (value / 16777216),ofNat (value / 65536),ofNat (value / 256),ofNat value] = value%2^32 := by
  simp only [octetsValue,map_cons,map_nil,Horner.horner_cons,Horner.horner_nil,UInt8.toNat_ofNat']
  omega

theorem octetsValue_short : octetsValue [ofNat (value / 256),ofNat value] = value%65536 := by
  simp only [octetsValue,map_cons,map_nil,Horner.horner_cons,Horner.horner_nil,UInt8.toNat_ofNat']
  omega

theorem wordValue_int : wordValue order (agentxReallocBuildInt value order) = value%2^32 := by
  rw [← octetsValue_word]
  cases order <;> rfl

theorem wordValue_short : wordValue order (agentxReallocBuildShort value order) = value%65536 := by
  rw [← octetsValue_short]
  cases order <;> rfl

@[simp] theorem buildInt_length : (agentxReallocBuildInt value order).length = 4 := by
  cases order <;> rfl

@[simp] theorem buildShort_length : (agentxReallocBuildShort value order).length = 2 := by
  cases order <;> rfl

theorem cInt_eq : cInt value =
    if value%2^32 < 2^31 then (value : Int)%2^32 else (value : Int)%2^32-2^32 := by
  have modulus : cInt value = Int.bmod (value : Int) (2^32) := rfl
  rw [modulus,Int.bmod_def]
  by_cases low : value%2^32 < 2^31
  · rw [if_pos low,if_pos]
    · rfl
    · omega
  · rw [if_neg low,if_neg]
    · rfl
    · omega

theorem cInt_mod : cInt (value%2^32) = cInt value := by
  rw [cInt_eq,cInt_eq,Nat.mod_mod]
  split <;> omega

end

theorem int_read (held : Holds memory data (agentxReallocBuildInt value order)) :
    (agentxParseInt data order).run (packet memory) = .ok (cInt value) := by
  rw [run_agentxParseInt,slice_of_holds held (buildInt_length value),wordValue_int,cInt_mod]

theorem short_read (held : Holds memory data (agentxReallocBuildShort value order)) :
    (agentxParseShort data order).run (packet memory) = .ok (value%65536) := by
  rw [run_agentxParseShort,slice_of_holds held (buildShort_length value),wordValue_short]

theorem cUint_cInt : cUint (cInt value) = value%2^32 := by
  rw [cUint,cInt_eq]
  split <;> omega

theorem cInt_cUint (low : -2^31 ≤ x) (high : x < 2^32) : cInt (cUint x) = if x < 2^31 then x else x-2^32 := by
  rw [cInt_eq,cUint]
  split <;> split <;> omega

theorem cUlong_cInt (small : value < 2^32) :
    cUlong (cInt value) = if value < 2^31 then value else value+18446744069414584320 := by
  rw [cUlong,cInt_eq]
  split <;> split <;> omega

def OidProper (name : List Nat) : Prop :=
  1 ≤ name.length ∧ name.length ≤ 128 ∧ ∀ subid ∈ name, subid < 2^32

def oidSize (name : List Nat) : Nat := 4+4*(compact name).2.length

theorem subids_length {name : List Nat} :
    (name.flatMap fun subid => agentxReallocBuildInt subid order).length = 4*name.length := by
  induction name with
  | nil => rfl
  | cons subid rest ih =>
    rw [flatMap_cons,length_append,buildInt_length,ih,length_cons]
    omega

@[simp] theorem buildOid_length : (agentxReallocBuildOid inclusive name order).length = oidSize name := by
  rw [agentxReallocBuildOid,length_append,subids_length]
  rfl

theorem compact_expands : (compact name = (0,name)) ∨
      (0 < (compact name).1 ∧ (compact name).1 < 256 ∧ name = 1 :: 3 :: 6 :: 1 :: (compact name).1 :: (compact name).2) := by
  unfold compact
  split
  · split
    · rename_i internet
      obtain ⟨rfl,rfl,rfl,rfl,low,high⟩ := internet
      exact .inr ⟨low,high,rfl⟩
    · exact .inl rfl
  · exact .inl rfl

theorem parseSubids_reads (buffer : Buffer) : ∀ (name : List Nat) (index : Nat), (∀ subid ∈ name, subid < 2^32) →
    Reads (parseSubids order buffer name.length index) (name.flatMap fun subid => agentxReallocBuildInt subid order) name
  | [],_,_ => by
    intro memory data length _ _ _
    rfl
  | subid :: rest,index,below => by
    intro memory data length held fits small
    rw [subids_length,length_cons] at fits
    obtain ⟨here,there⟩ := holds_append.mp held
    rw [buildInt_length] at there
    have tail := parseSubids_reads buffer rest (index+1) (forall_mem_cons.mp below).2
      memory (data+4) (length-4) there (by rw [subids_length]; omega) (by omega)
    rw [length_cons,parseSubids,run_bind_ok _ (int_read here),run_fill,run_reduce,reduced (by omega) small,
      run_bind_ok _ tail,cUint_cInt,Nat.mod_eq_of_lt (below subid (.head _))]
    simp only [run_pure,subids_length,length_cons]
    congr 2
    · omega
    · omega

theorem octet_small (small : n < 256) : (ofNat n).toNat = n := by
  rw [UInt8.toNat_ofNat',Nat.mod_eq_of_lt small]

theorem octet_zero (small : n < 256) : ofNat n = 0 ↔ n = 0 := by
  rw [← UInt8.toNat_inj,octet_small small]
  rfl

theorem parseOidBody_reads (proper : OidProper name) (capacity : name.length ≤ oidLen) (buffer : Buffer) :
    Reads (fun data length => parseOidBody (ofNat (compact name).2.length) (ofNat (compact name).1) data length
      buffer oidLen order) ((compact name).2.flatMap fun subid => agentxReallocBuildInt subid order) name := by
  obtain ⟨some,few,below⟩ := proper
  intro memory data length held fits small
  rw [subids_length] at fits
  rcases compact_expands with whole | ⟨low,high,expands⟩
  · rw [whole] at held fits ⊢
    have all := parseSubids_reads buffer name 0 below memory data length held (by rw [subids_length]; exact fits) small
    have number := octet_small (show name.length < 256 by omega)
    have plain : ¬ ofNat 0 ≠ 0 := fun nonzero => nonzero rfl
    have size : expandedLength (ofNat name.length) (ofNat 0) = name.length := by
      rw [expandedLength,if_neg plain,number]
    simp only [parseOidBody,size,number] at fits ⊢
    rw [if_neg (fun both => by have none := (octet_zero (by omega)).mp both.1; omega),if_neg (by omega),if_neg (by omega),
      if_neg plain]
    exact all
  have nonzero : ofNat (compact name).1 ≠ 0 := fun zero => by
    have none := (octet_zero high).mp zero
    omega
  have size := congrArg List.length expands
  simp only [length_cons] at size
  have inner : ∀ subid ∈ (compact name).2, subid < 2^32 := by
    intro subid mem
    refine below subid ?_
    rw [expands]
    simp [mem]
  have rest := parseSubids_reads buffer (compact name).2 5 inner memory data length held (by rw [subids_length]; exact fits) small
  simp only [parseOidBody]
  rw [if_neg (fun both => nonzero both.2),expandedLength,if_pos nonzero,octet_small (by omega),if_neg (by omega),
    if_neg (by omega),if_pos nonzero,run_fill,run_bind_ok _ rest,octet_small high,← expands]
  rfl

theorem agentxParseOid_reads (proper : OidProper name) (capacity : name.length ≤ oidLen) (inc : Bool)
    (buffer : Buffer) :
    Reads (fun data length => agentxParseOid data length inc buffer oidLen order) (agentxReallocBuildOid inclusive name order)
      (if inc then ofNat inclusive else 0,name) := by
  intro memory data length held fits small
  have nonempty : ¬ name.length = 0 := by have some := proper.1; omega
  rw [buildOid_length,oidSize] at fits
  rw [agentxReallocBuildOid,if_neg nonempty] at held
  obtain ⟨count,held⟩ := holds_cons.mp held
  obtain ⟨five,held⟩ := holds_cons.mp held
  obtain ⟨flag,held⟩ := holds_cons.mp held
  obtain ⟨_,subids⟩ := holds_cons.mp held
  have included : (fetchInclude inc (data+2)).run (packet memory) = .ok (if inc then ofNat inclusive else 0) := by
    cases inc with
    | false => rfl
    | true => exact congrArg Except.ok flag
  have body := parseOidBody_reads proper capacity buffer memory (data+4) (length-4) subids
    (by rw [subids_length]; omega) (by omega)
  simp only [agentxParseOid]
  rw [if_neg (by omega),run_fetch,run_fetch,run_bind_ok _ included,run_reduce,reduced (by omega) small,count,five,
    run_bind_ok _ body,buildOid_length,oidSize,subids_length]
  simp only [run_pure]
  congr 2
  · omega
  · omega

theorem name_read (proper : OidProper name) (held : Holds memory data (agentxReallocBuildOid inclusive name order))
    (fits : oidSize name ≤ length) (small : length < 2^64) (inc : Bool) (buffer : Buffer) :
    (agentxParseOid data length inc buffer maxOidLen order).run (packet memory) =
      .ok ⟨data+oidSize name,length-oidSize name,if inc then ofNat inclusive else 0,name⟩ := by
  have read := agentxParseOid_reads proper proper.2.1 inc buffer memory data length held
  rw [buildOid_length] at read
  exact read fits small

def StringProper (string : List UInt8) : Prop := 1 ≤ string.length ∧ string.length < 1472

def stringSize (string : List UInt8) : Nat := 4+string.length+padding string.length

@[simp] theorem buildString_length : (agentxReallocBuildString string order).length = stringSize string := by
  simp [agentxReallocBuildString,stringSize,add_assoc]

theorem padded_length (small : length < 1472) : (length+3)%2^32 / 4*4 = length+padding length := by
  unfold padding
  split <;> omega

theorem agentxParseString_reads (proper : StringProper string) (capacity : string.length ≤ strLen) (order : Bool) :
    Reads (fun data length => agentxParseString data length strLen order) (agentxReallocBuildString string order) string := by
  obtain ⟨some,few⟩ := proper
  intro memory data length held fits small
  rw [buildString_length] at fits
  have parts : stringSize string = 4+string.length+padding string.length := rfl
  rw [agentxReallocBuildString,append_assoc] at held
  obtain ⟨count,rest⟩ := holds_append.mp held
  obtain ⟨octets,_⟩ := holds_append.mp rest
  rw [buildInt_length] at octets
  have found : (fetchMany (data+4) string.length).run (packet memory) = .ok string := by
    rw [run_fetchMany,slice_of_holds octets rfl]
  have number : cUint (cInt string.length) = string.length := by
    rw [cUint_cInt]
    omega
  simp only [agentxParseString]
  rw [if_neg (by omega),run_bind_ok _ (int_read count),number,if_neg (by omega),if_neg (by omega),storeString,run_bind_ok _ found,
    run_fill,run_fill,padded_length few,run_reduce,
    show string.length+padding string.length+4 = stringSize string by rw [stringSize]; omega,reduced fits small,buildString_length]
  rfl

inductive ValueProper : UInt8 → Value → Prop where
  | integer (low : -2^31 ≤ x) (high : x < 2^31) : ValueProper asnInteger (.integer x)
  | unsigned (counts : type = asnCounter ∨ type = asnGauge ∨ type = asnTimeticks) (small : x < 2^32) :
      ValueProper type (.unsigned x)
  | counter64 (first : high < 2^32) (second : low < 2^32) : ValueProper asnCounter64 (.counter64 high low)
  | string (texts : type = asnOctetStr ∨ type = asnIpaddress) (proper : StringProper string) : ValueProper type (.string string)
  | objid (proper : OidProper name) : ValueProper asnObjectId (.objid name)
  | empty (nothing : type = asnNull ∨ type = snmpNosuchobject ∨ type = snmpNosuchinstance ∨ type = snmpEndofmibview) :
      ValueProper type .none

def valueSize : Value → Nat
  | .integer _ => 4
  | .unsigned _ => 4
  | .counter64 _ _ => 8
  | .string string => stringSize string
  | .objid name => oidSize name
  | _ => 0

-- The halves of a Counter64 are parsed as ints and stored as unsigned longs.
def received : Value → Value
  | .counter64 high low => .counter64 (cUlong (cInt high)) (cUlong (cInt low))
  | val => val

structure Carried (order : Bool) (vp : Variable) (octets : List UInt8) (content : Content) : Prop where
  built : buildValue vp order = some octets
  size : octets.length = valueSize vp.val
  sent : wireType vp.type = vp.type
  read : Reads (fun data length => parseValue vp.type.toNat data length snmpMaxMsgSize order) octets (vp.type,content)
  stored : (snmpSetVarValue vp.type content).1 = received vp.val

theorem int_carried (kind : wireKind type.toNat = .int) (sent : wireType type = type)
    (built : buildValue ⟨name,type,val,valLen⟩ order = some (agentxReallocBuildInt number order))
    (size : valueSize val = 4) (stored : (snmpSetVarValue type (.int (number%2^32))).1 = received val) :
    Carried order ⟨name,type,val,valLen⟩ (agentxReallocBuildInt number order) (.int (number%2^32)) where
  built := built
  size := by rw [buildInt_length,size]
  sent := sent
  read := by
    intro memory data length held fits small
    rw [buildInt_length] at fits ⊢
    simp only [parseValue,kind]
    rw [run_bind_ok _ (int_read held),run_fill,run_reduce,reduced fits small,cUint_cInt,ofNat_toNat]
    rfl
  stored := stored

theorem empty_carried (kind : wireKind type.toNat = .empty) (sent : wireType type = type) :
    Carried order ⟨name,type,.none,valLen⟩ [] .empty where
  built := by simp [buildValue,kind]
  size := rfl
  sent := sent
  read := by
    intro memory data length _ _ _
    simp only [parseValue,kind,ofNat_toNat]
    rfl
  stored := rfl

theorem string_carried (kind : wireKind type.toNat = .string) (sent : wireType type = type) (proper : StringProper string) :
    Carried order ⟨name,type,.string string,valLen⟩ (agentxReallocBuildString string order) (.octets string) where
  built := by simp [buildValue,kind]
  size := buildString_length
  sent := sent
  read := by
    have text := reads_map (agentxParseString_reads proper (show string.length ≤ snmpMaxMsgSize from le_of_lt proper.2) order)
      (fun octets => (type,Content.octets octets))
    simpa [parseValue,kind,ofNat_toNat] using text
  stored := rfl

theorem objid_carried (proper : OidProper subids) :
    Carried order ⟨name,asnObjectId,.objid subids,valLen⟩ (agentxReallocBuildOid 1 subids order) (.subids subids) where
  built := rfl
  size := buildOid_length
  sent := rfl
  read := reads_map (agentxParseOid_reads proper (le_trans proper.2.1 (by decide))
    false .value) fun found => (asnObjectId,Content.subids found.2)
  stored := rfl

theorem ints_read (held : Holds memory data (agentxReallocBuildInt first order++agentxReallocBuildInt second order)) :
    (agentxParseInt data order).run (packet memory) = .ok (cInt first) ∧
      (agentxParseInt (data+4) order).run (packet memory) = .ok (cInt second) := by
  obtain ⟨here,there⟩ := holds_append.mp held
  rw [buildInt_length] at there
  exact ⟨int_read here,int_read there⟩

theorem counter64_carried : Carried order ⟨name,asnCounter64,.counter64 high low,valLen⟩
    (if order then agentxReallocBuildInt high order++agentxReallocBuildInt low order
      else agentxReallocBuildInt low order++agentxReallocBuildInt high order)
    (.counter64 (cUlong (cInt high)) (cUlong (cInt low))) where
  built := by cases order <;> rfl
  size := by cases order <;> rfl
  sent := rfl
  read := by
    intro memory data length held fits small
    have kind : wireKind asnCounter64.toNat = .counter64 := rfl
    simp only [parseValue,kind]
    cases order with
    | true | false =>
      obtain ⟨first,second⟩ := ints_read held
      rw [run_bind_ok _ first,run_bind_ok _ second,run_fill,run_reduce,reduced (show 8 ≤ length from fits) small]
      simp [ofNat_toNat]
  stored := rfl

theorem value_carried (proper : ValueProper type val) (order : Bool) :
    ∃ octets content, Carried order ⟨name,type,val,valLen⟩ octets content := by
  cases proper with
  | @integer x low high =>
    refine ⟨_,_,int_carried rfl rfl rfl rfl ?_⟩
    rw [snmpSetVarValue,if_pos rfl,cInt_mod,cInt_cUint low (by omega),if_pos high]
    rfl
  | @unsigned _ x counts small =>
    have stored : x%2^32 = x := Nat.mod_eq_of_lt small
    rcases counts with rfl | rfl | rfl
    all_goals exact ⟨_,_,int_carried rfl rfl rfl rfl (congrArg Value.unsigned stored)⟩
  | counter64 _ _ => exact ⟨_,_,counter64_carried⟩
  | string texts proper =>
    rcases texts with rfl | rfl
    all_goals exact ⟨_,_,string_carried rfl rfl proper⟩
  | objid proper => exact ⟨_,_,objid_carried proper⟩
  | empty nothing =>
    rcases nothing with rfl | rfl | rfl | rfl
    all_goals exact ⟨_,_,empty_carried rfl rfl⟩

theorem has_bit {flags : Flags} (i : Nat) (inside : i < 64) : flags.has (BitVec.twoPow 64 i) = flags.getLsbD i := by
  rw [Flags.has,BitVec.and_twoPow]
  cases flags.getLsbD i with
  | false => rfl
  | true =>
    have nonzero : BitVec.twoPow 64 i ≠ 0#64 := by
      intro zero
      have bit := congrArg (fun x : BitVec 64 => x.getLsbD i) zero
      simp [inside] at bit
    simpa using nonzero

theorem has_context {flags : Flags} : flags.has nonDefaultContext = flags.getLsbD 3 := has_bit 3 (by decide)
theorem has_order {flags : Flags} : flags.has networkByteOrder = flags.getLsbD 4 := has_bit 4 (by decide)

theorem ucd_high (low : i < 8) : ucdAlwaysInView.getLsbD i = false ∧ ucdForcePduCopy.getLsbD i = false ∧
    ucdResponsePdu.getLsbD i = false := by
  revert i
  decide

theorem control_bit (low : i < 8) :
    ((flags ||| ucdAlwaysInView ||| ucdForcePduCopy) &&& ~~~ucdResponsePdu).getLsbD i = flags.getLsbD i := by
  obtain ⟨first,second,third⟩ := ucd_high low
  rw [BitVec.getLsbD_and,BitVec.getLsbD_or,BitVec.getLsbD_or,BitVec.getLsbD_not,first,second,third]
  simp [show i < 64 by omega]

end NetSnmp.AgentxWire
