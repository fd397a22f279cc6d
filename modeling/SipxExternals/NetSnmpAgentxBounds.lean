import SipxExternals.NetSnmpAgentxWire

namespace NetSnmp.AgentxBounds
open Foundations AsnTypes AgentxBuild AgentxParse AgentxWire
open Interaction (Each each_bind each_bind_ok each_bind_perform each_fail each_pure fail run_bind_error run_bind_ok)
open Probe (image slice)
open Nat (sub_sub)

def InBounds (n : Nat) : Action → Prop
  | .read offset => offset < n
  | .subtract length amount => amount ≤ length
  | .write buffer first count => first+count ≤ buffer.size

def actionsOf (part : Parser α) (memory : Memory) : List Action := part.asked (packet memory)

def Safe (memory : Memory) (n : Nat) (part : Parser α) : Prop := Each (I := actions) (InBounds n) part (packet memory)

@[simp] theorem safe_pure : Safe memory n (pure value) := each_pure value
@[simp] theorem safe_fail : Safe memory n (.fail fault : Parser α) := each_fail fault

theorem safe_fetch : Safe memory n (fetch offset >>= follow) ↔ offset < n ∧ Safe memory n (follow (memory offset)) :=
  each_bind_perform

theorem safe_fill :
    Safe memory n (fill buffer first count >>= follow) ↔ first+count ≤ buffer.size ∧ Safe memory n (follow ()) :=
  each_bind_perform

theorem safe_reduce : Safe memory n (reduce length amount >>= follow) ↔
    amount ≤ length ∧ Safe memory n (follow ((length+2^64-amount)%2^64)) :=
  each_bind_perform

theorem safe_bind_ok (found : first.run (packet memory) = .ok value) :
    Safe memory n (first >>= follow) ↔ Safe memory n first ∧ Safe memory n (follow value) :=
  each_bind_ok found

theorem safe_bind_error (found : first.run (packet memory) = .error fault) :
    Safe memory n (first >>= follow) ↔ Safe memory n first :=
  each_bind.trans (and_iff_left fun value ran => by rw [found] at ran; cases ran)

theorem safe_bind_always (always : ∀ value, Safe memory n (follow value)) :
    Safe memory n (first >>= follow) ↔ Safe memory n first :=
  each_bind.trans (and_iff_left fun value _ => always value)

theorem safe_map {follow : α → β} : Safe memory n (first >>= fun value => pure (follow value)) ↔ Safe memory n first :=
  safe_bind_always fun _ => safe_pure

theorem safe_fetchMany : Safe memory n (fetchMany offset count) ↔ count = 0 ∨ offset+count ≤ n := by
  induction count generalizing offset with
  | zero => simp [fetchMany]
  | succ count ih =>
    rw [fetchMany,safe_fetch,safe_bind_ok (run_fetchMany (offset+1) count),ih]
    simp only [safe_pure,and_true]
    omega

theorem safe_int : Safe memory n (agentxParseInt data order) ↔ data+4 ≤ n := by
  rw [agentxParseInt,safe_bind_ok (run_fetchMany data 4),safe_fetchMany]
  simp

theorem safe_short : Safe memory n (agentxParseShort data order) ↔ data+2 ≤ n := by
  rw [agentxParseShort,safe_bind_ok (run_fetchMany data 2),safe_fetchMany]
  simp

def word (memory : Memory) (order : Bool) (data : Nat) : Int := cInt (wordValue order (slice memory data 4))
def short (memory : Memory) (order : Bool) (data : Nat) : Nat := wordValue order (slice memory data 2)

theorem word_run : (agentxParseInt data order).run (packet memory) = .ok (word memory order data) := run_agentxParseInt

theorem safe_bind_int : Safe memory n (agentxParseInt data order >>= follow) ↔
    data+4 ≤ n ∧ Safe memory n (follow (word memory order data)) := by
  rw [safe_bind_ok run_agentxParseInt,safe_int]
  rfl

theorem safe_bind_short : Safe memory n (agentxParseShort data order >>= follow) ↔
    data+2 ≤ n ∧ Safe memory n (follow (short memory order data)) := by
  rw [safe_bind_ok run_agentxParseShort,safe_short]
  rfl

def oidEnd (memory : Memory) (data : Nat) : Nat := data+4+4*(memory data).toNat
def oidLength (memory : Memory) (data : Nat) : Nat := expandedLength (memory data) (memory (data+1))

def OidAccepted (memory : Memory) (n capacity data : Nat) : Prop :=
  data+4 ≤ n ∧ oidLength memory data ≤ capacity ∧ oidEnd memory data ≤ n

theorem subids_run : ∀ count index data length, 4*count ≤ length → length < 2^64 → ∃ subids, subids.length = count ∧
      (parseSubids order buffer count index data length).run (packet memory) = .ok ⟨data+4*count,length-4*count,subids⟩
  | 0,index,data,length,_,_ => ⟨[],rfl,rfl⟩
  | count+1,index,data,length,fits,small => by
    obtain ⟨subids,size,ran⟩ := subids_run count (index+1) (data+4) (length-4) (by omega) (by omega)
    refine ⟨cUint (word memory order data) :: subids,by simp [size],?_⟩
    rw [parseSubids,run_bind_ok _ run_agentxParseInt,run_fill,run_reduce,reduced (by omega) small,run_bind_ok _ ran,
      show data+4+4*count = data+4*(count+1) by omega,show length-4-4*count = length-4*(count+1) by omega]
    rfl

theorem subids_safe : ∀ count index data length, 4*count ≤ length → length < 2^64 → data+4*count ≤ n →
    (Safe memory n (parseSubids order buffer count index data length) ↔ count = 0 ∨ sizeofOid*(index+count) ≤ buffer.size)
  | 0,index,data,length,_,_,_ => by simp [parseSubids]
  | count+1,index,data,length,fits,small,inside => by
    obtain ⟨subids,_,ran⟩ := subids_run count (index+1) (data+4) (length-4) (by omega) (by omega)
    rw [parseSubids,safe_bind_int,safe_fill,safe_reduce,reduced (by omega) small,safe_bind_ok ran,
      subids_safe count (index+1) (data+4) (length-4) (by omega) (by omega) (by omega)]
    simp only [safe_pure,and_true,sizeofOid]
    omega

theorem oidBody_accepts (room : 4*nSubid.toNat ≤ length)
    (small : length < 2^64) (capacity : expandedLength nSubid five ≤ oidLen) :
    ∃ subids, subids.length ≤ max 2 oidLen ∧ (parseOidBody nSubid five data length buffer oidLen order).run (packet memory) =
      .ok ⟨data+4*nSubid.toNat,length-4*nSubid.toNat,subids⟩ := by
  rw [parseOidBody]
  split
  · rename_i null
    rw [null.1]
    exact ⟨[0,0],le_max_left _ _,rfl⟩
  rw [if_neg (by omega),if_neg (by omega)]
  split
  · rename_i five_set
    obtain ⟨subids,size,ran⟩ := subids_run nSubid.toNat 5 data length room small
    refine ⟨1 :: 3 :: 6 :: 1 :: five.toNat :: subids,?_,?_⟩
    · rw [expandedLength,if_pos five_set] at capacity
      simp only [List.length_cons,size]
      omega
    · rw [run_fill,run_bind_ok _ ran]
      rfl
  · rename_i plain
    obtain ⟨subids,size,ran⟩ := subids_run nSubid.toNat 0 data length room small
    rw [expandedLength,if_neg plain] at capacity
    exact ⟨subids,by omega,ran⟩

theorem oidBody_rejects (short : ¬ (expandedLength nSubid five ≤ oidLen ∧ 4*nSubid.toNat ≤ length)) :
    parseOidBody nSubid five data length buffer oidLen order = .fail .parseErr := by
  have filled : ¬ (nSubid = 0 ∧ five = 0) := by
    rintro ⟨rfl,rfl⟩
    exact short ⟨Nat.zero_le _,Nat.zero_le _⟩
  rw [parseOidBody,if_neg filled]
  by_cases capacity : oidLen < expandedLength nSubid five
  · rw [if_pos capacity]
  · rw [if_neg capacity,if_pos (by omega)]

theorem oidBody_safe (enough : 2*sizeofOid ≤ buffer.size)
    (room : 4*nSubid.toNat ≤ length) (small : length < 2^64) (inside : data+4*nSubid.toNat ≤ n)
    (capacity : expandedLength nSubid five ≤ oidLen) : Safe memory n (parseOidBody nSubid five data length buffer oidLen order) ↔
      sizeofOid*expandedLength nSubid five ≤ buffer.size := by
  rw [parseOidBody]
  split
  · rename_i null
    rw [safe_fill,null.1,null.2]
    have zero : expandedLength 0 0 = 0 := rfl
    simp [zero,enough]
  rename_i filled
  rw [if_neg (by omega),if_neg (by omega)]
  split
  · rename_i five_set
    obtain ⟨subids,_,ran⟩ := subids_run nSubid.toNat 5 data length room small
    rw [safe_fill,safe_bind_ok ran,subids_safe nSubid.toNat 5 data length room small inside,expandedLength,
      if_pos five_set]
    simp only [safe_pure,and_true,sizeofOid]
    omega
  rename_i plain
  rw [subids_safe nSubid.toNat 0 data length room small inside,expandedLength,if_neg plain]
  simp only [sizeofOid]
  omega

theorem fetchInclude_run : ∃ included, (fetchInclude inc offset).run (packet memory) = .ok included := by
  cases inc with
  | false => exact ⟨0,rfl⟩
  | true => exact ⟨memory offset,rfl⟩

theorem fetchInclude_safe (inside : offset < n) : Safe memory n (fetchInclude inc offset) := by
  cases inc with
  | false => exact safe_pure
  | true => exact Interaction.each_perform.mpr inside

theorem oid_accepts (small : n < 2^64) (accepted : OidAccepted memory n oidLen data) :
    ∃ included subids, subids.length ≤ max 2 oidLen ∧
      (agentxParseOid data (n-data) inc buffer oidLen order).run (packet memory) =
        .ok ⟨oidEnd memory data,n-oidEnd memory data,included,subids⟩ := by
  obtain ⟨header,capacity,whole⟩ := accepted
  rw [oidEnd] at whole ⊢
  obtain ⟨included,flag⟩ := fetchInclude_run
  obtain ⟨subids,size,ran⟩ := oidBody_accepts (show 4*(memory data).toNat ≤ n-data-4 by omega)
    (by omega) capacity
  refine ⟨included,subids,size,?_⟩
  rw [agentxParseOid,if_neg (by omega),run_fetch,run_fetch,run_bind_ok _ flag,run_reduce,reduced (by omega) (by omega),
    run_bind_ok _ ran,show n-data-4-4*(memory data).toNat = n-(data+4+4*(memory data).toNat) by omega]
  rfl

section
variable (small : n < 2^64) (below : data ≤ n)
include small below

theorem oid_rejects (rejected : ¬ OidAccepted memory n oidLen data) :
    (agentxParseOid data (n-data) inc buffer oidLen order).run (packet memory) = .error .parseErr := by
  rw [agentxParseOid]
  split
  · rfl
  rename_i header
  obtain ⟨included,flag⟩ := fetchInclude_run
  rw [run_fetch,run_fetch,run_bind_ok _ flag,run_reduce,reduced (by omega) (by omega),oidBody_rejects]
  · rfl
  · rintro ⟨capacity,room⟩
    exact rejected ⟨by omega,capacity,by rw [oidEnd]; omega⟩

theorem oid_safe (enough : 2*sizeofOid ≤ buffer.size) :
    Safe memory n (agentxParseOid data (n-data) inc buffer oidLen order) ↔
      (OidAccepted memory n oidLen data → sizeofOid*oidLength memory data ≤ buffer.size) := by
  rw [agentxParseOid]
  split
  · rename_i header
    simp only [safe_fail,true_iff]
    rintro ⟨whole,_⟩
    omega
  rename_i header
  obtain ⟨included,flag⟩ := fetchInclude_run
  rw [safe_fetch,safe_fetch,safe_bind_ok flag,safe_reduce,reduced (by omega) (by omega)]
  have looks : Safe memory n (fetchInclude inc (data+2)) := fetchInclude_safe (by omega)
  by_cases accepted : OidAccepted memory n oidLen data
  · obtain ⟨_,capacity,whole⟩ := accepted
    rw [oidEnd] at whole
    obtain ⟨subids,_,ran⟩ := oidBody_accepts (show 4*(memory data).toNat ≤ n-data-4 by omega)
      (by omega) capacity
    rw [safe_bind_ok ran,oidBody_safe enough (by omega) (by omega) (by omega) capacity]
    simp only [safe_pure,and_true,true_and,looks,oidLength]
    constructor
    · intro all _
      exact all.2.2.2
    · intro all
      exact ⟨by omega,by omega,by omega,all ⟨by omega,capacity,whole⟩⟩
  · have rejects : ¬ (expandedLength (memory data) (memory (data+1)) ≤ oidLen ∧ 4*(memory data).toNat ≤ n-data-4) := by
      rintro ⟨capacity,room⟩
      exact accepted ⟨by omega,capacity,by rw [oidEnd]; omega⟩
    rw [oidBody_rejects rejects]
    have stops : Safe memory n ((fail Fault.parseErr : Parser (Parsed (List Nat))) >>= fun body =>
        pure (⟨body.data,body.length,included,body.value⟩ : Parsed (UInt8 × List Nat))) := safe_fail
    simp only [looks,stops,accepted,and_true,true_and,false_implies,iff_true]
    omega

theorem name_safe (own : buffer.size = maxOidLen*sizeofOid) :
    Safe memory n (agentxParseOid data (n-data) inc buffer maxOidLen order) := by
  have enough : 2*sizeofOid ≤ buffer.size := by rw [own]; decide
  rw [oid_safe small below enough]
  intro accepted
  have size := accepted.2.1
  simp only [own,sizeofOid,maxOidLen] at size ⊢
  omega

-- A name is read first, and what follows it only when it was accepted.
theorem safe_named {follow : Parsed (UInt8 × List Nat) → Parser α} (fits : Prop)
    (rest : ∀ included subids, subids.length ≤ max 2 maxOidLen → OidAccepted memory n maxOidLen data →
      (Safe memory n (follow ⟨oidEnd memory data,n-oidEnd memory data,included,subids⟩) ↔ fits)) :
    Safe memory n (agentxParseOid data (n-data) inc .oid maxOidLen order >>= follow) ↔
      (OidAccepted memory n maxOidLen data → fits) := by
  have named : Safe memory n (agentxParseOid data (n-data) inc .oid maxOidLen order) := name_safe small below rfl
  by_cases accepted : OidAccepted memory n maxOidLen data
  · obtain ⟨included,subids,size,ran⟩ := oid_accepts small accepted
    rw [safe_bind_ok ran,rest included subids size accepted]
    exact ⟨fun all _ => all.2,fun fits => ⟨named,fits accepted⟩⟩
  · rw [safe_bind_error (oid_rejects small below accepted)]
    exact ⟨fun _ wrong => absurd wrong accepted,fun _ => named⟩

end

def stringLength (memory : Memory) (order : Bool) (data : Nat) : Nat := cUint (word memory order data)
def stringEnd (memory : Memory) (order : Bool) (data : Nat) : Nat := data+4+(stringLength memory order data+3) / 4*4

-- A string whose octets are all there, the padding apart, and not more than the buffer has.
def StringAccepted (memory : Memory) (order : Bool) (n data : Nat) : Prop :=
  data+4 ≤ n ∧ stringLength memory order data ≤ snmpMaxMsgSize ∧ data+4+stringLength memory order data ≤ n

-- The zero behind the string fits into the buffer too, and the padding is there.
def StringFits (memory : Memory) (order : Bool) (n data : Nat) : Prop :=
  StringAccepted memory order n data → stringLength memory order data < snmpMaxMsgSize ∧ stringEnd memory order data ≤ n

theorem string_checks (header : data+4 ≤ n) :
    StringAccepted memory order n data ↔ ¬ n-data < (stringLength memory order data+4)%2^32 ∧
      ¬ snmpMaxMsgSize < stringLength memory order data := by
  rw [StringAccepted,snmpMaxMsgSize]
  constructor
  · rintro ⟨_,size,whole⟩
    exact ⟨by omega,by omega⟩
  · rintro ⟨whole,size⟩
    exact ⟨header,by omega,by omega⟩

theorem string_run (header : data+4 ≤ n) : (agentxParseString data (n-data) snmpMaxMsgSize order).run (packet memory) =
    if n-data < (stringLength memory order data+4)%2^32 then .error .parseErr
    else if snmpMaxMsgSize < stringLength memory order data then .error .parseErr
    else (storeString (stringLength memory order data) data (n-data)).run (packet memory) := by
  rw [agentxParseString,if_neg (by omega),run_bind_ok _ run_agentxParseInt]
  change (if n-data < (stringLength memory order data+4)%2^32 then .fail .parseErr
    else if snmpMaxMsgSize < stringLength memory order data then .fail .parseErr
    else storeString (stringLength memory order data) data (n-data) : Parser (Parsed (List UInt8))).run (packet memory) = _
  split
  · rfl
  · split <;> rfl

theorem string_accepts (small : n < 2^64) (accepted : StringAccepted memory order n data)
    (fits : stringEnd memory order data ≤ n) : ∃ octets,
      (agentxParseString data (n-data) snmpMaxMsgSize order).run (packet memory) =
        .ok ⟨stringEnd memory order data,n-stringEnd memory order data,octets⟩ := by
  obtain ⟨first,second⟩ := (string_checks accepted.1).mp accepted
  obtain ⟨header,size,_⟩ := accepted
  rw [snmpMaxMsgSize] at size
  rw [stringEnd] at fits ⊢
  refine ⟨slice memory (data+4) (stringLength memory order data),?_⟩
  rw [string_run header,if_neg first,if_neg second,storeString,run_bind_ok _ (run_fetchMany _ _),run_fill,run_fill,run_reduce,
    Nat.mod_eq_of_lt (by omega),reduced (by omega) (by omega),
    show n-data-((stringLength memory order data+3) / 4*4+4) = n-(data+4+(stringLength memory order data+3) / 4*4) by omega,
    show data+((stringLength memory order data+3) / 4*4+4) = data+4+(stringLength memory order data+3) / 4*4 by omega]
  rfl

theorem string_rejects (below : data ≤ n) (rejected : ¬ StringAccepted memory order n data) :
    (agentxParseString data (n-data) snmpMaxMsgSize order).run (packet memory) = .error .parseErr := by
  by_cases header : data+4 ≤ n
  · rw [string_run header]
    rw [string_checks header] at rejected
    split
    · rfl
    · rename_i whole
      rw [if_pos (not_not.mp fun size => rejected ⟨whole,size⟩)]
  · rw [agentxParseString,if_pos (by omega)]
    rfl

theorem string_safe (below : data ≤ n) :
    Safe memory n (agentxParseString data (n-data) snmpMaxMsgSize order) ↔ StringFits memory order n data := by
  by_cases header : data+4 ≤ n
  · have start : Safe memory n (agentxParseString data (n-data) snmpMaxMsgSize order) ↔ data+4 ≤ n ∧ Safe memory n
        (if n-data < (stringLength memory order data+4)%2^32 then .fail .parseErr
          else if snmpMaxMsgSize < stringLength memory order data then .fail .parseErr
          else storeString (stringLength memory order data) data (n-data)) := by
      rw [agentxParseString,if_neg (by omega),safe_bind_int]
      rfl
    rw [start,StringFits,string_checks header]
    split
    · rename_i short
      exact ⟨fun _ both => absurd short both.1,fun _ => ⟨header,safe_fail⟩⟩
    split
    · rename_i long
      exact ⟨fun _ both => absurd long both.2,fun _ => ⟨header,safe_fail⟩⟩
    rename_i whole size
    rw [storeString,safe_bind_ok (run_fetchMany _ _),safe_fetchMany,safe_fill,safe_fill,safe_reduce]
    simp only [safe_pure,and_true,Buffer.size,stringEnd,snmpMaxMsgSize] at *
    omega
  · rw [agentxParseString,if_pos (by omega),StringFits]
    simp only [safe_fail,true_iff]
    rintro ⟨whole,_⟩
    exact absurd whole header

-- What the value of a type asks of the packet and of the buffer, where it starts.
def ValueFits (memory : Memory) (order : Bool) (n type data : Nat) : Prop :=
  match wireKind type with
  | .int => data+4 ≤ n
  | .counter64 => data+8 ≤ n
  | .string | .opaqueString => StringFits memory order n data
  | .objid => OidAccepted memory n snmpMaxMsgSize data → sizeofOid*oidLength memory data ≤ snmpMaxMsgSize
  | _ => True

def ValueEnds (memory : Memory) (order : Bool) (n type data next : Nat) : Prop :=
  match wireKind type with
  | .int => next = data+4
  | .counter64 => next = data+8
  | .string | .opaqueString => StringAccepted memory order n data ∧ next = stringEnd memory order data
  | .objid => OidAccepted memory n snmpMaxMsgSize data ∧ next = oidEnd memory data
  | .empty => next = data
  | _ => False

theorem contentSize_small : contentSize content ≤ Buffer.size .value := by
  cases content <;> simp [contentSize,Buffer.size,snmpMaxMsgSize,sizeofFloat,sizeofDouble]

section
variable (small : n < 2^64) (below : data ≤ n)
include small below

theorem value_safe :
    Safe memory n (parseValue type data (n-data) snmpMaxMsgSize order) ↔ ValueFits memory order n type data := by
  unfold parseValue ValueFits
  cases wireKind type with
  | int =>
    rw [safe_bind_int,safe_fill,safe_reduce]
    simp only [safe_pure,and_true,Buffer.size,snmpMaxMsgSize]
    omega
  | counter64 =>
    rw [safe_bind_int,safe_bind_int,safe_fill,safe_reduce]
    simp only [safe_pure,and_true,Buffer.size,snmpMaxMsgSize,sizeofCounter64]
    omega
  | string =>
    rw [safe_map,string_safe below]
  | opaqueString =>
    rw [agentxParseOpaque,safe_bind_always,string_safe below]
    intro string
    refine safe_fill.mpr ⟨?_,safe_pure⟩
    rw [zero_add]
    exact contentSize_small
  | objid =>
    rw [safe_map,oid_safe small below (by decide)]
    rfl
  | empty | float | double | opaque64 | unsupported => simp

omit small below in
theorem valueEnds_unique (first : ValueEnds memory order n type data next) (second : ValueEnds memory order n type data other) :
    next = other := by
  unfold ValueEnds at first second
  split at first <;> simp_all

theorem value_outcome (fits : ValueFits memory order n type data) :
    (∃ next content, ValueEnds memory order n type data next ∧ data ≤ next ∧ next ≤ n ∧
      (parseValue type data (n-data) snmpMaxMsgSize order).run (packet memory) = .ok ⟨next,n-next,content⟩) ∨
    ((∀ next, ¬ ValueEnds memory order n type data next) ∧
      (parseValue type data (n-data) snmpMaxMsgSize order).run (packet memory) = .error .parseErr) := by
  unfold parseValue ValueEnds
  unfold ValueFits at fits
  cases kind : wireKind type with
  | int =>
    simp only [kind] at fits ⊢
    refine .inl ⟨data+4,(UInt8.ofNat type,.int (cUint (word memory order data))),rfl,by omega,fits,?_⟩
    rw [run_bind_ok _ run_agentxParseInt,run_fill,run_reduce,reduced (by omega) (by omega),sub_sub]
    rfl
  | counter64 =>
    simp only [kind] at fits ⊢
    refine .inl ⟨data+8,?_,rfl,by omega,fits,?ran⟩
    case ran =>
      rw [run_bind_ok _ run_agentxParseInt,run_bind_ok _ run_agentxParseInt,run_fill,run_reduce,
        reduced (by omega) (by omega),sub_sub]
      rfl
  | string | opaqueString =>
    simp only [kind,agentxParseOpaque] at fits ⊢
    by_cases accepted : StringAccepted memory order n data
    · obtain ⟨octets,ran⟩ := string_accepts small accepted (fits accepted).2
      exact .inl ⟨stringEnd memory order data,_,⟨accepted,rfl⟩,by rw [stringEnd]; omega,(fits accepted).2,run_bind_ok _ ran⟩
    · refine .inr ⟨fun next ends => accepted ends.1,?_⟩
      rw [run_bind_error _ (string_rejects below accepted)]
  | objid =>
    by_cases accepted : OidAccepted memory n snmpMaxMsgSize data
    · obtain ⟨included,subids,_,ran⟩ := oid_accepts small accepted
      exact .inl ⟨oidEnd memory data,_,⟨accepted,rfl⟩,by rw [oidEnd]; omega,accepted.2.2,run_bind_ok _ ran⟩
    · refine .inr ⟨fun next ends => accepted ends.1,?_⟩
      rw [run_bind_error _ (oid_rejects small below accepted)]
  | empty => exact .inl ⟨data,_,rfl,le_rfl,below,rfl⟩
  | float | double | opaque64 | unsupported => exact .inr ⟨fun _ ends => ends,rfl⟩

def VarbindFits (memory : Memory) (order : Bool) (n data : Nat) : Prop :=
  data+4 ≤ n ∧ (OidAccepted memory n maxOidLen (data+4) →
    ValueFits memory order n (short memory order data) (oidEnd memory (data+4)))

def VarbindEnds (memory : Memory) (order : Bool) (n data next : Nat) : Prop :=
  OidAccepted memory n maxOidLen (data+4) ∧ ValueEnds memory order n (short memory order data) (oidEnd memory (data+4)) next

theorem varbind_safe : Safe memory n (parseBinding order data (n-data)) ↔ VarbindFits memory order n data := by
  rw [parseBinding,safe_map,agentxParseVarbind,safe_bind_short,safe_reduce,VarbindFits]
  by_cases header : data+4 ≤ n
  · rw [reduced (by omega) (by omega),sub_sub,
      safe_named small header (ValueFits memory order n (short memory order data) (oidEnd memory (data+4)))]
    · exact ⟨fun all => ⟨header,all.2.2⟩,fun all => ⟨by omega,by omega,all.2⟩⟩
    · intro included subids _ accepted
      rw [safe_map,value_safe small accepted.2.2]
  · exact ⟨fun all => by omega,fun all => absurd all.1 header⟩

end

theorem varbind_outcome (small : n < 2^64) (fits : VarbindFits memory order n data) :
    (∃ next found, VarbindEnds memory order n data next ∧ data < next ∧ next ≤ n ∧
      (parseBinding order data (n-data)).run (packet memory) = .ok ⟨next,n-next,found⟩) ∨
    ((∀ next, ¬ VarbindEnds memory order n data next) ∧
      (parseBinding order data (n-data)).run (packet memory) = .error .parseErr) := by
  obtain ⟨header,valued⟩ := fits
  have start : (agentxParseVarbind data (n-data) maxOidLen snmpMaxMsgSize order).run (packet memory) = ((do
      let name ← agentxParseOid (data+4) (n-(data+4)) false .oid maxOidLen order
      let value ← parseValue (short memory order data) name.data name.length snmpMaxMsgSize order
      return ⟨value.data,value.length,name.value.2,value.value⟩) : Parser (Parsed (List Nat × UInt8 × Content))).run (packet memory) := by
    rw [agentxParseVarbind,run_bind_ok _ run_agentxParseShort,run_reduce,reduced (by omega) (by omega),sub_sub]
    rfl
  by_cases accepted : OidAccepted memory n maxOidLen (data+4)
  · obtain ⟨included,subids,_,ran⟩ := oid_accepts small accepted
    rw [run_bind_ok _ ran] at start
    rcases value_outcome small accepted.2.2 (valued accepted) with ⟨next,content,ends,after,inside,parsed⟩ | ⟨none,stopped⟩
    · rw [run_bind_ok _ parsed] at start
      rw [oidEnd] at after
      exact .inl ⟨next,_,⟨accepted,ends⟩,by omega,inside,run_bind_ok _ start⟩
    · rw [run_bind_error _ stopped] at start
      exact .inr ⟨fun next ends => none next ends.2,run_bind_error _ start⟩
  · rw [run_bind_error _ (oid_rejects small header accepted)] at start
    exact .inr ⟨fun next ends => accepted ends.1,run_bind_error _ start⟩

inductive Reached (memory : Memory) (order : Bool) (n start : Nat) : Nat → Prop where
  | start : Reached memory order n start start
  | next (before : Reached memory order n start data) (more : data < n) (ends : VarbindEnds memory order n data after) :
      Reached memory order n start after

def VarbindsFit (memory : Memory) (order : Bool) (n start : Nat) : Prop :=
  ∀ data, Reached memory order n start data → data < n → VarbindFits memory order n data

theorem reached_later (more : data < n) (ends : VarbindEnds memory order n data after)
    (later : Reached memory order n after place) : Reached memory order n data place := by
  induction later with
  | start => exact .next .start more ends
  | next _ inside follows ih => exact .next ih inside follows

theorem reached_cases (later : Reached memory order n data place) :
    place = data ∨ ∃ after, VarbindEnds memory order n data after ∧ Reached memory order n after place := by
  induction later with
  | start => exact .inl rfl
  | next _ inside follows ih =>
    rcases ih with rfl | ⟨after,ends,rest⟩
    · exact .inr ⟨_,follows,.start⟩
    · exact .inr ⟨after,ends,.next rest inside follows⟩

theorem varbindsFit_step (more : data < n) : VarbindsFit memory order n data ↔
    VarbindFits memory order n data ∧ ∀ next, VarbindEnds memory order n data next → VarbindsFit memory order n next := by
  constructor
  · intro all
    exact ⟨all data .start more,fun next ends place later inside => all place (reached_later more ends later) inside⟩
  rintro ⟨here,rest⟩ place later inside
  rcases reached_cases later with rfl | ⟨after,ends,onward⟩
  · exact here
  · exact rest after ends place onward inside

theorem varbindsFit_done : VarbindsFit memory order n n := by
  intro place later inside
  have never : ∀ place, Reached memory order n n place → ¬ place < n := by
    intro place later
    induction later with
    | start => exact lt_irrefl n
    | next _ before _ ih => exact absurd before ih
  exact absurd inside (never place later)

theorem varbinds_safe (memory : Memory) (order : Bool) (small : n < 2^64) : ∀ rounds data, data ≤ n → n-data ≤ rounds →
    (Safe memory n (parseVarbinds order rounds data (n-data)) ↔ VarbindsFit memory order n data)
  | 0,data,below,enough => by
    have last : data = n := by omega
    subst last
    rw [parseVarbinds,parseList,Nat.sub_self,if_neg (Nat.lt_irrefl 0)]
    exact ⟨fun _ => varbindsFit_done,fun _ => safe_pure⟩
  | rounds+1,data,below,enough => by
    rw [parseVarbinds,parseList]
    by_cases more : data < n
    · rw [if_pos (by omega),varbindsFit_step more]
      by_cases fits : VarbindFits memory order n data
      · rcases varbind_outcome small fits with ⟨next,found,ends,after,inside,ran⟩ | ⟨none,stopped⟩
        · rw [safe_bind_ok ran,varbind_safe small below,safe_map]
          have rest := varbinds_safe memory order small rounds next inside (by omega)
          rw [parseVarbinds] at rest
          rw [rest]
          refine and_congr_right fun _ => ⟨fun all other others => ?_,fun all => all next ends⟩
          rwa [← valueEnds_unique ends.2 others.2]
        · rw [safe_bind_error stopped,varbind_safe small below]
          exact ⟨fun _ => ⟨fits,fun next ends => absurd ends (none next)⟩,fun all => all.1⟩
      · have breaks : ¬ Safe memory n (parseBinding order data (n-data)) := by
          rw [varbind_safe small below]
          exact fits
        constructor
        · intro all
          exact absurd (each_bind.mp all).1 breaks
        · intro all
          exact absurd all.1 fits
    · have last : data = n := by omega
      subst last
      rw [Nat.sub_self,if_neg (Nat.lt_irrefl 0)]
      exact ⟨fun _ => varbindsFit_done,fun _ => safe_pure⟩

theorem range_safe (small : n < 2^64) (below : data ≤ n) : Safe memory n (parseSearchRange order data (n-data)) := by
  refine (safe_named small below True fun included subids _ accepted => ?_).mpr fun _ => trivial
  rw [safe_map]
  exact iff_true_intro (name_safe small accepted.2.2 rfl)

theorem range_outcome (small : n < 2^64) (below : data ≤ n) :
    (∃ next found, data < next ∧ next ≤ n ∧ (parseSearchRange order data (n-data)).run (packet memory) = .ok ⟨next,n-next,found⟩) ∨
      (parseSearchRange order data (n-data)).run (packet memory) = .error .parseErr := by
  by_cases accepted : OidAccepted memory n maxOidLen data
  · obtain ⟨included,subids,_,ran⟩ := oid_accepts small accepted
    by_cases ended : OidAccepted memory n maxOidLen (oidEnd memory data)
    · obtain ⟨_,stop,_,finished⟩ := oid_accepts small ended
      refine .inl ⟨oidEnd memory (oidEnd memory data),_,?_,ended.2.2,(run_bind_ok _ ran).trans (run_bind_ok _ finished)⟩
      rw [oidEnd,oidEnd]
      omega
    · exact .inr ((run_bind_ok _ ran).trans
        (run_bind_error _ (oid_rejects small accepted.2.2 ended)))
  · exact .inr (run_bind_error _ (oid_rejects small below accepted))

theorem ranges_safe (small : n < 2^64) : ∀ rounds data, data ≤ n →
    Safe memory n (parseSearchRanges order rounds data (n-data))
  | 0,data,below => by
    rw [parseSearchRanges,parseList]
    split
    · exact safe_fail
    · exact safe_pure
  | rounds+1,data,below => by
    rw [parseSearchRanges,parseList]
    split
    · rcases range_outcome small below with ⟨next,found,_,inside,ran⟩ | stopped
      · rw [safe_bind_ok ran,safe_map]
        exact ⟨range_safe small below,ranges_safe small rounds next inside⟩
      · rw [safe_bind_error stopped]
        exact range_safe small below
    · exact safe_pure

def DescribedFits (memory : Memory) (order : Bool) (n data : Nat) : Prop :=
  OidAccepted memory n maxOidLen data → StringFits memory order n (oidEnd memory data)

section
variable (small : n < 2^64) (below : data ≤ n)
include small below

theorem described_safe : Safe memory n (parseDescribed data (n-data) order) ↔ DescribedFits memory order n data := by
  refine safe_named small below _ fun included subids _ accepted => ?_
  rw [safe_map,string_safe accepted.2.2]

-- The bound of a range is there, and its place is one of the 128 of an object identifier.
def RegionFits (memory : Memory) (n rangeSubid data : Nat) : Prop :=
  OidAccepted memory n maxOidLen data → rangeSubid ≠ 0 → oidEnd memory data+4 ≤ n ∧ rangeSubid ≤ maxOidLen

theorem region_safe :
    Safe memory n (parseRegion data (n-data) (rangeSubid : Nat) order) ↔ RegionFits memory n rangeSubid data := by
  refine safe_named small below _ fun included subids size accepted => ?_
  by_cases ranged : rangeSubid = 0
  · rw [if_neg (by omega)]
    exact ⟨fun _ nonzero => absurd ranged nonzero,fun _ => safe_pure⟩
  rw [if_pos (by omega),safe_bind_int,safe_reduce,safe_fill,safe_fill]
  have place : ((rangeSubid : Int)-1).toNat = rangeSubid-1 := by omega
  rw [place]
  have copied : 0+subids.length*sizeofOid ≤ Buffer.size .endOid := by
    simp only [Buffer.size,sizeofOid,maxOidLen] at size ⊢
    omega
  have stored : (rangeSubid-1)*sizeofOid+sizeofOid ≤ Buffer.size .endOid ↔ rangeSubid ≤ maxOidLen := by
    simp only [Buffer.size,sizeofOid,maxOidLen]
    omega
  rw [stored]
  constructor
  · rintro ⟨bound,_,_,few,_⟩ _
    exact ⟨bound,few⟩
  · intro fits
    obtain ⟨bound,few⟩ := fits ranged
    exact ⟨bound,show 4 ≤ n-oidEnd memory data by omega,copied,few,safe_pure⟩

def BodyFits (memory : Memory) (order : Bool) (n : Nat) (command : Command) (data : Nat) : Prop :=
  match command with
  | .msgOpen => data+4 ≤ n ∧ DescribedFits memory order n (data+4)
  | .msgClose => data+4 ≤ n
  | .msgRegister | .msgUnregister => data+4 ≤ n ∧ RegionFits memory n (memory (data+2)).toNat (data+4)
  | .msgGetbulk => data+4 ≤ n
  | .msgResponse => data+8 ≤ n ∧ VarbindsFit memory order n (data+8)
  | .msgIndexAllocate | .msgIndexDeallocate | .msgNotify | .msgTestset => VarbindsFit memory order n data
  | .msgAddAgentCaps => DescribedFits memory order n data
  | _ => True

theorem body_safe (flag : pdu.flags.has networkByteOrder = order) :
    Safe memory n (parseBody pdu data (n-data)) ↔ BodyFits memory order n pdu.command data := by
  unfold parseBody
  simp only [flag]
  cases pdu.command with
  | msgOpen =>
    rw [safe_fetch,safe_reduce]
    by_cases header : data+4 ≤ n
    · rw [reduced (by omega) (by omega),sub_sub,safe_map,described_safe small header]
      exact ⟨fun all => ⟨header,all.2.2⟩,fun all => ⟨by omega,by omega,all.2⟩⟩
    · exact ⟨fun all => by omega,fun all => absurd all.1 header⟩
  | msgClose =>
    simp only [BodyFits]
    rw [safe_fetch,safe_reduce]
    simp only [safe_pure,and_true]
    omega
  | msgRegister =>
    rw [safe_fetch,safe_fetch,safe_fetch,safe_reduce]
    by_cases header : data+4 ≤ n
    · rw [reduced (by omega) (by omega),sub_sub,safe_map,region_safe small header]
      exact ⟨fun all => ⟨header,all.2.2.2.2⟩,fun all => ⟨by omega,by omega,by omega,by omega,all.2⟩⟩
    · exact ⟨fun all => by omega,fun all => absurd all.1 header⟩
  | msgUnregister =>
    rw [safe_fetch,safe_fetch,safe_reduce]
    by_cases header : data+4 ≤ n
    · rw [reduced (by omega) (by omega),sub_sub,safe_map,region_safe small header]
      exact ⟨fun all => ⟨header,all.2.2.2⟩,fun all => ⟨by omega,by omega,by omega,all.2⟩⟩
    · exact ⟨fun all => by omega,fun all => absurd all.1 header⟩
  | msgGetbulk =>
    rw [safe_bind_short,safe_bind_short,safe_reduce]
    by_cases header : data+4 ≤ n
    · rw [reduced (by omega) (by omega),sub_sub,safe_map]
      exact ⟨fun _ => header,fun _ => ⟨by omega,by omega,by omega,ranges_safe small _ _ header⟩⟩
    · exact ⟨fun all => by omega,fun all => absurd all header⟩
  | msgGet | msgGetnext =>
    simp only [BodyFits,iff_true]
    rw [safe_map]
    exact ranges_safe small _ _ below
  | msgResponse =>
    rw [safe_bind_int,safe_reduce,safe_bind_short,safe_bind_short,safe_reduce]
    by_cases header : data+8 ≤ n
    · rw [reduced (by omega) (by omega),reduced (by omega) (by omega),sub_sub,sub_sub,
        safe_map,varbinds_safe memory order small _ _ header le_rfl]
      exact ⟨fun all => ⟨header,all.2.2.2.2.2⟩,fun all => ⟨by omega,by omega,by omega,by omega,by omega,all.2⟩⟩
    · refine ⟨fun all => ?_,fun all => absurd all.1 header⟩
      omega
  | msgIndexAllocate | msgIndexDeallocate | msgNotify | msgTestset =>
    simp only [BodyFits]
    rw [safe_map,varbinds_safe memory order small _ _ below le_rfl]
  | msgAddAgentCaps =>
    simp only [BodyFits]
    rw [safe_map,described_safe small below]
  | msgRemoveAgentCaps =>
    simp only [BodyFits,iff_true]
    rw [safe_map]
    exact name_safe small below rfl
  | msgCommitset | msgUndoset | msgCleanupset | msgPing | unknown => simp [BodyFits]

end

def headerFlags (pdu : Pdu) (memory : Memory) : Flags := pdu.flags ||| BitVec.ofNat 64 (memory 2).toNat

-- The packet is whole when the payload length of its header, an int, is that of the rest.
def Whole (pdu : Pdu) (memory : Memory) (n : Nat) : Prop :=
  20 ≤ n ∧ n-20 = cUlong (word memory ((headerFlags pdu memory).has networkByteOrder) 16)

section
variable (small : n < 2^64)
include small

theorem header_safe : Safe memory n (agentxParseHeader pdu 0 n) := by
  rw [agentxParseHeader]
  split
  · exact safe_fail
  rename_i long
  rw [safe_fetch,safe_fetch,safe_fetch,parseHeaderWords,safe_bind_int,safe_bind_int,safe_bind_int,safe_bind_int,safe_reduce]
  refine ⟨by omega,by omega,by omega,by omega,by omega,by omega,by omega,by omega,?_⟩
  split
  · exact safe_fail
  · exact safe_pure

theorem headerWords_run (long : 20 ≤ n) : (parseHeaderWords base data n).run (packet memory) =
      if n-20 = cUlong (word memory (base.flags.has networkByteOrder) (data+12)) then
        .ok ⟨data+16,n-20,{ base with sessid := word memory (base.flags.has networkByteOrder) data, transid := word memory (base.flags.has networkByteOrder) (data+4), reqid := word memory (base.flags.has networkByteOrder) (data+8) }⟩
      else .error .incompletePacket := by
  rw [parseHeaderWords,run_bind_ok _ word_run,run_bind_ok _ word_run,
    run_bind_ok _ word_run,run_bind_ok _ word_run,run_reduce,reduced long small]
  by_cases payload : n-20 = cUlong (word memory (base.flags.has networkByteOrder) (data+12))
  · rw [if_pos payload,if_neg (fun other => other payload)]
    rfl
  · rw [if_neg payload,if_pos payload]
    rfl

theorem header_run : ∃ base : Pdu, base.flags = headerFlags pdu memory ∧ base.command = Command.ofOctet (memory 1) ∧
      (Whole pdu memory n → (agentxParseHeader pdu 0 n).run (packet memory) = .ok ⟨20,n-20,base⟩) ∧
      (¬ Whole pdu memory n → (agentxParseHeader pdu 0 n).run (packet memory) = .error .incompletePacket) := by
  obtain ⟨start,flags,command,same⟩ : ∃ start : Pdu, start.flags = headerFlags pdu memory ∧ start.command = Command.ofOctet (memory 1) ∧
      (20 ≤ n → (agentxParseHeader pdu 0 n).run (packet memory) = (parseHeaderWords start 4 n).run (packet memory)) := by
    refine ⟨{ pdu with version := agentxVersionBase ||| (memory 0).toNat, command := Command.ofOctet (memory 1), flags := headerFlags pdu memory },
      rfl,rfl,fun long => ?_⟩
    rw [agentxParseHeader,if_neg (by omega),run_fetch,run_fetch,run_fetch]
    rfl
  refine ⟨{ start with sessid := word memory (start.flags.has networkByteOrder) 4, transid := word memory (start.flags.has networkByteOrder) 8, reqid := word memory (start.flags.has networkByteOrder) 12 },
    flags,command,fun whole => ?_,fun short => ?_⟩
  · rw [same whole.1,headerWords_run small whole.1,if_pos (by rw [flags]; exact whole.2)]
  by_cases long : 20 ≤ n
  · rw [same long,headerWords_run small long,if_neg (fun payload => short ⟨long,by rw [flags] at payload; exact payload⟩)]
  · rw [agentxParseHeader,if_pos (by omega)]
    rfl

end

def PacketFits (pdu : Pdu) (memory : Memory) (n : Nat) : Prop :=
  let order := (headerFlags pdu memory).has networkByteOrder
  let command := Command.ofOctet (memory 1)
  if (headerFlags pdu memory).has nonDefaultContext then
    StringFits memory order n 20 ∧ (StringAccepted memory order n 20 → BodyFits memory order n command (stringEnd memory order 20))
  else BodyFits memory order n command 20

theorem context_safe (small : n < 2^64) (long : 20 ≤ n) (flag : base.flags.has networkByteOrder = order) :
    Safe memory n (do
      let context ← parseContext base 20 (n-20)
      parseBody context.value context.data context.length) ↔
    if base.flags.has nonDefaultContext then
      StringFits memory order n 20 ∧ (StringAccepted memory order n 20 → BodyFits memory order n base.command (stringEnd memory order 20))
    else BodyFits memory order n base.command 20 := by
  by_cases flagged : base.flags.has nonDefaultContext = true
  · rw [if_pos flagged]
    have context : Safe memory n (parseContext base 20 (n-20)) ↔ StringFits memory order n 20 := by
      rw [parseContext,if_pos flagged,flag,safe_map,string_safe long]
    by_cases fits : StringFits memory order n 20
    · by_cases accepted : StringAccepted memory order n 20
      · obtain ⟨octets,ran⟩ := string_accepts small accepted (fits accepted).2
        obtain ⟨named,found,flags,command⟩ : ∃ named : Pdu, (parseContext base 20 (n-20)).run (packet memory) =
              .ok ⟨stringEnd memory order 20,n-stringEnd memory order 20,named⟩ ∧
            named.flags = base.flags ∧ named.command = base.command := by
          rw [parseContext,if_pos flagged,flag,run_bind_ok _ ran]
          dsimp only
          split <;> exact ⟨_,rfl,rfl,rfl⟩
        rw [safe_bind_ok found,context,body_safe small (fits accepted).2 (by rw [flags,flag]),command]
        exact ⟨fun all => ⟨fits,fun _ => all.2⟩,fun all => ⟨fits,all.2 accepted⟩⟩
      · have stopped : (parseContext base 20 (n-20)).run (packet memory) = .error .parseErr := by
          rw [parseContext,if_pos flagged,flag,run_bind_error _ (string_rejects long accepted)]
        rw [safe_bind_error stopped,context]
        exact ⟨fun _ => ⟨fits,fun wrong => absurd wrong accepted⟩,fun _ => fits⟩
    · exact ⟨fun all => absurd (context.mp (each_bind.mp all).1) fits,fun all => absurd all.1 fits⟩
  · rw [if_neg flagged,parseContext,if_neg flagged]
    exact body_safe small long flag

-- What agentx_parse does to the flags does not change the two that it looks at.
theorem control_kept (flags : Flags) :
    ((flags ||| ucdAlwaysInView ||| ucdForcePduCopy) &&& ~~~ucdResponsePdu).has networkByteOrder = flags.has networkByteOrder ∧
      ((flags ||| ucdAlwaysInView ||| ucdForcePduCopy) &&& ~~~ucdResponsePdu).has nonDefaultContext = flags.has nonDefaultContext := by
  rw [has_order,has_order,has_context,has_context]
  exact ⟨control_bit (by decide),control_bit (by decide)⟩

-- Inside of the packet exactly when the packet has what the parser looks for.
theorem agentxParse_inside (sessionVersion : Nat) (pdu : Pdu) (memory : Memory) (n : Nat) (small : n < 2^64) :
    Safe memory n (agentxParse sessionVersion pdu n) ↔
      (sessionVersion &&& agentxVersionBase = agentxVersionBase → Whole pdu memory n → PacketFits pdu memory n) := by
  rw [agentxParse]
  split
  · rename_i other
    exact ⟨fun _ agentx => absurd agentx other,fun _ => safe_fail⟩
  rename_i agentx
  obtain ⟨base,flags,command,accepts,rejects⟩ := header_run small
  by_cases whole : Whole pdu memory n
  · rw [safe_bind_ok (accepts whole)]
    obtain ⟨order,context⟩ := control_kept base.flags
    obtain ⟨opened,known⟩ : ∃ opened : Pdu,
      { base with flags := (base.flags ||| ucdAlwaysInView ||| ucdForcePduCopy) &&& ~~~ucdResponsePdu } = opened := ⟨_,rfl⟩
    have sameOrder : opened.flags.has networkByteOrder = (headerFlags pdu memory).has networkByteOrder := by
      rw [← known,← flags,← order]
    have sameContext : opened.flags.has nonDefaultContext = (headerFlags pdu memory).has nonDefaultContext := by
      rw [← known,← flags,← context]
    have sameCommand : opened.command = Command.ofOctet (memory 1) := by rw [← known,← command]
    rw [known,context_safe small whole.1 sameOrder,sameContext,sameCommand]
    exact ⟨fun all _ _ => all.2,fun all => ⟨header_safe small,all (not_not.mp agentx) whole⟩⟩
  · rw [safe_bind_error (rejects whole)]
    exact ⟨fun _ _ wrong => absurd wrong whole,fun _ => header_safe small⟩

def closing : List UInt8 := [1,2,0x10,0,0,0,0,1,0,0,0,2,0,0,0,3,0,0,0,4,5,0,0,0]

theorem agentxParse_inside_closing : Safe (image closing) 24 (agentxParse 193 emptyPdu 24) := by
  refine (agentxParse_inside 193 emptyPdu (image closing) 24 (by decide)).mpr fun _ _ => ?_
  have plain : (headerFlags emptyPdu (image closing)).has nonDefaultContext = false := by decide
  have command : Command.ofOctet (image closing 1) = .msgClose := by decide
  simp only [PacketFits,plain,command,Bool.false_eq_true,if_false,BodyFits]
  decide

-- A Close PDU without a reason, and a Register PDU whose range is at sub-identifier 200.
def unfinished : List UInt8 := [1,2,0x10,0,0,0,0,1,0,0,0,2,0,0,0,3,0,0,0,0]
def ranged : List UInt8 := [1,3,0x10,0,0,0,0,1,0,0,0,2,0,0,0,3,0,0,0,16,5,127,200,0,1,0,0,0,0,0,0,1,0,0,0,9]

theorem close_overread : ¬ Safe (image unfinished) 20 (agentxParse 193 emptyPdu 20) ∧
    .read 20 ∈ actionsOf (agentxParse 193 emptyPdu 20) (image unfinished) ∧
    .subtract 0 4 ∈ actionsOf (agentxParse 193 emptyPdu 20) (image unfinished) ∧
    .write .endOid 1592 8 ∈ actionsOf (agentxParse 193 emptyPdu 36) (image ranged) := by
  have events : .read 20 ∈ actionsOf (agentxParse 193 emptyPdu 20) (image unfinished) ∧
      .subtract 0 4 ∈ actionsOf (agentxParse 193 emptyPdu 20) (image unfinished) ∧
      .write .endOid 1592 8 ∈ actionsOf (agentxParse 193 emptyPdu 36) (image ranged) := by decide +kernel
  exact ⟨fun safe => absurd (safe _ events.1) (lt_irrefl 20),events⟩

end NetSnmp.AgentxBounds
