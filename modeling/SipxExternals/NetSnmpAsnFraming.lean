import SipxExternals.NetSnmpAsnParse

namespace NetSnmp.AsnFraming
open Foundations AsnTypes AsnParse
open Interaction (run_bind_eq_ok run_bind_ok run_failWith_ok)
open Probe (Accepts Within accepts_bind accepts_bind_fetch accepts_bind_ok fetch fetchMany run_bind_fetch slice within_bind within_bind_fetch within_fail within_failWith within_fetchMany within_pure)
open List (length_cons mem_cons not_mem_nil)

theorem object_bounds (object : Object memory place data budget length start) :
    place < start ∧ start ≤ place+9 ∧ length ≤ 0x7fffffff ∧ length+(start-data) ≤ budget := by
  have near : place < start ∧ start ≤ place+9 := by
    cases object.extent with
    | short one => omega
    | long count more counted some few small =>
      rw [sizeofLong] at few
      omega
  exact ⟨near.1,near.2,object.room.1,object.room.2.2⟩

theorem object_larger (object : Object memory place data budget length start) (larger : budget ≤ limit) :
    Object memory place data limit length start :=
  ⟨object.extent,object.room.1,object.room.2.1,le_trans object.room.2.2 larger⟩

def special (memory : Memory) (start : Nat) : Prop :=
  memory start = asnOpaqueTag1 ∧ opaqueSpecial (memory (start+1)) = true

-- The identifier and the length of an object. An opaque may have another object as its content.
inductive Headed (memory : Memory) (data budget : Nat) : Header → Prop where
  | bare (plain : memory data &&& asnExtensionId ≠ asnExtensionId)
      (object : Object memory (data+1) data budget length start)
      (whole : memory data = asnOpaque → ¬ special memory start) :
      Headed memory data budget ⟨memory data,length,start⟩
  | wrapped (raw : memory data = asnOpaque) (outer : Object memory (data+1) data budget length start)
      (inside : special memory start) (inner : Object memory (start+2) data budget size next) :
      Headed memory data budget ⟨memory (start+1),size,next⟩

theorem asnParseHeader_ok (parsed : (asnParseHeader data budget).run memory = .ok header) :
    Headed memory data budget header := by
  rw [asnParseHeader,run_bind_fetch] at parsed
  by_cases extension : memory data &&& asnExtensionId = asnExtensionId
  · rw [if_pos extension] at parsed
    cases parsed
  rw [if_neg extension] at parsed
  obtain ⟨length,start,object,rest⟩ := sized_ok parsed
  by_cases raw : memory data = asnOpaque
  · rw [if_pos raw,run_bind_fetch] at rest
    by_cases first : memory start = asnOpaqueTag1
    · rw [if_pos first,run_bind_fetch] at rest
      by_cases second : opaqueSpecial (memory (start+1)) = true
      · rw [if_pos second] at rest
        obtain ⟨inner,next,innerObject,final⟩ := sized_ok rest
        cases final
        exact .wrapped raw object ⟨first,second⟩ innerObject
      · rw [if_neg second] at rest
        cases rest
        exact .bare extension object fun _ inside => second inside.2
    · rw [if_neg first] at rest
      cases rest
      exact .bare extension object fun _ inside => first inside.1
  · rw [if_neg raw] at rest
    cases rest
    exact .bare extension object fun is => absurd is raw

theorem asnParseHeader_iff : (asnParseHeader data budget).run memory = .ok header ↔ Headed memory data budget header := by
  refine ⟨asnParseHeader_ok,fun headed => ?_⟩
  rw [asnParseHeader,run_bind_fetch]
  cases headed with
  | bare plain object whole =>
    rw [if_neg plain,run_sized object]
    split
    · rename_i raw
      rw [run_bind_fetch]
      split
      · rename_i first
        rw [run_bind_fetch,if_neg fun second => whole raw ⟨first,second⟩]
        rfl
      · rfl
    · rfl
  | wrapped raw outer inside inner =>
    rw [raw,if_neg (by decide),run_sized outer,if_pos rfl,run_bind_fetch,if_pos inside.1,run_bind_fetch,if_pos inside.2,
      run_sized inner]
    rfl

theorem asnParseSequence_iff : (asnParseSequence data budget type).run memory = .ok header ↔
    Headed memory data budget header ∧ header.type = type := by
  rw [asnParseSequence,run_bind_eq_ok]
  constructor
  · rintro ⟨found,read,rest⟩
    by_cases same : found.type = type
    · rw [if_neg (not_not.mpr same)] at rest
      cases rest
      exact ⟨asnParseHeader_iff.mp read,same⟩
    · rw [if_pos same] at rest
      cases rest
  · rintro ⟨headed,same⟩
    refine ⟨header,asnParseHeader_iff.mpr headed,?_⟩
    rw [if_neg (not_not.mpr same)]
    rfl

theorem headed_plain (headed : Headed memory data budget header) : memory data &&& asnExtensionId ≠ asnExtensionId := by
  cases headed with
  | bare plain object whole => exact plain
  | wrapped raw outer inside inner =>
    rw [raw]
    decide

theorem headed_bounds (headed : Headed memory data budget header) :
    data+1 < header.next ∧ header.length ≤ 0x7fffffff ∧ header.length+(header.next-data) ≤ budget := by
  cases headed with
  | bare plain object whole =>
    have bounds := object_bounds object
    exact ⟨bounds.1,bounds.2.2⟩
  | wrapped raw outer inside inner =>
    have bounds := object_bounds outer
    have innerBounds := object_bounds inner
    dsimp only
    omega

theorem headed_larger (headed : Headed memory data budget header) (larger : budget ≤ limit) :
    Headed memory data limit header := by
  cases headed with
  | bare plain object whole => exact .bare plain (object_larger object larger) whole
  | wrapped raw outer inside inner =>
    exact .wrapped raw (object_larger outer larger) inside (object_larger inner larger)

def LengthFits (memory : Memory) (data n : Nat) : Prop :=
  data < n ∧ (memory data &&& asnLongLen ≠ 0 → (memory data &&& 0x7f).toNat ≤ sizeofLong →
    data+(memory data &&& 0x7f).toNat < n)

theorem asnParseLength_within : Within n (asnParseLength data) memory ↔ LengthFits memory data n := by
  rw [asnParseLength,within_bind_fetch,LengthFits]
  refine and_congr_right fun inside => ?_
  by_cases short : memory data &&& asnLongLen = 0
  · simp [short]
  rw [if_neg short]
  dsimp only
  split
  · rename_i none
    simp [none,inside]
  split
  · rename_i some long
    simp only [within_fail,true_iff]
    exact fun _ few => absurd few (Nat.not_le.mpr long)
  rename_i some few
  rw [within_bind,within_fetchMany]
  have rest : ∀ octets, Within n (if octetsValue octets ≥ 2^63 then .fail ()
      else pure (octetsValue octets,data+1+(memory data &&& 0x7f).toNat) : Probe Unit (Nat × Nat)) memory := by
    intro octets
    split <;> simp
  simp only [rest,implies_true,and_true]
  constructor
  · intro reach _ _
    omega
  · intro reach
    have last := reach short (Nat.not_lt.mp few)
    omega

theorem sized_within : Within n (sized fault place data budget body) memory ↔ LengthFits memory place n ∧
      ∀ length start, Object memory place data budget length start → Within n (body length start) memory := by
  rw [sized,within_bind,within_failWith,asnParseLength_within]
  refine and_congr_right fun _ => ?_
  constructor
  · intro each length start object
    have part := each (length,start) (run_failWith_ok.mpr object.parsed)
    rw [lengthCheck_false.mpr object.room] at part
    exact part
  · intro each found parsed
    cases checked : asnParseLengthCheck found.2 data found.1 budget with
    | true => exact within_fail _
    | false => exact each found.1 found.2 (object_of_parsed (run_failWith_ok.mp parsed) checked)

theorem sized_within_object (own : Object memory place data budget length start) (fits : LengthFits memory place n) :
    Within n (sized fault place data budget body) memory ↔ Within n (body length start) memory := by
  rw [sized_within]
  refine ⟨fun both => both.2 length start own,fun inside => ⟨fits,fun size begin object => ?_⟩⟩
  obtain ⟨rfl,rfl⟩ := object_unique object own
  exact inside

-- Which content is taken, where the parser goes on, and whether it looks at the first octet of an empty one.
structure Body (memory : Memory) (content peeks : Prop) (data budget length start : Nat) (part : Probe ε (Parsed α)) : Prop where
  accepts : Accepts memory part ↔ content
  ends : ∀ found, part.run memory = .ok found → found.next = start+length ∧ found.left = budget-(length+(start-data))
  within : ∀ n, start+length ≤ n → (Within n part memory ↔ (peeks → length = 0 → start < n))

theorem body_read {value : List UInt8 → α} : Body memory True False data budget length start
    (fetchMany start length >>= fun octets => pure ⟨type,value octets,start+length,budget-(length+(start-data))⟩ : Probe ε _) := by
  refine ⟨by simp,fun found ran => ?_,fun n inside => ?_⟩
  · rw [run_bind_ok _ (Probe.run_fetchMany _ _ _)] at ran
    cases ran
    exact ⟨rfl,rfl⟩
  · simp [within_bind,inside]

theorem body_guard [Decidable refused] {fault : ε} (content : taken ↔ ¬ refused ∧ later)
    (quiet : refused → peeks → length ≠ 0) (rest : Body memory later peeks data budget length start part) :
    Body memory taken peeks data budget length start (if refused then .fail fault else part) := by
  by_cases refusal : refused
  · rw [if_pos refusal]
    exact ⟨by simp [content,refusal],nofun,fun n _ => by simpa using fun peek none => absurd none (quiet refusal peek)⟩
  · rw [if_neg refusal]
    exact ⟨by simp [content,refusal,rest.accepts],rest.ends,rest.within⟩

theorem body_peek {follow : UInt8 → Probe ε (Parsed α)}
    (rest : Body memory content False data budget length start (follow (memory start))) :
    Body memory content True data budget length start (fetch start >>= follow) := by
  refine ⟨rest.accepts,rest.ends,fun n inside => ?_⟩
  rw [within_bind_fetch,rest.within n inside]
  simp only [false_implies,and_true,true_implies]
  omega

-- The octets of a field that are looked at beside its content.
def FieldFits (memory : Memory) (n : Nat) (takes : List UInt8) (peeks : Prop) (data budget : Nat) : Prop :=
  data < n ∧ (memory data ∈ takes → LengthFits memory (data+1) n ∧
    (peeks → ∀ start, Object memory (data+1) data budget 0 start → start < n))

def ContentIn (memory : Memory) (n data budget : Nat) : Prop :=
  ∀ length start, Object memory (data+1) data budget length start → start+length ≤ n

theorem contentIn_budget (inside : data+budget ≤ n) : ContentIn memory n data budget := by
  intro length start object
  have bounds := object_bounds object
  omega

structure Field (memory : Memory) (takes : List UInt8) (peeks : Prop) (content : Nat → Nat → Prop) (data budget : Nat)
    (part : Probe ε (Parsed α)) : Prop where
  accepts : ∀ length start, Object memory (data+1) data budget length start → memory data ∈ takes →
    (Accepts memory part ↔ content length start)
  ends : ∀ found, part.run memory = .ok found → memory data ∈ takes ∧ ∃ length start,
    Object memory (data+1) data budget length start ∧ found.next = start+length ∧ found.left = budget-(length+(start-data))
  within : ∀ n, ContentIn memory n data budget → (Within n part memory ↔ FieldFits memory n takes peeks data budget)

theorem field_body [DecidablePred refuses] {fault : UInt8 → ε} {body : UInt8 → Nat → Nat → Probe ε (Parsed α)}
    (other : ∀ type, refuses type ↔ type ∉ takes)
    (each : ∀ length start, Body memory (content length start) peeks data budget length start (body (memory data) length start)) :
    Field memory takes peeks content data budget (do
      let type ← fetch data
      if refuses type then .fail (fault type) else sized (fault type) (data+1) data budget (body type)) := by
  refine ⟨fun length start object type => ?_,fun found ran => ?_,fun n inside => ?_⟩
  · rw [accepts_bind_fetch,if_neg (by rw [other]; exact not_not.mpr type),accepts_sized object]
    exact (each length start).accepts
  · rw [run_bind_fetch] at ran
    split at ran
    · cases ran
    rename_i type
    obtain ⟨length,start,object,rest⟩ := sized_ok ran
    exact ⟨by_contra fun none => type ((other _).mpr none),length,start,object,(each length start).ends found rest⟩
  rw [within_bind_fetch,FieldFits]
  refine and_congr_right fun _ => ?_
  by_cases type : memory data ∈ takes
  · rw [if_neg (by rw [other]; exact not_not.mpr type),sized_within]
    constructor
    · intro both _
      refine ⟨both.1,fun peek start object => ?_⟩
      exact ((each 0 start).within n (inside 0 start object)).mp (both.2 0 start object) peek rfl
    intro both
    refine ⟨(both type).1,fun length start object => ((each length start).within n (inside length start object)).mpr
      fun peek none => ?_⟩
    subst length
    exact (both type).2 peek start object
  · rw [if_pos ((other _).mpr type)]
    simp [type]

def kindTypes : ValueKind → List UInt8
  | .integer => [asnInteger]
  | .unsigned => [asnCounter,asnGauge,asnTimeticks,asnUinteger]
  | .unsigned64 => [asnOpaqueCounter64,asnOpaqueU64,asnCounter64]
  | .float => [asnOpaqueFloat]
  | .double => [asnOpaqueDouble]
  | .signed64 => [asnOpaqueI64]
  | .string => [asnOctetStr,asnIpaddress,asnOpaque,asnNsap]
  | .objid => [asnObjectId]
  | .null => [snmpNosuchobject,snmpNosuchinstance,snmpEndofmibview,asnNull]
  | .bitstring => [asnBitStr]

theorem valueKind_types (kind : valueKind type = some sort) : type ∈ kindTypes sort := by
  unfold valueKind at kind
  split_ifs at kind with a b c d e f g h i j
  all_goals
    simp only [Option.some.injEq] at kind
    subst sort
    simp only [kindTypes,mem_cons,not_mem_nil,or_false]
    assumption

-- Nine octets are taken where the first of them is zero.
def NumberContent (memory : Memory) (length start : Nat) : Prop := length ≤ 9 ∧ (length = 9 → memory start = 0)

theorem numberContent_iff : NumberContent memory length start ↔
    ¬ length > 9 ∧ ¬ (length = 9 ∧ memory start ≠ 0) ∧ True := by
  simp [NumberContent]

theorem asnParseInt_field : Field memory (kindTypes .integer) True (fun length _ => length ≤ 8) data budget (asnParseInt data budget) := by
  refine field_body (fun type => by simp [kindTypes]) fun length start => ?_
  exact body_guard (by simp [sizeofLong]) (by simp only [sizeofLong]; omega) (body_peek body_read)

theorem asnParseUnsignedInt_field :
    Field memory (kindTypes .unsigned) True (NumberContent memory) data budget (asnParseUnsignedInt data budget) := by
  refine field_body (fun type => by simp [kindTypes]) fun length start => ?_
  exact body_guard numberContent_iff (by simp only [sizeofLong]; omega)
    (body_peek (body_guard .rfl (fun _ => False.elim) body_read))

theorem asnParseString_field (strlength : Nat) : Field memory (kindTypes .string) False (fun length _ => length ≤ strlength) data budget
    (asnParseString data budget strlength) := by
  refine field_body (fun type => by simp [kindTypes]) fun length start => ?_
  exact body_guard (by simp) (fun _ => False.elim) body_read

theorem asnParseBitstring_field (strlength : Nat) : Field memory (kindTypes .bitstring) True (fun length _ => length ≤ strlength ∧ 1 ≤ length)
    data budget (asnParseBitstring data budget strlength) := by
  refine field_body (fun type => by simp [kindTypes]) fun length start => ?_
  refine body_guard (show _ ↔ ¬ length > strlength ∧ 1 ≤ length by simp) (by omega) (body_peek ?_)
  exact body_guard (by simp [Nat.one_le_iff_ne_zero]) (fun _ => False.elim) body_read

theorem body_leading {follow : UInt8 → Probe UInt8 (Parsed α)}
    (rest : Body memory content False data budget length start (follow (if length = 9 then memory start else 0))) :
    Body memory content False data budget length start (leadingOctet length start >>= follow) := by
  have first : (leadingOctet length start).run memory = .ok (if length = 9 then memory start else 0) := by
    rw [leadingOctet,uint64sizelimit]
    split <;> rfl
  refine ⟨(accepts_bind_ok first).trans rest.accepts,fun found ran => ?_,fun n inside => ?_⟩
  · rw [run_bind_ok _ first] at ran
    exact rest.ends found ran
  rw [within_bind]
  refine iff_of_true ⟨?_,fun value ran => ?_⟩ nofun
  · rw [leadingOctet,uint64sizelimit]
    split
    · rw [Probe.within_fetch]
      omega
    · exact within_pure _
  · rw [first] at ran
    cases ran
    exact (rest.within n inside).mpr nofun

theorem asnParseUnsignedInt64_field :
    Field memory (kindTypes .unsigned64) False (NumberContent memory) data budget (asnParseUnsignedInt64 data budget) := by
  refine field_body (fun type => by simp [kindTypes]; tauto) fun length start => ?_
  exact body_guard numberContent_iff (fun _ => False.elim)
    (body_leading (body_guard (by split <;> simp_all) (fun _ => False.elim) body_read))

-- The content of an object identifier, cut behind every octet with a clear top bit.
def subidGroups : List UInt8 → List (List UInt8)
  | [] => []
  | octet :: rest =>
    if octet &&& asnBit8 = 0 then [octet] :: subidGroups rest
    else match subidGroups rest with
      | [] => [[octet]]
      | group :: more => (octet :: group) :: more

def groupValue (start : Nat) (group : List UInt8) : Nat :=
  group.foldl (fun acc octet => (acc*128+(octet &&& 0x7f).toNat)%2^64) start

-- A group that is complete and whose value, kept in 64 bits, is a sub-identifier.
def GroupOk (group : List UInt8) : Prop :=
  (∃ octet, group.getLast? = some octet ∧ octet &&& asnBit8 = 0) ∧ groupValue 0 group ≤ maxSubid

def ObjidContent (octets : List UInt8) : Prop :=
  (subidGroups octets).length ≤ maxOidLen-1 ∧ ∀ group ∈ subidGroups octets, GroupOk group

-- One call of the inner loop takes one group. The induction is on the octets left.
theorem subidentifier_group (count bufp acc : Nat) :
    ∃ group more last, subidGroups (slice memory bufp (count+1)) = group :: more ∧
      group.length ≤ count+1 ∧ 0 < group.length ∧ group.getLast? = some last ∧
      (subidentifier (count+1) bufp acc).run memory = .ok (groupValue acc group,count+1-group.length,last) ∧
      subidGroups (slice memory (bufp+group.length) (count+1-group.length)) = more ∧
      (last &&& asnBit8 ≠ 0 → count+1-group.length = 0) := by
  induction count generalizing bufp acc with
  | zero =>
    refine ⟨[memory bufp],[],memory bufp,?_,by simp,by simp,rfl,?_,rfl,by simp⟩
    · simp only [slice,subidGroups]
      split <;> rfl
    · rw [subidentifier,run_bind_fetch,if_neg (by simp)]
      rfl
  | succ count ih =>
    by_cases clear : memory bufp &&& asnBit8 = 0
    · refine ⟨[memory bufp],_,memory bufp,?_,by simp,by simp,rfl,?_,rfl,fun marked => absurd clear marked⟩
      · rw [slice,subidGroups,if_pos clear]
        rfl
      · rw [subidentifier,run_bind_fetch,if_neg (by simp [clear])]
        rfl
    obtain ⟨group,more,last,cut,short,some,ends,ran,others,final⟩ :=
      ih (bufp+1) ((acc*128+(memory bufp &&& 0x7f).toNat)%2^64)
    have left : count+1+1-(group.length+1) = count+1-group.length := by omega
    have place : bufp+(group.length+1) = bufp+1+group.length := by omega
    refine ⟨memory bufp :: group,more,last,?_,by simp; omega,by simp,?_,?_,?_,?_⟩
    · rw [slice,subidGroups,if_neg clear,cut]
    · rw [List.getLast?_cons,ends]; rfl
    · rw [subidentifier,run_bind_fetch,if_pos ⟨clear,by omega⟩,ran,length_cons,left]
      rfl
    · rw [length_cons,left,place]
      exact others
    · rw [length_cons,left]
      exact final

theorem subidentifiers_accepts (memory : Memory) (type : UInt8) (room length bufp : Nat) :
    Accepts memory (subidentifiers type room length bufp) ↔ (subidGroups (slice memory bufp length)).length ≤ room ∧
        ∀ group ∈ subidGroups (slice memory bufp length), GroupOk group := by
  induction room generalizing length bufp with
  | zero =>
    cases length with
    | zero => simp [subidentifiers,slice,subidGroups]
    | succ count =>
      obtain ⟨group,more,-,cut,-⟩ := @subidentifier_group memory count bufp 0
      simp [subidentifiers,cut]
  | succ room ih =>
    cases length with
    | zero => simp [subidentifiers,slice,subidGroups]
    | succ count =>
      obtain ⟨group,more,last,cut,short,some,ends,ran,others,final⟩ := @subidentifier_group memory count bufp 0
      have next : bufp+(count+1-(count+1-group.length)) = bufp+group.length := by omega
      rw [subidentifiers,accepts_bind_ok ran,cut,length_cons,List.forall_mem_cons]
      dsimp only
      by_cases marked : last &&& asnBit8 = 0
      · rw [if_neg fun both => both.2 marked]
        have complete : GroupOk group ↔ groupValue 0 group ≤ maxSubid := by
          simp [GroupOk,ends,marked]
        by_cases large : groupValue 0 group > maxSubid
        · rw [if_pos large]
          simp [complete,Nat.not_le.mpr large]
        rw [if_neg large,next,accepts_bind]
        have rest := ih (count+1-group.length) (bufp+group.length)
        rw [others] at rest
        have tail : (∃ value, (subidentifiers type room (count+1-group.length) (bufp+group.length)).run memory =
            .ok value ∧ Accepts memory (pure (groupValue 0 group :: value) : Probe (UInt8 × Nat) (List Nat))) ↔
            Accepts memory (subidentifiers type room (count+1-group.length) (bufp+group.length)) := by
          simp [Accepts]
        rw [tail,rest,complete]
        simp [Nat.not_lt.mp large]
      · rw [if_pos ⟨final marked,marked⟩]
        simp [GroupOk,ends,marked]

theorem subidentifier_within (length bufp acc : Nat) (inside : bufp+length ≤ n) :
    Within n (subidentifier length bufp acc) memory := by
  induction length generalizing bufp acc with
  | zero => exact Interaction.each_done
  | succ length ih =>
    rw [subidentifier,within_bind_fetch]
    refine ⟨by omega,?_⟩
    split
    · exact ih (bufp+1) _ (by omega)
    · exact within_pure _

theorem subidentifiers_within (type : UInt8) (room length bufp : Nat) (inside : bufp+length ≤ n) :
    Within n (subidentifiers type room length bufp) memory := by
  induction room generalizing length bufp with
  | zero => cases length <;> simp [subidentifiers]
  | succ room ih =>
    cases length with
    | zero => simp [subidentifiers]
    | succ length =>
      rw [subidentifiers,within_bind]
      refine ⟨subidentifier_within (length+1) bufp 0 inside,fun found ran => ?_⟩
      obtain ⟨group,-,last,-,short,-,-,result,-⟩ := @subidentifier_group memory length bufp 0
      rw [ran] at result
      cases result
      dsimp only
      split
      · exact within_fail _
      split
      · exact within_fail _
      · rw [within_bind]
        exact ⟨ih _ _ (by omega),fun _ _ => within_pure _⟩

theorem asnParseObjid_field : Field memory (kindTypes .objid) False (fun length start => ObjidContent (slice memory start length))
    data budget (asnParseObjid data budget) := by
  refine field_body (fun type => by simp [kindTypes]) fun length start => ⟨?_,fun found ran => ?_,fun n inside => ?_⟩
  · rw [ObjidContent,← subidentifiers_accepts memory (memory data) (maxOidLen-1) length start,accepts_bind]
    simp [Accepts]
  · obtain ⟨subids,-,final⟩ := run_bind_eq_ok.mp ran
    cases final
    exact ⟨rfl,rfl⟩
  · rw [within_bind]
    exact iff_of_true ⟨subidentifiers_within _ _ _ _ inside,fun _ _ => within_pure _⟩ False.elim

end NetSnmp.AsnFraming
