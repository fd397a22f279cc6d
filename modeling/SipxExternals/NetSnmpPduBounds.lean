import SipxExternals.NetSnmpPduValues

namespace NetSnmp.PduBounds
open Foundations AsnTypes AsnParse PduParse AsnFraming PduFraming PduValues
open Interaction (run_failWith_ok)
open Probe (Within fetch image run_bind_fetch within_bind within_bind_fetch within_fail within_failWith within_fetchMany within_pure)

def OpaqueFits (memory : Memory) (start n : Nat) : Prop :=
  start < n ∧ (memory start = asnOpaqueTag1 → start+1 < n ∧
    (opaqueSpecial (memory (start+1)) = true → LengthFits memory (start+2) n))

def HeaderFits (memory : Memory) (n data budget : Nat) : Prop :=
  data < n ∧ (memory data &&& asnExtensionId ≠ asnExtensionId → LengthFits memory (data+1) n ∧
    (memory data = asnOpaque → ∀ length start, Object memory (data+1) data budget length start →
      OpaqueFits memory start n))

theorem opaque_within : Within n (do
      let tag1 ← fetch start
      if tag1 = asnOpaqueTag1 then do
        let tag2 ← fetch (start+1)
        if opaqueSpecial tag2 then
          sized () (start+2) data budget fun inner begin => return (⟨tag2,inner,begin⟩ : Header)
        else return header
      else return header) memory ↔ OpaqueFits memory start n := by
  rw [within_bind_fetch,OpaqueFits]
  split
  · rename_i first
    rw [within_bind_fetch]
    split
    · rename_i second
      rw [sized_within]
      simp [first,second]
    · rename_i second
      simp [first,second]
  · rename_i other
    simp [other]

theorem asnParseHeader_within : Within n (asnParseHeader data budget) memory ↔ HeaderFits memory n data budget := by
  rw [asnParseHeader,within_bind_fetch,HeaderFits]
  refine and_congr_right fun _ => ?_
  by_cases extension : memory data &&& asnExtensionId = asnExtensionId
  · simp [extension]
  rw [if_neg extension,sized_within]
  by_cases raw : memory data = asnOpaque
  · simp only [if_pos raw,opaque_within]
    exact ⟨fun both _ => ⟨both.1,fun _ => both.2⟩,fun both => ⟨(both extension).1,(both extension).2 raw⟩⟩
  · simp [extension,raw]

theorem asnParseSequence_within :
    Within n (asnParseSequence data budget type) memory ↔ HeaderFits memory n data budget := by
  rw [asnParseSequence,within_bind,asnParseHeader_within]
  refine and_iff_left fun header _ => ?_
  split
  · exact within_fail _
  · exact within_pure _

-- A value whose headers have been read and whose content lies below n.
structure Placed (memory : Memory) (n val : Nat) (value : Header) : Prop where
  headed : Headed memory val maxPacketLength value
  fits : HeaderFits memory n val maxPacketLength
  content : ContentIn memory n val maxPacketLength
  last : value.next+value.length ≤ n

section
variable (placed : Placed memory n val value)
include placed

theorem Placed.length : LengthFits memory (val+1) n := (placed.fits.2 (headed_plain placed.headed)).1

theorem field_within (field : Field memory takes peeks content val maxPacketLength part) (types : value.type ∈ takes)
    (plain : ∀ type ∈ takes, opaqueSpecial type = false) :
    Within n part memory ↔ (peeks → value.length = 0 → value.next < n) := by
  obtain ⟨raw,object⟩ := headed_bare placed.headed (plain _ types)
  rw [field.within n placed.content]
  constructor
  · intro fits peek none
    rw [none] at object
    exact (fits.2 (by rw [raw]; exact types)).2 peek _ object
  intro inside
  refine ⟨placed.fits.1,fun _ => ⟨placed.length,fun peek start other => ?_⟩⟩
  obtain ⟨none,same⟩ := object_unique object other
  rw [← same]
  exact inside peek none

theorem real_within (type : value.type = tag) (notOpaque : tag ≠ asnOpaque) :
    Within n (asnParseReal tag berLen size val maxPacketLength) memory := by
  have last := placed.last
  have plain := headed_plain placed.headed
  rw [asnParseReal,within_bind_fetch]
  refine ⟨placed.fits.1,sized_within.mpr ⟨placed.length,fun length start object => ?_⟩⟩
  have outer := placed.content length start object
  rw [within_bind]
  cases placed.headed with
  | bare _ own whole =>
    have content : realContent tag berLen (memory val) length start val maxPacketLength = pure (memory val,length,start) := by
      dsimp only at type
      rw [realContent,if_neg (by rw [type]; tauto)]
    rw [content]
    refine ⟨within_pure _,fun found ran => ?_⟩
    cases ran
    split
    · exact within_fail _
    split
    · exact within_fail _
    · rw [within_bind,within_fetchMany]
      exact ⟨.inr outer,fun _ _ => within_pure _⟩
  | wrapped raw own inside inner =>
    obtain ⟨rfl,rfl⟩ := object_unique object own
    obtain ⟨begins,more⟩ := (placed.fits.2 plain).2 raw _ _ object
    obtain ⟨second,innerLength⟩ := more inside.1
    rw [realContent,raw]
    by_cases exactly : length = berLen
    · rw [if_pos ⟨rfl,exactly⟩,within_bind_fetch,if_pos inside.1,within_bind_fetch,if_pos type]
      refine ⟨⟨begins,second,sized_within.mpr ⟨innerLength inside.2,fun _ _ _ => within_pure _⟩⟩,fun found ran => ?_⟩
      rw [run_bind_fetch,if_pos inside.1,run_bind_fetch,if_pos type,run_sized inner] at ran
      cases ran
      rw [if_neg (by simp)]
      split
      · exact within_fail _
      · rw [within_bind,within_fetchMany]
        exact ⟨.inr last,fun _ _ => within_pure _⟩
    · rw [if_neg fun both => exactly both.2]
      refine ⟨within_pure _,fun found ran => ?_⟩
      cases ran
      rw [if_pos (Ne.symm notOpaque)]
      exact within_fail _

theorem signed64_within (type : value.type = asnOpaqueI64) : Within n (asnParseSignedInt64 val maxPacketLength) memory ↔
      if memory val = asnOpaque then outerLength memory val ≤ 12 → value.length = 0 → value.next < n
      else value.next+1 < n := by
  have last := placed.last
  have plain := headed_plain placed.headed
  have tag := placed.fits.1
  rw [asnParseSignedInt64,within_bind_fetch]
  cases placed.headed with
  | bare _ own whole =>
    dsimp only at type ⊢
    rw [sized_within_object own placed.length,within_bind_fetch,within_bind_fetch,type,
      if_neg fun all => absurd all.1 (by decide),if_neg (by decide)]
    simp only [within_fail,and_true]
    omega
  | wrapped raw own inside inner =>
    dsimp only at last
    obtain ⟨begins,more⟩ := (placed.fits.2 plain).2 raw _ _ own
    obtain ⟨second,innerLength⟩ := more inside.1
    rw [sized_within_object own placed.length,within_bind_fetch,within_bind_fetch,if_pos raw,outerLength_eq own]
    simp only [tag,begins,second,true_and]
    split
    · rename_i all
      rw [sized_within_object inner (innerLength inside.2)]
      have short : _ ≤ 12 := all.2.1
      simp only [short,true_implies]
      split
      · rename_i long
        simp only [within_fail,true_iff]
        omega
      rw [within_bind_fetch]
      split
      · rename_i full
        simp only [within_fail,and_true]
        omega
      · rw [within_bind,within_fetchMany]
        simp only [within_pure,implies_true,and_true]
        omega
    · rename_i long
      exact iff_of_true (within_fail _) fun short => absurd ⟨raw,short,inside.1,type⟩ long

end

-- The octets at which a value parser looks although no header announces them.
def ValueFits (memory : Memory) (n val : Nat) (value : Header) : Prop :=
  match valueKind value.type with
  | some .integer | some .unsigned | some .bitstring => value.length = 0 → value.next < n
  | some .signed64 =>
    if memory val = asnOpaque then outerLength memory val ≤ 12 → value.length = 0 → value.next < n
    else value.next+1 < n
  | _ => True

theorem attempt_within {result : Except ε α → β} :
    Within n ((part.attempt : Probe δ (Except ε α)) >>= fun outcome => pure (result outcome)) memory ↔
      Within n part memory := by
  rw [within_bind,Probe.within_attempt]
  exact and_iff_left fun _ _ => within_pure _

theorem parseValue_within (placed : Placed memory n val value) (name : List Nat) (next left : Nat) :
    Within n (parseValue ⟨name,value.type,value.length,val,next,left⟩) memory ↔ ValueFits memory n val value := by
  unfold parseValue ValueFits
  dsimp only
  cases kind : valueKind value.type with
  | none => simp
  | some sort =>
    have types := valueKind_types kind
    cases sort with try rw [attempt_within]
    | integer => rw [field_within placed asnParseInt_field types (by decide +kernel),true_imp_iff]
    | unsigned => rw [field_within placed asnParseUnsignedInt_field types (by decide +kernel),true_imp_iff]
    | unsigned64 =>
      rw [asnParseUnsignedInt64_field.within n placed.content]
      exact iff_of_true ⟨placed.fits.1,fun _ => ⟨placed.length,False.elim⟩⟩ trivial
    | float | double => exact iff_of_true (real_within placed (by simpa [kindTypes] using types) (by decide)) trivial
    | signed64 => exact signed64_within placed (by simpa [kindTypes] using types)
    | string =>
      rw [field_within placed (asnParseString_field _) types (by decide +kernel)]
      exact iff_of_true False.elim trivial
    | objid =>
      rw [field_within placed asnParseObjid_field types (by decide +kernel)]
      exact iff_of_true False.elim trivial
    | null => simp
    | bitstring => rw [field_within placed (asnParseBitstring_field _) types (by decide +kernel),true_imp_iff]

def NameFits (memory : Memory) (n data stop : Nat) : Prop :=
  HeaderFits memory n data (stop-data) ∧
  ∀ sequence, Headed memory data (stop-data) sequence → sequence.type = asnSequenceConstructor →
    FieldFits memory n (kindTypes .objid) False sequence.next sequence.length ∧
    ∀ val, Taken memory .objid sequence.next (sequence.next+sequence.length) val →
      HeaderFits memory n val (sequence.next+sequence.length-val)

def BindingFits (memory : Memory) (n data stop : Nat) : Prop :=
  NameFits memory n data stop ∧ ∀ val value, Binding memory data stop val value → ValueFits memory n val value

theorem snmpParseVarOp_within (inside : data+length ≤ n) :
    Within n (snmpParseVarOp data length) memory ↔ NameFits memory n data (data+length) := by
  rw [snmpParseVarOp,within_bind,asnParseSequence_within,NameFits,Nat.add_sub_cancel_left]
  refine and_congr_right fun _ => forall_congr' fun sequence => ?_
  rw [asnParseSequence_iff,and_imp]
  refine imp_congr_right fun opened => imp_congr_right fun type => ?_
  have outer := headed_bounds opened
  rw [within_bind,within_failWith,asnParseObjid_field.within n (contentIn_budget (by omega))]
  refine and_congr_right fun _ => ⟨fun each val taken => ?_,fun each name named => ?_⟩
  · obtain ⟨name,named,rfl⟩ := run_of_taken asnParseObjid_field rfl taken
    have sum := (taken_of_run asnParseObjid_field rfl named).2
    have rest := each name (run_failWith_ok.mpr named)
    split at rest
    · rename_i other
      exact absurd (asnParseObjid_type named) other
    · rw [← sum,Nat.add_sub_cancel_left]
      exact asnParseHeader_within.mp (within_bind.mp rest).1
  · rw [run_failWith_ok] at named
    obtain ⟨taken,sum⟩ := taken_of_run asnParseObjid_field rfl named
    have rest := each _ taken
    rw [← sum,Nat.add_sub_cancel_left] at rest
    rw [if_neg (not_not.mpr (asnParseObjid_type named)),within_bind]
    exact ⟨asnParseHeader_within.mpr rest,fun _ _ => within_pure _⟩

theorem placed_of_fits (inside : stop ≤ n) (fits : NameFits memory n data stop) (binding : Binding memory data stop val value) :
    Placed memory n val value := by
  have bounds := binding_bounds binding
  obtain ⟨sequence,opened,type,taken,headed⟩ := binding
  have outer := headed_bounds opened
  have own := (fits.2 sequence opened type).2 val taken
  obtain ⟨length,start,object⟩ : ∃ length start, Object memory (val+1) val (sequence.next+sequence.length-val) length start := by
    cases headed with
    | bare plain object whole => exact ⟨_,_,object⟩
    | wrapped raw object within inner => exact ⟨_,_,object⟩
  have room := object_bounds object
  refine ⟨bounds.2.2,⟨own.1,fun plain => ⟨(own.2 plain).1,fun raw size begin other => ?_⟩⟩,fun size begin other => ?_,by omega⟩
  · obtain ⟨rfl,rfl⟩ := object_unique other object
    exact (own.2 plain).2 raw _ _ object
  · obtain ⟨rfl,rfl⟩ := object_unique other object
    omega

-- The places at which the loop looks for a binding.
inductive Reached (memory : Memory) (stop : Nat) : Nat → Nat → Prop where
  | here : Reached memory stop data data
  | behind (more : data < stop) (binding : Binding memory data stop val value)
      (later : Reached memory stop (value.next+value.length) place) : Reached memory stop data place

def ListFits (memory : Memory) (n stop data : Nat) : Prop :=
  ∀ place, Reached memory stop data place → place < stop → BindingFits memory n place stop

theorem listFits_done (last : stop ≤ data) : ListFits memory n stop data := by
  intro place reached more
  cases reached with
  | here => omega
  | behind more binding later => omega

theorem listFits_step (more : data < stop) : ListFits memory n stop data ↔ BindingFits memory n data stop ∧
    ∀ val value, Binding memory data stop val value → ListFits memory n stop (value.next+value.length) := by
  constructor
  · intro each
    exact ⟨each data .here more,fun val value binding place later => each place (.behind more binding later)⟩
  · intro both place reached inside
    cases reached with
    | here => exact both.1
    | behind _ binding later => exact both.2 _ _ binding place later inside

theorem parseVarBinds_within (rounds : Nat) (all : data+length = stop) (small : length ≤ 0x7fffffff) (enough : length ≤ rounds)
    (inside : stop ≤ n) : Within n (parseVarBinds rounds data length) memory ↔ ListFits memory n stop data := by
  induction rounds generalizing data length with
  | zero => exact iff_of_true (Interaction.each_done) (listFits_done (by omega))
  | succ rounds ih =>
    rw [parseVarBinds]
    by_cases more : cInt length > 0
    · rw [if_pos more]
      rw [more_iff small] at more
      rw [within_bind,snmpParseVarOp_within (by omega),all,listFits_step (by omega),BindingFits,and_assoc]
      refine and_congr_right fun fits => ⟨fun each => ?_,fun each op parsed => ?_⟩
      · refine forall_and.mp fun val => forall_and.mp fun value => forall_and.mp fun binding => ?_
        have bounds := binding_bounds binding
        have placed := placed_of_fits inside fits binding
        obtain ⟨name,parsed⟩ := binding_parsed (by rw [all]; exact binding)
        have rest := each _ parsed
        rw [within_bind,parseValue_within placed] at rest
        obtain ⟨v,ran,-⟩ := parseValue_defined placed.headed name (value.next+value.length) (length-(value.next+value.length-data))
        refine ⟨rest.1,(ih ?_ ?_ ?_).mp (within_bind.mp (rest.2 _ ran)).1⟩
        all_goals dsimp only; omega
      · obtain ⟨value,binding,same⟩ := snmpParseVarOp_ok parsed
        rw [all] at binding
        have bounds := binding_bounds binding
        have placed := placed_of_fits inside fits binding
        rw [same,within_bind,parseValue_within placed]
        refine ⟨each.1 _ _ binding,fun outcome _ => within_bind.mpr ⟨(ih ?_ ?_ ?_).mpr (each.2 _ _ binding),fun _ _ => within_pure _⟩⟩
        all_goals dsimp only; omega
    · rw [if_neg more]
      rw [more_iff small] at more
      exact iff_of_true (Interaction.each_done) (listFits_done (by omega))

-- Every identifier and length field that the parser comes to lies inside the buffer,
-- and so do the octets it peeks at without a length that announces them.
def PduFits (memory : Memory) (n : Nat) : Prop :=
  HeaderFits memory n 0 n ∧
  ∀ header kinds, Headed memory 0 n header → fieldKinds header.type.toNat = some kinds →
    FieldsFit memory n (header.next+header.length) kinds header.next ∧
    ∀ next, Passed memory (header.next+header.length) kinds header.next next →
      HeaderFits memory n next (header.next+header.length-next) ∧
      ∀ list, Headed memory next (header.next+header.length-next) list → list.type = asnSequenceConstructor →
        ListFits memory n (list.next+list.length) list.next

theorem parseBindings_within (inside : data+length ≤ n) :
    Within n (parseBindings fields data length) memory ↔ HeaderFits memory n data length ∧
      ∀ list, Headed memory data length list → list.type = asnSequenceConstructor →
        ListFits memory n (list.next+list.length) list.next := by
  rw [parseBindings,within_bind,asnParseSequence_within]
  refine and_congr_right fun _ => forall_congr' fun list => ?_
  rw [asnParseSequence_iff,and_imp]
  refine imp_congr_right fun opened => imp_congr_right fun type => ?_
  have bounds := headed_bounds opened
  rw [within_bind,parseVarBinds_within _ rfl bounds.2.1 le_rfl (by omega)]
  refine and_iff_left fun outcome _ => ?_
  obtain ⟨bindings,badtype⟩ := outcome
  cases badtype with
  | true => exact within_fail _
  | false => exact within_pure _

theorem snmpPduParse_within : Within n (snmpPduParse pdu 0 n) memory ↔ PduFits memory n := by
  rw [snmpPduParse,within_bind,asnParseHeader_within,PduFits]
  refine and_congr_right fun _ => forall_congr' fun header => ?_
  rw [asnParseHeader_iff]
  cases known : fieldKinds header.type.toNat with
  | none => exact iff_of_true (fun _ => by rw [parseFields_unknown known]; exact within_fail _) fun _ _ wrong => by cases wrong
  | some kinds =>
    simp only [Option.some.injEq]
    rw [forall_comm]
    simp only [forall_eq']
    refine imp_congr_right fun headed => ?_
    have bounds := headed_bounds headed
    have chain : Chain memory _ kinds header.next pdu.variableList (parseFields pdu header) := parseFields_chain known
    rw [within_bind,chain.within n (by omega)]
    refine and_congr_right fun _ => ⟨fun each next passed => ?_,fun each outcome read => ?_⟩
    · obtain ⟨fields,read⟩ := chain.passes next passed
      have sum := (chain.ends _ _ _ read).2.1
      exact (parseBindings_within (by omega)).mp (each _ read)
    · obtain ⟨fields,next,left⟩ := outcome
      obtain ⟨passed,sum,-⟩ := chain.ends fields next left read
      obtain rfl : left = header.next+header.length-next := by omega
      exact (parseBindings_within (by dsimp only; omega)).mpr (each next passed)

theorem reads_inside_iff (memory : Memory) (n : Nat) (pdu : Pdu) : (Within n (snmpPduParse pdu 0 n) memory ∧
      ∀ other, (∀ offset, offset < n → memory offset = other offset) →
        (snmpPduParse pdu 0 n).run other = (snmpPduParse pdu 0 n).run memory) ↔ PduFits memory n := by
  rw [← snmpPduParse_within]
  exact ⟨fun both => both.1,fun inside => ⟨inside,fun other same => Probe.within_agrees inside same⟩⟩

def emptyInteger : List UInt8 :=
  [0xa2,0x12,2,1,0,2,1,0,2,1,0,0x30,7,0x30,5,6,1,0x2b,2,0]

-- The sign of the INTEGER is taken from the octet behind the buffer; and of an empty
-- buffer the first octet is looked at.
theorem reads_outside : (∀ offset, offset < emptyInteger.length →
      image emptyInteger offset = image (emptyInteger++[0xff]) offset) ∧
    (snmpPduParse .fresh 0 emptyInteger.length).run (image (emptyInteger++[0xff])) ≠
      (snmpPduParse .fresh 0 emptyInteger.length).run (image emptyInteger) ∧
    ¬ Within 0 (snmpPduParse .fresh 0 0) (image []) := by
  refine ⟨by decide,by decide +kernel,?_⟩
  rw [snmpPduParse_within]
  intro fits
  exact absurd fits.1.1 (Nat.not_lt_zero 0)

end NetSnmp.PduBounds
