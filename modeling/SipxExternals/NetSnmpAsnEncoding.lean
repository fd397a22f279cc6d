import SipxExternals.NetSnmpAsnRbuild
import Mathlib.Data.Nat.Digits.Lemmas
import Mathlib.Tactic.IntervalCases

namespace NetSnmp.AsnEncoding
open Foundations AsnTypes AsnRbuild List
open Backfill (Emits emits_bind emits_bind_octet emits_bind_silent emits_bind_top emits_measured emits_pure emits_push emits_silent_bind push)
open UInt8 (ofNat)

def natOctets (n : Nat) : List UInt8 := (Nat.digits 256 n).reverse.map UInt8.ofNat

def lengthOctets (length : Nat) : List UInt8 :=
  if length ≤ 0x7f then [UInt8.ofNat length]
  else (UInt8.ofNat (natOctets length).length ||| 0x80) :: natOctets length

def tlv (type : UInt8) (content : List UInt8) : List UInt8 :=
  type :: (lengthOctets content.length++content)

theorem snmpRealloc_grows (len : Nat) : len < snmpRealloc len := by
  unfold snmpRealloc
  split
  · omega
  · split <;> omega

theorem put_emits (octet : UInt8) : Emits 0 0 (put true octet) () [octet] :=
  Backfill.emits_put snmpRealloc_grows

theorem reserve_emits : Emits 0 need (reserve true need) () [] :=
  Backfill.emits_reserve snmpRealloc_grows

theorem natOctets_step (positive : 0 < n) : natOctets n = natOctets (n/256)++[ofNat (n%256)] := by
  simp [natOctets,Nat.digits_def' (by decide : 1 < 256) positive]

theorem natOctets_digit (positive : 0 < n) (single : n ≤ 0xff) : natOctets n = [ofNat n] := by
  simp [natOctets,Nat.digits_of_lt 256 n (by omega) (by omega)]

theorem ofNat_mod (n : Nat) : ofNat (n%256) = ofNat n := by
  apply UInt8.toNat_inj.mp
  simp

theorem natOctets_value (n : Nat) : octetsValue (natOctets n) = n := by
  have digits : (natOctets n).map UInt8.toNat = (Nat.digits 256 n).reverse := by
    rw [natOctets,map_map]
    conv_rhs => rw [← map_id (Nat.digits 256 n).reverse]
    refine map_congr_left fun digit mem => ?_
    have small := Nat.digits_lt_base (by decide : 1 < 256) (mem_reverse.mp mem)
    simp only [Function.comp_apply,UInt8.toNat_ofNat',id_eq]
    omega
  rw [octetsValue,digits,Horner.horner_digits]

theorem natOctets_length_le (small : n < 256^k) : (natOctets n).length ≤ k := by
  simpa [natOctets] using (Nat.digits_length_le_iff (by decide) n).mpr small

theorem natOctets_length_pos (positive : 0 < n) : 0 < (natOctets n).length := by
  rw [natOctets_step positive]; simp

-- The loop leaves the leading octet to the caller.
theorem lengthLoop_emits (rounds length : Nat) (enough : length < rounds) (positive : 0 < length) :
    ∃ top, top ≤ 0xff ∧ ∃ low, natOctets length = ofNat top :: low ∧
      Emits 0 0 (lengthLoop true rounds length) top low := by
  induction rounds generalizing length with
  | zero => omega
  | succ rounds ih =>
    by_cases large : length > 0xff
    · obtain ⟨top,small,low,split,emits⟩ := ih (length/256) (by omega) (by omega)
      refine ⟨top,small,low++[ofNat (length%256)],by rw [natOctets_step positive,split]; rfl,?_⟩
      rw [lengthLoop,if_pos large,Nat.shiftRight_eq_div_pow,
        show length &&& 0xff = length%256 from Nat.and_two_pow_sub_one_eq_mod length 8]
      exact emits_bind (put_emits _) emits
    · refine ⟨length,by omega,[],natOctets_digit positive (by omega),?_⟩
      rw [lengthLoop,if_neg large]
      exact emits_pure 0 length

theorem asnReallocRbuildLength_emits (length : Nat) :
    Emits 0 0 (asnReallocRbuildLength true length) () (lengthOctets length) := by
  unfold asnReallocRbuildLength lengthOctets
  by_cases short : length ≤ 0x7f
  · rw [if_pos short,if_pos short]
    exact put_emits _
  rw [if_neg short,if_neg short]
  obtain ⟨top,small,low,split,emits⟩ := lengthLoop_emits (length+1) length (by omega) (by omega)
  have leading : top &&& 0xff = top := by
    rw [show (0xff : Nat) = 2^8-1 from rfl,Nat.and_two_pow_sub_one_eq_mod]
    omega
  have octets : Emits 0 1 (do
      let rest ← lengthLoop true (length+1) length
      reserve true 2
      push (ofNat (rest &&& 0xff))) () (natOctets length) := by
    rw [split]
    refine emits_bind_octet emits ?_
    refine emits_silent_bind reserve_emits ?_
    rw [leading]
    exact emits_push 1 _
  exact emits_bind_octet (emits_measured octets) (emits_push 0 _)

theorem asnReallocRbuildHeader_emits (type : UInt8) (length : Nat) :
    Emits 0 0 (asnReallocRbuildHeader true type length) () (type :: lengthOctets length) :=
  emits_bind_octet (asnReallocRbuildLength_emits length) (put_emits type)

section
variable {content : Rb Unit} (type : UInt8) (written : Emits 0 0 content () octets)
include written

theorem rbuildHeaded_emits : Emits 0 0 (rbuildHeaded true type content) octets.length (tlv type octets) := by
  rw [tlv,← cons_append]
  refine emits_bind (emits_measured written) ?_
  exact emits_bind_silent (asnReallocRbuildHeader_emits type octets.length) (emits_pure 0 _)

theorem rbuildChecked_emits : Emits 0 0 (rbuildChecked true type content) () (tlv type octets) := by
  refine Backfill.emits_bind_demand (rbuildHeaded_emits type written) ?_
  simp only [tlv,length_cons,length_append]
  omega

theorem rbuildObject_emits : Emits 0 0 (rbuildObject true type content) () (tlv type octets) := by
  refine Backfill.emits_bind_demand (emits_measured ?_) le_rfl
  exact emits_bind (emits_measured written) (asnReallocRbuildHeader_emits type octets.length)

end

-- The octets of a two's complement number, with the sign taken from the first.
def signedValue : List UInt8 → Int
  | [] => 0
  | octet :: rest =>
    horner 256 (if octet &&& 0x80 ≠ 0 then -1 else 0) ((octet :: rest).map fun b => (b.toNat : Int))

theorem cByte_toNat : ((cByte x).toNat : Int) = x%256 := by
  simp only [cByte,UInt8.toNat_ofNat']
  omega

theorem intLoop_emits (rounds : Nat) (x : Int) (enough : x.natAbs < rounds) :
    ∃ octets, Emits 0 0 (intLoop true (signOf x) rounds x) () octets ∧
      horner 256 (signOf x) (octets.map fun b => (b.toNat : Int)) = x ∧
      ∀ k, -256^k ≤ x → x < 256^k → octets.length ≤ k := by
  induction rounds generalizing x with
  | zero => omega
  | succ rounds ih =>
    rw [intLoop]
    by_cases rest : x ≠ signOf x
    · have sign : signOf (x/256) = signOf x := by unfold signOf; split <;> split <;> omega
      have smaller : (x/256).natAbs < rounds := by unfold signOf at rest; split at rest <;> omega
      obtain ⟨octets,emits,value,short⟩ := ih (x/256) smaller
      rw [sign] at emits value
      refine ⟨octets++[cByte x],?_,?_,?_⟩
      · rw [if_pos rest]
        exact emits_bind (put_emits _) emits
      · rw [map_append,Horner.horner_append,value]
        simp only [map_cons,map_nil,Horner.horner_cons,Horner.horner_nil,cByte_toNat]
        omega
      intro k low high
      cases k with
      | zero =>
        unfold signOf at rest
        split at rest <;> omega
      | succ k =>
        have fewer := short k (by rw [pow_succ] at low; omega) (by rw [pow_succ] at high; omega)
        simpa using fewer
    · refine ⟨[],?_,?_,fun k _ _ => Nat.zero_le k⟩
      · rw [if_neg rest]; exact emits_pure 0 ()
      · simpa using (not_not.mp rest).symm

theorem cByte_sign (sign : test = 0 ∨ test = -1) :
    (if cByte test &&& 0x80 ≠ 0 then -1 else 0) = test ∧ test*256+((cByte test).toNat : Int) = test := by
  rcases sign with rfl | rfl <;> decide

theorem sign_of_same (sign : test = 0 ∨ test = -1)
    (same : octet &&& 0x80 = cByte test &&& 0x80) : (if octet &&& 0x80 ≠ 0 then -1 else 0) = test := by
  rw [same]
  exact (cByte_sign sign).1

def padded (test : Int) : List UInt8 → List UInt8
  | [] => []
  | octet :: rest =>
    if octet &&& 0x80 = cByte test &&& 0x80 then octet :: rest else cByte test :: octet :: rest

theorem padSign_emits (emits : Emits 0 0 body () octets) (some : octets ≠ []) :
    Emits 0 0 (body >>= fun _ => padSign true test) () (padded test octets) := by
  obtain ⟨octet,rest,rfl⟩ := exists_cons_of_ne_nil some
  rw [padded]
  by_cases same : octet &&& 0x80 = cByte test &&& 0x80
  · rw [if_pos same]
    refine emits_bind_top [] emits ?_
    rw [if_neg (not_not.mpr same)]
    exact emits_pure 0 ()
  rw [if_neg same]
  refine emits_bind_top [cByte test] emits ?_
  rw [if_pos same]
  exact put_emits _

theorem padded_length_le (test : Int) (octets : List UInt8) : (padded test octets).length ≤ octets.length+1 := by
  cases octets with
  | nil => simp [padded]
  | cons octet rest => rw [padded]; split <;> simp

theorem padded_signed (sign : test = 0 ∨ test = -1) (some : octets ≠ []) :
    signedValue (padded test octets) = horner 256 test (octets.map fun b => (b.toNat : Int)) := by
  obtain ⟨octet,rest,rfl⟩ := exists_cons_of_ne_nil some
  rw [padded]
  split
  · rename_i same
    rw [signedValue,sign_of_same sign same]
  · obtain ⟨first,start⟩ := cByte_sign sign
    rw [signedValue,first,map_cons,Horner.horner_cons,start]

-- An unsigned number is led by an octet with a clear top bit, and by a zero octet
-- when it is longer than without padding.
theorem padded_zero (some : octets ≠ []) : ∃ octet rest, padded 0 octets = octet :: rest ∧ octet &&& 0x80 = 0 ∧
      octetsValue (padded 0 octets) = octetsValue octets ∧
      (octets.length < (padded 0 octets).length → octet = 0) := by
  obtain ⟨octet,rest,rfl⟩ := exists_cons_of_ne_nil some
  rw [padded]
  split
  · rename_i same
    exact ⟨octet,rest,rfl,same,rfl,by simp⟩
  · simp [octetsValue,show cByte 0 = 0 from rfl]

theorem uintLoop_emits (rounds n : Nat) (enough : n < rounds) :
    Emits 0 0 (uintLoop true rounds n) () (natOctets n) := by
  induction rounds generalizing n with
  | zero => omega
  | succ rounds ih =>
    rw [uintLoop]
    by_cases rest : n ≠ 0
    · rw [if_pos rest,natOctets_step (by omega),ofNat_mod,Nat.shiftRight_eq_div_pow]
      exact emits_bind (put_emits _) (ih (n/256) (by omega))
    · rw [if_neg rest,not_not.mp rest]
      exact emits_pure 0 ()

theorem lowLoop_emits (rounds n count : Nat) (enough : n < rounds) :
    Emits 0 0 (lowLoop true rounds n count) (count+(natOctets n).length) (natOctets n) := by
  induction rounds generalizing n count with
  | zero => omega
  | succ rounds ih =>
    rw [lowLoop]
    by_cases rest : n ≠ 0
    · have tail := ih (n/256) (count+1) (by omega)
      rw [if_pos rest,natOctets_step (by omega),ofNat_mod,Nat.shiftRight_eq_div_pow]
      rw [show count+1+(natOctets (n/256)).length = count+(natOctets (n/256)++[ofNat n]).length by
        simp; omega] at tail
      exact emits_bind (put_emits _) tail
    · rw [if_neg rest,not_not.mp rest]
      exact emits_pure 0 count

def wholeOctets (n : Nat) : List UInt8 := natOctets (n/256)++[UInt8.ofNat n]

theorem wholeOctets_value (n : Nat) : octetsValue (wholeOctets n) = n := by
  have high := natOctets_value (n/256)
  rw [octetsValue] at high
  rw [wholeOctets,octetsValue,map_append,Horner.horner_append,high]
  simp
  omega

theorem wholeOctets_length_le (k : Nat) (small : n < 256^(k+1)) : (wholeOctets n).length ≤ k+1 := by
  have high : n/256 < 256^k := by rw [pow_succ] at small; omega
  simpa [wholeOctets] using natOctets_length_le high

theorem wholeOctets_ne_nil (n : Nat) : wholeOctets n ≠ [] := by simp [wholeOctets]

theorem uintOctets_emits : Emits 0 0 (uintOctets true n) () (wholeOctets n) := by
  rw [uintOctets,Nat.shiftRight_eq_div_pow]
  exact emits_bind (put_emits _) (uintLoop_emits (n+1) (n/256) (by omega))

theorem putMany_emits {count : Nat} : Emits 0 0 (putMany true octet count) () (replicate count octet) := by
  induction count with
  | zero => exact emits_pure 0 ()
  | succ count ih =>
    rw [replicate_succ']
    exact emits_bind (put_emits octet) ih

def word64Octets (high low : Nat) : List UInt8 :=
  if high ≠ 0 then wholeOctets high++List.replicate (4-(wholeOctets low).length) 0++wholeOctets low
  else wholeOctets low

theorem uint64Octets_emits : Emits 0 0 (uint64Octets true high low) () (word64Octets high low) := by
  have counted : 1+(natOctets (low/256)).length = (wholeOctets low).length := by
    simp [wholeOctets]; omega
  have loop := lowLoop_emits (low+1) (low/256) 1 (by omega)
  rw [counted] at loop
  rw [uint64Octets,word64Octets,Nat.shiftRight_eq_div_pow]
  by_cases present : high ≠ 0
  · simp only [if_pos present,wholeOctets,← append_assoc]
    refine emits_bind (put_emits _) (emits_bind loop ?_)
    exact emits_bind putMany_emits uintOctets_emits
  · simp only [if_neg present]
    exact emits_bind (put_emits _) (emits_bind_silent loop (emits_pure 0 ()))

theorem word64Octets_ne_nil (low : Nat) : word64Octets high low ≠ [] := by
  unfold word64Octets
  split <;> simp [wholeOctets]

theorem octetsValue_append (first : List UInt8) :
    octetsValue (first++second) = octetsValue first*256^second.length + octetsValue second := by
  simp only [octetsValue,map_append,Horner.horner_append]
  rw [Horner.horner_start,length_map]

theorem octetsValue_zeros {count : Nat} : octetsValue (replicate count 0) = 0 := by
  induction count with
  | zero => rfl
  | succ count ih => simpa [octetsValue,replicate_succ] using ih

theorem word64Octets_value (high : Nat) (small : low < 2^32) : octetsValue (word64Octets high low) = high*2^32+low := by
  have short := wholeOctets_length_le 3 small
  unfold word64Octets
  split
  · rw [octetsValue_append,octetsValue_append,octetsValue_zeros,wholeOctets_value,wholeOctets_value,
      length_replicate,add_zero,mul_assoc,← pow_add,Nat.sub_add_cancel short]
    rfl
  · rename_i absent
    rw [wholeOctets_value,not_not.mp absent]
    omega

theorem word64Octets_length_le (highSmall : high < 2^32) (lowSmall : low < 2^32) :
    (word64Octets high low).length ≤ 8 := by
  have upper := wholeOctets_length_le 3 highSmall
  have lower := wholeOctets_length_le 3 lowSmall
  unfold word64Octets
  split
  · simp only [length_append,length_replicate]; omega
  · omega

theorem signOf_cases : signOf x = 0 ∨ signOf x = -1 := by
  unfold signOf; split <;> simp

theorem intContent_emits : ∃ octets, Emits 0 0 (intContent true x) () (padded (signOf x) octets) ∧ octets ≠ [] ∧
      horner 256 (signOf x) (octets.map fun b => (b.toNat : Int)) = x ∧
      ∀ k, -256^(k+1) ≤ x → x < 256^(k+1) → octets.length ≤ k+1 := by
  obtain ⟨octets,emits,value,short⟩ := intLoop_emits (x.natAbs+1) (x/256) (by omega)
  have sign : signOf (x/256) = signOf x := by unfold signOf; split <;> split <;> omega
  rw [sign] at emits value
  have whole : Emits 0 0 (intOctets true x) () (octets++[cByte x]) := emits_bind (put_emits _) emits
  refine ⟨octets++[cByte x],padSign_emits whole (by simp),by simp,?_,?_⟩
  · rw [map_append,Horner.horner_append,value]
    simp only [map_cons,map_nil,Horner.horner_cons,Horner.horner_nil,cByte_toNat]
    omega
  · intro k low high
    simpa using short k (by omega) (by omega)

theorem asnReallocRbuildInt_emits (low : -2147483648 ≤ x) (high : x ≤ 2147483647) :
    ∃ content, Emits 0 0 (asnReallocRbuildInt true type x sizeofLong) () (tlv type content) ∧
      signedValue content = x ∧ content ≠ [] ∧ content.length ≤ 5 := by
  obtain ⟨octets,emits,some,value,short⟩ := intContent_emits
  refine ⟨padded (signOf x) octets,?_,?_,?_,?_⟩
  · rw [asnReallocRbuildInt,if_neg (by simp),checkOverflowS_small low high]
    exact rbuildObject_emits type emits
  · rw [padded_signed signOf_cases some,value]
  · obtain ⟨octet,rest,rfl⟩ := exists_cons_of_ne_nil some
    rw [padded]
    split <;> simp
  · have few := short 3 (by omega) (by omega)
    have pad := padded_length_le (signOf x) octets
    omega

theorem asnReallocRbuildUnsignedInt_emits (small : n ≤ 0xffffffff) :
    Emits 0 0 (asnReallocRbuildUnsignedInt true type n sizeofLong) () (tlv type (padded 0 (wholeOctets n))) := by
  rw [asnReallocRbuildUnsignedInt,if_neg (by simp),checkOverflowU_small small]
  exact rbuildObject_emits type (padSign_emits uintOctets_emits (wholeOctets_ne_nil n))

theorem asnReallocRbuildUnsignedInt64_emits (highSmall : high ≤ 0xffffffff) (lowSmall : low ≤ 0xffffffff) :
    Emits 0 0 (asnReallocRbuildUnsignedInt64 true asnCounter64 (high,low) sizeofCounter64) ()
      (tlv asnCounter64 (padded 0 (word64Octets high low))) := by
  rw [asnReallocRbuildUnsignedInt64,if_neg (by simp),if_neg (by decide),
    checkOverflowU_small highSmall,checkOverflowU_small lowSmall]
  exact rbuildChecked_emits _ (padSign_emits uint64Octets_emits (word64Octets_ne_nil low))

theorem asnReallocRbuildString_emits : Emits 0 0 (asnReallocRbuildString true type octets) () (tlv type octets) := by
  refine rbuildChecked_emits type (emits_silent_bind reserve_emits ?_)
  simpa using Backfill.emits_pushMany 0

theorem asnReallocRbuildNull_emits : Emits 0 0 (asnReallocRbuildNull true type) () (tlv type []) := by
  simpa [tlv,asnReallocRbuildNull] using asnReallocRbuildHeader_emits type 0

-- Every octet of a sub-identifier but the last has its top bit set.
def continued (n : Nat) : List UInt8 := (Nat.digits 128 n).reverse.map fun d => UInt8.ofNat (d+128)

def subidOctets (subid : Nat) : List UInt8 := continued (subid/128)++[UInt8.ofNat (subid%128)]

theorem continued_step (positive : 0 < n) : continued n = continued (n/128)++[ofNat (n%128+128)] := by
  simp [continued,Nat.digits_def' (by decide : 1 < 128) positive]

theorem mask_low7 (n : Nat) : n &&& 0x7f = n%128 := Nat.and_two_pow_sub_one_eq_mod n 7

theorem mask_bit8 (small : n < 128) : n ||| 0x80 = n+128 := by
  rw [Nat.or_comm,add_comm]
  exact (Nat.two_pow_add_eq_or_of_lt (i := 7) small 1).symm

theorem subidLoop_emits (rounds n : Nat) (enough : n < rounds) :
    Emits 0 0 (subidLoop true rounds n) () (continued n) := by
  induction rounds generalizing n with
  | zero => omega
  | succ rounds ih =>
    rw [subidLoop]
    by_cases rest : n > 0
    · rw [if_pos rest,continued_step rest,Nat.shiftRight_eq_div_pow,mask_low7,mask_bit8 (by omega)]
      exact emits_bind (put_emits _) (ih (n/128) (by omega))
    · rw [if_neg rest,show n = 0 by omega]
      exact emits_pure 0 ()

theorem putSubid_emits : Emits 0 0 (putSubid true subid) () (subidOctets subid) := by
  rw [putSubid,mask_low7,Nat.shiftRight_eq_div_pow]
  exact emits_bind (put_emits _) (subidLoop_emits (subid+1) (subid/128) (by omega))

theorem putSubids_emits (small : ∀ subid ∈ subids, subid ≤ 0xffffffff) :
    Emits 0 0 (putSubids true subids) () (subids.flatMap subidOctets) := by
  induction subids with
  | nil => exact emits_pure 0 ()
  | cons subid rest ih =>
    rw [putSubids,checkOverflowU_small (small subid (by simp)),flatMap_cons]
    exact emits_bind (ih fun later mem => small later (by simp [mem])) putSubid_emits

-- The object identifiers that have an encoding.
def ObjidFits : List Nat → Prop
  | first :: second :: rest => rest.length+2 ≤ maxOidLen ∧ first ≤ 2 ∧ (first < 2 → second < 40) ∧
      first*40+second ≤ maxSubid ∧ ∀ subid ∈ rest, subid ≤ maxSubid
  | _ => False

instance : (objid : List Nat) → Decidable (ObjidFits objid)
  | [] => inferInstanceAs (Decidable False)
  | [_] => inferInstanceAs (Decidable False)
  | first :: second :: rest => inferInstanceAs (Decidable (rest.length+2 ≤ maxOidLen ∧ first ≤ 2 ∧
      (first < 2 → second < 40) ∧ first*40+second ≤ maxSubid ∧ ∀ subid ∈ rest, subid ≤ maxSubid))

theorem objidFits_shape (fits : ObjidFits objid) :
    ∃ first second rest, objid = first :: second :: rest ∧ rest.length+2 ≤ maxOidLen ∧ first ≤ 2 ∧
      (first < 2 → second < 40) ∧ first*40+second ≤ maxSubid ∧ ∀ subid ∈ rest, subid ≤ maxSubid := by
  match objid,fits with
  | first :: second :: rest,fits => exact ⟨first,second,rest,rfl,fits⟩

def joinFirst : List Nat → List Nat
  | first :: second :: rest => (first*40+second) :: rest
  | objid => objid

def objidOctets (objid : List Nat) : List UInt8 := (joinFirst objid).flatMap subidOctets

theorem asnReallocRbuildObjid_emits (fits : ObjidFits objid) :
    Emits 0 0 (asnReallocRbuildObjid true type objid) () (tlv type (objidOctets objid)) := by
  obtain ⟨first,second,rest,rfl,-,arc,low,joined,small⟩ := objidFits_shape fits
  refine rbuildObject_emits type ?_
  have reduced : (first*40+second)%2^64 = first*40+second := by
    simp only [maxSubid] at joined; omega
  rw [objidContent,if_neg (by omega),objidOctets,joinFirst,flatMap_cons]
  refine emits_bind (putSubids_emits small) ?_
  rw [if_neg (by omega),reduced]
  exact putSubid_emits

end NetSnmp.AsnEncoding
