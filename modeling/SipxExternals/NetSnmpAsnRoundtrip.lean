import SipxExternals.NetSnmpAsnParse
import SipxExternals.NetSnmpAsnEncoding

namespace NetSnmp.AsnRoundtrip
open Foundations AsnTypes AsnParse AsnEncoding
open Interaction (run_bind_ok run_failWith_ok run_pure)
open Probe (Holds holds_append holds_cons run_bind_fetch run_fetchMany slice slice_of_holds)
open List hiding count length not_lt tail

theorem lengthOctets_read (held : Holds memory data (lengthOctets length)) (small : length < 2^63) :
    (asnParseLength data).run memory = .ok (length,data+(lengthOctets length).length) := by
  rw [asnParseLength,run_bind_fetch]
  by_cases short : length ≤ 0x7f
  · rw [lengthOctets,if_pos short] at held ⊢
    obtain ⟨here,-⟩ := holds_cons.mp held
    have clear : ∀ n : Fin 128, UInt8.ofNat n.val &&& asnLongLen = 0 := by decide
    rw [here,if_pos (clear ⟨length,by omega⟩)]
    simp only [run_pure,UInt8.toNat_ofNat',length_singleton]
    rw [Nat.mod_eq_of_lt (by omega)]
  rw [lengthOctets,if_neg short] at held ⊢
  obtain ⟨here,rest⟩ := holds_cons.mp held
  have few : (natOctets length).length ≤ 8 := natOctets_length_le (by omega)
  have some : 0 < (natOctets length).length := natOctets_length_pos (by omega)
  have marked : ∀ n : Fin 9, (UInt8.ofNat n.val ||| 0x80) &&& asnLongLen ≠ 0 ∧
      ((UInt8.ofNat n.val ||| 0x80) &&& 0x7f).toNat = n.val := by decide
  obtain ⟨long,count⟩ := marked ⟨(natOctets length).length,by omega⟩
  dsimp only at long count
  have value := natOctets_value length
  rw [here,if_neg long,count]
  rw [if_neg (by omega),if_neg (by simp only [sizeofLong]; omega),run_bind_ok _ (run_fetchMany _ _ _),
    slice_of_holds rest rfl,value,if_neg (by omega)]
  simp only [run_pure,length_cons]
  congr 2
  omega

def contentAt (data length : Nat) : Nat := data+1+(lengthOctets length).length

theorem tlv_length (type : UInt8) (content : List UInt8) :
    (tlv type content).length = 1+(lengthOctets content.length).length+content.length := by
  simp only [tlv,length_cons,length_append]; omega

theorem tlv_end (data : Nat) (type : UInt8) (content : List UInt8) :
    contentAt data content.length+content.length = data+(tlv type content).length := by
  rw [contentAt,tlv_length]; omega

theorem lengthOctets_short (small : length < 2^63) : (lengthOctets length).length ≤ 9 := by
  unfold lengthOctets
  split
  · simp
  · have few := natOctets_length_le (show length < 256^8 by omega)
    simpa using Nat.lt_succ_of_le few

theorem tlv_room (small : content.length ≤ 0x7fffffff) (room : (tlv type content).length ≤ budget) :
    content.length ≤ 0x7fffffff ∧ contentAt data content.length-data ≤ 0x7fffffff ∧
      content.length+(contentAt data content.length-data) ≤ budget := by
  have short := lengthOctets_short (show content.length < 2^63 by omega)
  rw [tlv_length] at room
  rw [contentAt]
  omega

theorem tlv_opened (held : Holds memory data (tlv type content)) (small : content.length ≤ 0x7fffffff)
    (room : (tlv type content).length ≤ budget) :
    memory data = type ∧
    Object memory (data+1) data budget content.length (contentAt data content.length) ∧
    Holds memory (contentAt data content.length) content := by
  obtain ⟨here,rest⟩ := holds_cons.mp held
  obtain ⟨length,inside⟩ := holds_append.mp rest
  exact ⟨here,⟨asnParseLength_extent.mp (lengthOctets_read length (by omega)),tlv_room small room⟩,inside⟩

theorem tlv_left (data : Nat) (content : List UInt8) :
    content.length+(contentAt data content.length-data) = (tlv type content).length := by
  rw [contentAt,tlv_length]; omega

section
variable (held : Holds memory data (tlv type content)) (plain : type &&& asnExtensionId ≠ asnExtensionId) (notOpaque : type ≠ asnOpaque) (small : content.length ≤ 0x7fffffff) (room : (tlv type content).length ≤ budget)
include held plain notOpaque small room

theorem asnParseHeader_reads :
    (asnParseHeader data budget).run memory = .ok ⟨type,content.length,contentAt data content.length⟩ := by
  obtain ⟨here,object,-⟩ := tlv_opened held small room
  rw [asnParseHeader,run_bind_fetch,here,if_neg plain,run_sized object]
  rw [if_neg notOpaque]
  rfl

theorem asnParseSequence_reads :
    (asnParseSequence data budget type).run memory = .ok ⟨type,content.length,contentAt data content.length⟩ := by
  rw [asnParseSequence,run_bind_ok _ (asnParseHeader_reads held plain notOpaque small room)]
  simp

end

theorem asnParseInt_reads (held : Holds memory data (tlv asnInteger content)) (some : content ≠ [])
    (few : content.length ≤ sizeofLong) (room : (tlv asnInteger content).length ≤ budget) :
    (asnParseInt data budget).run memory = .ok ⟨asnInteger,checkOverflowS (signedValue content),
      data+(tlv asnInteger content).length,budget-(tlv asnInteger content).length⟩ := by
  have small : content.length ≤ 0x7fffffff := by simp only [sizeofLong] at few; omega
  obtain ⟨here,object,inside⟩ := tlv_opened held small room
  rw [asnParseInt,run_bind_fetch,here,if_neg (by simp),run_sized object]
  rw [if_neg (by omega),run_bind_fetch,run_bind_ok _ (run_fetchMany _ _ _),slice_of_holds inside rfl,tlv_end,tlv_left]
  obtain ⟨octet,rest,rfl⟩ := exists_cons_of_ne_nil some
  rw [(holds_cons.mp inside).1]
  rfl

theorem asnParseString_reads (held : Holds memory data (tlv type content))
    (string : type = asnOctetStr ∨ type = asnIpaddress ∨ type = asnOpaque ∨ type = asnNsap)
    (small : content.length ≤ 0x7fffffff) (fits : content.length ≤ strlength)
    (room : (tlv type content).length ≤ budget) :
    (asnParseString data budget strlength).run memory =
      .ok ⟨type,content,data+(tlv type content).length,budget-(tlv type content).length⟩ := by
  obtain ⟨here,object,inside⟩ := tlv_opened held small room
  rw [asnParseString,run_bind_fetch,here,if_neg (by tauto),run_sized object]
  rw [if_neg (by omega),run_bind_ok _ (run_fetchMany _ _ _),slice_of_holds inside rfl,tlv_end,tlv_left]
  rfl

theorem asnParseUnsignedInt_reads (held : Holds memory data (tlv type (padded 0 (wholeOctets n))))
    (unsigned : type = asnCounter ∨ type = asnGauge ∨ type = asnTimeticks ∨ type = asnUinteger)
    (small : n ≤ 0xffffffff) (room : (tlv type (padded 0 (wholeOctets n))).length ≤ budget) :
    (asnParseUnsignedInt data budget).run memory = .ok ⟨type,n,data+(tlv type (padded 0 (wholeOctets n))).length,
        budget-(tlv type (padded 0 (wholeOctets n))).length⟩ := by
  have few := padded_length_le 0 (wholeOctets n)
  have short := wholeOctets_length_le 3 (show n < 256^4 by omega)
  obtain ⟨octet,rest,shape,clear,value,-⟩ := padded_zero (wholeOctets_ne_nil n)
  rw [wholeOctets_value] at value
  obtain ⟨here,object,inside⟩ := tlv_opened held (by omega) room
  have first : memory (contentAt data (padded 0 (wholeOctets n)).length) = octet := by
    rw [shape] at inside ⊢
    exact (holds_cons.mp inside).1
  rw [asnParseUnsignedInt,run_bind_fetch,here,if_neg (by tauto),run_sized object]
  rw [if_neg (by simp only [sizeofLong]; omega),
    run_bind_fetch,if_neg (by simp only [sizeofLong]; omega),run_bind_ok _ (run_fetchMany _ _ _),
    slice_of_holds inside rfl,tlv_end _ type,tlv_left _,first,if_neg (not_not.mpr clear)]
  dsimp only
  have total := Horner.horner_mod 256 (2^64) ((padded 0 (wholeOctets n)).map UInt8.toNat) 0
  rw [octetsValue] at value
  rw [foldl_map,value,Nat.mod_eq_of_lt (by omega : n < 2^64)] at total
  simp only [Nat.zero_mod] at total
  rw [total,checkOverflowU_small small]
  rfl

theorem shiftIn_value (octet : UInt8) (highSmall : word.1 < 2^32) (lowSmall : word.2 < 2^32) :
    (shiftIn word octet).1 < 2^32 ∧ (shiftIn word octet).2 < 2^32 ∧
    (shiftIn word octet).1*2^32+(shiftIn word octet).2 = ((word.1*2^32+word.2)*256+octet.toNat)%2^64 := by
  obtain ⟨high,low⟩ := word
  have octetSmall := octet.toNat_lt
  -- Shifts and masks as arithmetic; the eight bits that leave the low half enter the high one.
  have highPart : 0x00ffffff &&& high = high%2^24 := by
    rw [Nat.and_comm]; exact Nat.and_two_pow_sub_one_eq_mod high 24
  have lowPart : low &&& 0x00ffffff = low%2^24 := Nat.and_two_pow_sub_one_eq_mod low 24
  have carried : (low &&& 0xff000000) >>> 24 = low / 2^24 := by
    rw [Nat.shiftRight_and_distrib,Nat.shiftRight_eq_div_pow]
    rw [show 0xff000000 >>> 24 = 2^8-1 from rfl,Nat.and_two_pow_sub_one_eq_mod]
    omega
  have highWord : (high%2^24) <<< 8 ||| low / 2^24 = high%2^24 * 256 + low / 2^24 := by
    rw [← Nat.shiftLeft_add_eq_or_of_lt (by omega),Nat.shiftLeft_eq]
  have lowWord : (low%2^24) <<< 8 ||| octet.toNat = low%2^24 * 256 + octet.toNat := by
    rw [← Nat.shiftLeft_add_eq_or_of_lt (by omega),Nat.shiftLeft_eq]
  simp only [shiftIn,highPart,lowPart,carried,highWord,lowWord]
  omega

theorem shiftIn_fold (octets : List UInt8) (word : Nat × Nat) (highSmall : word.1 < 2^32) (lowSmall : word.2 < 2^32) :
    (octets.foldl shiftIn word).1 < 2^32 ∧ (octets.foldl shiftIn word).2 < 2^32 ∧
    (octets.foldl shiftIn word).1*2^32+(octets.foldl shiftIn word).2 =
      horner 256 (word.1*2^32+word.2) (octets.map UInt8.toNat)%2^64 := by
  induction octets generalizing word with
  | nil =>
    simp only [foldl_nil,map_nil,Horner.horner_nil]
    omega
  | cons octet rest ih =>
    obtain ⟨high,low,value⟩ := shiftIn_value octet highSmall lowSmall
    obtain ⟨finalHigh,finalLow,total⟩ := ih (shiftIn word octet) high low
    refine ⟨finalHigh,finalLow,?_⟩
    rw [foldl_cons,total,map_cons,Horner.horner_cons,value,Horner.horner_start,Horner.horner_start (_ + _)]
    rw [Nat.add_mod,Nat.mod_mul_mod,← Nat.add_mod]

theorem asnParseUnsignedInt64_reads (form : content = padded 0 (word64Octets high low))
    (held : Holds memory data (tlv asnCounter64 content))
    (highSmall : high ≤ 0xffffffff) (lowSmall : low ≤ 0xffffffff)
    (room : (tlv asnCounter64 content).length ≤ budget) :
    (asnParseUnsignedInt64 data budget).run memory =
      .ok ⟨asnCounter64,(high,low),data+(tlv asnCounter64 content).length,budget-(tlv asnCounter64 content).length⟩ := by
  have few := padded_length_le 0 (word64Octets high low)
  have short := word64Octets_length_le (show high < 2^32 by omega) (show low < 2^32 by omega)
  obtain ⟨octet,rest,shape,-,value,padding⟩ := padded_zero (word64Octets_ne_nil low)
  rw [← form] at few shape value padding
  rw [word64Octets_value high (by omega)] at value
  obtain ⟨here,object,inside⟩ := tlv_opened held (by omega) room
  have first : memory (contentAt data content.length) = octet := by
    rw [shape] at inside ⊢
    exact (holds_cons.mp inside).1
  rw [asnParseUnsignedInt64,run_bind_fetch,here,if_neg (by decide),run_sized object]
  rw [if_neg (by simp only [uint64sizelimit]; omega)]
  have leading : (leadingOctet content.length (contentAt data content.length)).run memory = .ok 0 := by
    unfold leadingOctet
    split
    · rename_i full
      rw [Probe.run_fetch,first,padding (by simp only [uint64sizelimit] at full; omega)]
    · rfl
  obtain ⟨wordHigh,wordLow,total⟩ := shiftIn_fold content (0,0) (by decide) (by decide)
  rw [octetsValue] at value
  simp only [zero_mul,add_zero,value] at total
  rw [run_bind_ok _ leading,if_neg (by simp),run_bind_ok _ (run_fetchMany _ _ _),slice_of_holds inside rfl,
    tlv_end _ asnCounter64,tlv_left _]
  dsimp only
  rw [checkOverflowU_small (by omega),checkOverflowU_small (by omega),
    show (foldl shiftIn (0,0) content).1 = high by omega,show (foldl shiftIn (0,0) content).2 = low by omega]
  rfl

theorem bit8_set (small : digit < 128) :
    UInt8.ofNat (digit+128) &&& asnBit8 ≠ 0 ∧ (UInt8.ofNat (digit+128) &&& 0x7f).toNat = digit := by
  have table : ∀ n : Fin 128, UInt8.ofNat (n.val+128) &&& asnBit8 ≠ 0 ∧
      (UInt8.ofNat (n.val+128) &&& 0x7f).toNat = n.val := by decide
  exact table ⟨digit,small⟩

theorem bit8_clear (digit : Nat) (small : digit < 128) :
    UInt8.ofNat digit &&& asnBit8 = 0 ∧ (UInt8.ofNat digit &&& 0x7f).toNat = digit := by
  have table : ∀ n : Fin 128, UInt8.ofNat n.val &&& asnBit8 = 0 ∧
      (UInt8.ofNat n.val &&& 0x7f).toNat = n.val := by decide
  exact table ⟨digit,small⟩

theorem subidentifier_skips {digits : List Nat} (small : ∀ digit ∈ digits, digit < 128)
    (held : Holds memory bufp (digits.map fun d => UInt8.ofNat (d+128))) (more : 0 < left) :
    (subidentifier (digits.length+left) bufp acc).run memory = (subidentifier left (bufp+digits.length)
        (digits.foldl (fun a d => (a*128+d)%2^64) acc)).run memory := by
  induction digits generalizing bufp acc with
  | nil => simp
  | cons digit rest ih =>
    obtain ⟨here,tail⟩ := holds_cons.mp held
    obtain ⟨marked,value⟩ := bit8_set (small digit (by simp))
    rw [length_cons,Nat.add_right_comm,subidentifier,run_bind_fetch,here,value,
      if_pos ⟨marked,by omega⟩,ih (fun later mem => small later (by simp [mem])) tail,foldl_cons,
      Nat.add_right_comm bufp,add_assoc bufp]

theorem subidentifier_reads (held : Holds memory bufp (subidOctets subid)) (small : subid < 2^64) (left : Nat) :
    (subidentifier ((subidOctets subid).length+left) bufp 0).run memory = .ok (subid,left,UInt8.ofNat (subid%128)) := by
  obtain ⟨leading,last⟩ := holds_append.mp held
  have digitsSmall : ∀ digit ∈ (Nat.digits 128 (subid/128)).reverse, digit < 128 := fun digit mem =>
    Nat.digits_lt_base (by decide) (mem_reverse.mp mem)
  have size : (subidOctets subid).length+left = (Nat.digits 128 (subid/128)).reverse.length+(left+1) := by
    simp [subidOctets,continued]; omega
  have folded := Horner.horner_mod 128 (2^64) (Nat.digits 128 (subid/128)).reverse 0
  rw [Horner.horner_digits,Nat.zero_mod,Nat.mod_eq_of_lt (by omega : subid/128 < 2^64)] at folded
  obtain ⟨clear,value⟩ := bit8_clear (subid%128) (by omega)
  rw [continued,length_map] at last
  -- The loop folds modulo 2^64, which leaves a small subidentifier as it is.
  rw [size,subidentifier_skips digitsSmall leading (by omega),folded,subidentifier,run_bind_fetch,
    (holds_cons.mp last).1,value,if_neg (by simp [clear])]
  simp only [run_pure]
  congr 3
  omega

theorem subidOctets_length_pos (subid : Nat) : 0 < (subidOctets subid).length := by simp [subidOctets]

theorem subidentifiers_reads (type : UInt8) (small : ∀ subid ∈ subids, subid ≤ maxSubid)
    (held : Holds memory bufp (subids.flatMap subidOctets)) (fits : subids.length ≤ room) :
    (subidentifiers type room (subids.flatMap subidOctets).length bufp).run memory = .ok subids := by
  induction subids generalizing bufp room with
  | nil => cases room <;> simp [subidentifiers]
  | cons subid rest ih =>
    rw [flatMap_cons] at held ⊢
    obtain ⟨first,tail⟩ := holds_append.mp held
    have bounded := small subid (by simp)
    have read := subidentifier_reads first (by simp only [maxSubid] at bounded; omega)
      (rest.flatMap subidOctets).length
    obtain ⟨clear,-⟩ := bit8_clear (subid%128) (by omega)
    obtain ⟨less,rfl⟩ : ∃ less, room = less+1 := ⟨room-1,by simp only [length_cons] at fits; omega⟩
    obtain ⟨size,total⟩ : ∃ size, (subidOctets subid).length+(rest.flatMap subidOctets).length = size+1 :=
      ⟨_,(Nat.sub_add_cancel (by have := subidOctets_length_pos subid; omega)).symm⟩
    have next : bufp+(size+1-(rest.flatMap subidOctets).length) = bufp+(subidOctets subid).length := by omega
    have remaining := ih (fun later mem => small later (by simp [mem])) tail
      (show rest.length ≤ less by simp only [length_cons] at fits; omega)
    rw [total] at read
    rw [length_append,total,subidentifiers,run_bind_ok _ read]
    dsimp only
    rw [if_neg (by simp [clear]),if_neg (by omega),next,run_bind_ok _ remaining]
    rfl

theorem splitFirst_joinFirst (fits : ObjidFits objid) : splitFirst (joinFirst objid) = objid := by
  obtain ⟨first,second,rest,rfl,-,arc,low,-,-⟩ := objidFits_shape fits
  have arcs : first = 0 ∨ first = 1 ∨ first = 2 := by omega
  rw [joinFirst,splitFirst]
  rcases arcs with rfl | rfl | rfl
  · rw [if_neg (by omega),if_pos (by omega)]
    simp
  -- The parser has a case of its own for 1.3.
  · by_cases iso : second = 3
    · subst second; rfl
    · rw [if_neg (by omega),if_neg (by omega),if_pos (by omega)]
      simp
  · rw [if_neg (by omega),if_neg (by omega),if_neg (by omega)]
    simp

theorem asnParseObjid_reads (fits : ObjidFits objid) (held : Holds memory data (tlv asnObjectId (objidOctets objid)))
    (small : (objidOctets objid).length ≤ 0x7fffffff) (room : (tlv asnObjectId (objidOctets objid)).length ≤ budget) :
    (asnParseObjid data budget).run memory = .ok ⟨asnObjectId,objid,data+(tlv asnObjectId (objidOctets objid)).length,
        budget-(tlv asnObjectId (objidOctets objid)).length⟩ := by
  obtain ⟨here,object,inside⟩ := tlv_opened held small room
  have joined : ∀ subid ∈ joinFirst objid, subid ≤ maxSubid := by
    obtain ⟨first,second,rest,rfl,-,-,-,leading,others⟩ := objidFits_shape fits
    simpa [joinFirst] using ⟨leading,others⟩
  have short : (joinFirst objid).length ≤ maxOidLen-1 := by
    obtain ⟨first,second,rest,rfl,limit,-⟩ := objidFits_shape fits
    simp only [joinFirst,length_cons]
    omega
  have read := subidentifiers_reads asnObjectId joined inside short
  rw [← objidOctets] at read
  rw [asnParseObjid,run_bind_fetch,here,if_neg (by simp),run_sized object]
  rw [run_bind_ok _ read,splitFirst_joinFirst fits,tlv_end,tlv_left]
  rfl

end NetSnmp.AsnRoundtrip
