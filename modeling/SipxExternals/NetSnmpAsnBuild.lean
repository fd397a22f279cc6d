import SipxExternals.NetSnmpAsnRoundtrip

namespace NetSnmp.AsnBuild
open Foundations AsnTypes AsnParse AsnEncoding AsnRoundtrip
open AsnRbuild (cByte signOf)
open Backfill (Emits)
open List (length_cons)

-- The octets written at data and *datalength as the routine leaves it; none is NULL.
abbrev Built := Option (List UInt8 × Nat)

def asnBuildLength (datalength length : Nat) : Built :=
  if length < 0x80 then
    if datalength < 1 then none else some ([UInt8.ofNat length],datalength-1)
  else if length ≤ 0xff then
    if datalength < 2 then none else some ([0x01 ||| asnLongLen,UInt8.ofNat length],datalength-2)
  else if datalength < 3 then none
  else some ([0x02 ||| asnLongLen,UInt8.ofNat ((length >>> 8) &&& 0xff),UInt8.ofNat (length &&& 0xff)], datalength-3)

def asnBuildHeader (datalength : Nat) (type : UInt8) (length : Nat) : Built :=
  if datalength < 1 then none
  else (asnBuildLength (datalength-1) length).map fun built => (type :: built.1,built.2)

def buildObject (datalength : Nat) (type : UInt8) (size : Nat) (octets : List UInt8) : Built :=
  (asnBuildHeader datalength type size).bind fun header =>
    if header.2 < size then none else some (header.1++octets,header.2-size)

section
variable (same : ω → Bool) (shift : ω → ω) (lead : ω → UInt8)

def stripLoop : Nat → ω → Nat × ω
  | size+2,word => if same word then stripLoop (size+1) (shift word) else (size+2,word)
  | size,word => (size,word)

def leadOctets : Nat → ω → List UInt8
  | 0,_ => []
  | size+1,word => lead word :: leadOctets size (shift word)

def strippedOctets (word : ω) : Nat × List UInt8 :=
  let stripped := stripLoop same shift 8 word
  (stripped.1,leadOctets shift lead stripped.1 stripped.2)

-- The null octet of a number whose leading bit is set.
def unsignedOctets (set : ω → Bool) (word : ω) : Nat × List UInt8 :=
  if set word then (9,0 :: leadOctets shift lead 8 word) else strippedOctets same shift lead word

end

-- A long as its 64 bits, and the two halves of a counter64.
def longSame (word : Nat) : Bool :=
  word &&& 0xff80000000000000 = 0 || word &&& 0xff80000000000000 = 0xff80000000000000
def longShift (word : Nat) : Nat := (word <<< 8)%2^64
def longLead (word : Nat) : UInt8 := UInt8.ofNat ((word &&& 0xff00000000000000) >>> 56)
def longSet (word : Nat) : Bool := longLead word &&& 0x80 ≠ 0

def pairSame (word : Nat × Nat) : Bool := word.1 &&& 0xff800000 = 0 || word.1 &&& 0xff800000 = 0xff800000
def pairShift (word : Nat × Nat) : Nat × Nat := shiftIn word 0
def pairLead (word : Nat × Nat) : UInt8 := UInt8.ofNat (word.1 >>> 24)
def pairSet (word : Nat × Nat) : Bool := word.1 &&& 0x80000000 ≠ 0

def asnBuildInt (datalength : Nat) (type : UInt8) (value : Int) (intsize : Nat) : Built :=
  if intsize ≠ sizeofLong then none
  else
    let octets := strippedOctets longSame longShift longLead (checkOverflowS value%2^64).toNat
    buildObject datalength type octets.1 octets.2

def asnBuildUnsignedInt (datalength : Nat) (type : UInt8) (value intsize : Nat) : Built :=
  if intsize ≠ sizeofLong then none
  else
    let octets := unsignedOctets longSame longShift longLead longSet (checkOverflowU value)
    buildObject datalength type octets.1 octets.2

def asnBuildString (datalength : Nat) (type : UInt8) (str : List UInt8) : Built :=
  buildObject datalength type str.length str

-- An opaque that holds the special tag, the length and the octets of a number.
def buildOpaque (datalength : Nat) (tag : UInt8) (octets : Nat × List UInt8) : Built :=
  buildObject datalength asnOpaque (octets.1+3) (asnOpaqueTag1 :: tag :: UInt8.ofNat octets.1 :: octets.2)

def asnBuildUnsignedInt64 (datalength : Nat) (type : UInt8) (word : Nat × Nat) (countersize : Nat) : Built :=
  if countersize ≠ sizeofCounter64 then none
  else
    let octets := unsignedOctets pairSame pairShift pairLead pairSet (checkOverflowU word.1,checkOverflowU word.2)
    if type = asnOpaqueCounter64 ∨ type = asnOpaqueU64 then buildOpaque datalength type octets
    else buildObject datalength type octets.1 octets.2

-- Only the low 32 bits of the signed high half are looked at.
def asnBuildSignedInt64 (datalength : Nat) (word : Nat × Nat) (countersize : Nat) : Built :=
  if countersize ≠ sizeofCounter64 then none
  else
    let high := (checkOverflowS (Int.bmod word.1 (2^64))%2^32).toNat
    buildOpaque datalength asnOpaqueI64
      (strippedOctets pairSame pairShift pairLead (high,checkOverflowU word.2))

def Builds (build : Nat → Built) (octets : List UInt8) : Prop :=
  ∀ datalength, octets.length ≤ datalength → build datalength = some (octets,datalength-octets.length)

theorem asnBuildLength_builds (small : length ≤ 0xffff) :
    Builds (fun room => asnBuildLength room length) (lengthOctets length) := by
  intro room fits
  dsimp only [asnBuildLength]
  unfold lengthOctets at fits ⊢
  by_cases short : length < 0x80
  · rw [if_pos (show length ≤ 0x7f by omega)] at fits ⊢
    rw [if_pos short,if_neg (show ¬ room < 1 from Nat.not_lt.mpr fits)]
    rfl
  rw [if_neg (show ¬ length ≤ 0x7f by omega)] at fits ⊢
  rw [if_neg short]
  by_cases single : length ≤ 0xff
  · rw [natOctets_digit (by omega) single] at fits ⊢
    rw [if_pos single,if_neg (show ¬ room < 2 from Nat.not_lt.mpr fits)]
    rfl
  have two : natOctets length = [UInt8.ofNat (length/256),UInt8.ofNat (length%256)] := by
    rw [natOctets_step (by omega),natOctets_digit (by omega) (by omega)]
    rfl
  have high : (length >>> 8) &&& 0xff = length/256 := by
    rw [Nat.shiftRight_eq_div_pow,show (0xff : Nat) = 2^8-1 from rfl,Nat.and_two_pow_sub_one_eq_mod]
    omega
  rw [two] at fits ⊢
  rw [if_neg single,if_neg (show ¬ room < 3 from Nat.not_lt.mpr fits),high,
    show length &&& 0xff = length%256 from Nat.and_two_pow_sub_one_eq_mod length 8]
  rfl

theorem buildObject_builds (small : octets.length ≤ 0xffff)
    (size : octets.length = n) : Builds (fun room => buildObject room type n octets) (tlv type octets) := by
  subst n
  intro room fits
  rw [tlv_length] at fits ⊢
  have header := asnBuildLength_builds small (room-1) (by omega)
  simp only [buildObject,asnBuildHeader,if_neg (show ¬ room < 1 by omega),header,Option.map_some,Option.bind_some]
  rw [if_neg (by omega)]
  simp only [tlv,List.cons_append,Option.some.injEq,Prod.mk.injEq,true_and]
  omega

theorem octetsValue_cons : octetsValue (octet :: rest) = octet.toNat*256^rest.length+octetsValue rest := by
  simpa [octetsValue] using octetsValue_append [octet]

theorem octetsValue_lt (octets : List UInt8) : octetsValue octets < 256^octets.length := by
  induction octets with
  | nil => decide
  | cons octet rest ih =>
    have scaled := Nat.mul_le_mul_right (256^rest.length) (Nat.le_of_lt_succ octet.toNat_lt)
    rw [octetsValue_cons,length_cons,pow_succ]
    omega

theorem octetsValue_inj (length : first.length = second.length) (value : octetsValue first = octetsValue second) :
    first = second := by
  induction first generalizing second with
  | nil => exact (List.length_eq_zero_iff.mp length.symm).symm
  | cons octet rest ih =>
    obtain ⟨other,others,rfl⟩ := List.exists_cons_of_length_pos (by rw [← length]; simp)
    have size : rest.length = others.length := by simpa using length
    have low := octetsValue_lt rest
    have high := octetsValue_lt others
    rw [octetsValue_cons,octetsValue_cons,size] at value
    rw [size] at low
    have tail := congrArg (· % 256^others.length) value
    simp only [Nat.mul_add_mod',Nat.mod_eq_of_lt low,Nat.mod_eq_of_lt high] at tail
    have head : octet.toNat = other.toNat :=
      Nat.eq_of_mul_eq_mul_right (show 0 < 256^others.length by simp) (by omega)
    rw [UInt8.toNat_inj.mp head,ih size tail]

def Fits (k : Nat) (x : Int) : Prop := -(128*256^k) ≤ x ∧ x < 128*256^k

theorem fits_mono (small : j ≤ k) (fits : Fits j x) : Fits k x := by
  have larger : (256 : Int)^j ≤ 256^k := pow_le_pow_right₀ (by decide) small
  unfold Fits at fits ⊢
  omega

theorem sign_bit {octet : UInt8} : octet &&& 0x80 = if octet.toNat < 128 then 0 else 0x80 := by
  have table : ∀ n : Fin 256, UInt8.ofNat n.val &&& 0x80 = if n.val < 128 then 0 else 0x80 := by decide +kernel
  simpa using table ⟨octet.toNat,octet.toNat_lt⟩

theorem horner_octets :
    horner 256 start (octets.map fun b => (b.toNat : Int)) = start*256^octets.length+octetsValue octets := by
  induction octets generalizing start with
  | nil => simp [octetsValue]
  | cons octet rest ih =>
    rw [List.map_cons,Horner.horner_cons,ih,octetsValue_cons,length_cons]
    push_cast
    ring

-- Two's complement: the value of the octets, less the weight of one more octet if the
-- leading bit is set.
theorem signedValue_cases (length : octets.length = k+1) :
    (octetsValue octets < 128*256^k ∧ signedValue octets = octetsValue octets) ∨
    (128*256^k ≤ octetsValue octets ∧ signedValue octets = octetsValue octets-256^(k+1)) := by
  obtain ⟨octet,rest,rfl⟩ := List.exists_cons_of_length_pos (show 0 < octets.length by omega)
  obtain rfl : rest.length = k := by simpa using length
  have tail := octetsValue_lt rest
  rw [signedValue,horner_octets,octetsValue_cons,length_cons,sign_bit]
  by_cases clear : octet.toNat < 128
  · have scaled := Nat.mul_le_mul_right (256^rest.length) (Nat.le_of_lt_succ clear)
    rw [if_pos clear,if_neg (by simp)]
    exact .inl ⟨by omega,by omega⟩
  · have scaled := Nat.mul_le_mul_right (256^rest.length) (Nat.not_lt.mp clear)
    rw [if_neg clear,if_pos (by decide)]
    exact .inr ⟨by omega,by omega⟩

theorem signedValue_fits (length : octets.length = k+1) : Fits k (signedValue octets) := by
  have below := octetsValue_lt octets
  rw [length,pow_succ] at below
  unfold Fits
  rcases signedValue_cases length with ⟨small,value⟩ | ⟨large,value⟩
  · zify at small
    omega
  · zify at below large
    omega

theorem signedValue_eq (length : octets.length = k+1) (fits : Fits k x)
    (value : (octetsValue octets : Int) = x%256^(k+1)) : signedValue octets = x := by
  have reduced : x%256^(k+1) = x ∨ x%256^(k+1) = x+256^(k+1) := by
    unfold Fits at fits
    by_cases negative : x < 0
    · refine .inr ?_
      rw [← Int.add_emod_right,Int.emod_eq_of_lt (by omega) (by omega)]
    · exact .inl (Int.emod_eq_of_lt (by omega) (by omega))
  unfold Fits at fits
  rcases signedValue_cases length with ⟨small,signed⟩ | ⟨large,signed⟩
  · zify at small
    omega
  · zify at large
    omega

-- The two's complement octets of x, and no others have fewer.
structure Shortest (x : Int) (octets : List UInt8) : Prop where
  filled : octets ≠ []
  value : signedValue octets = x
  least : ∀ other, other ≠ [] → signedValue other = x → octets.length ≤ other.length

theorem shortest_unique (first : Shortest x octets) (second : Shortest x others) : octets = others := by
  have length := le_antisymm (first.least _ second.filled second.value) (second.least _ first.filled first.value)
  obtain ⟨k,size⟩ := Nat.exists_eq_succ_of_ne_zero (mt List.length_eq_zero_iff.mp first.filled)
  have low := octetsValue_lt octets
  have high := octetsValue_lt others
  have same := first.value.trans second.value.symm
  refine octetsValue_inj length ?_
  rw [← length,size] at high
  rw [size] at low
  zify at low high
  rcases signedValue_cases size with ⟨_,one⟩ | ⟨_,one⟩ <;>
    rcases signedValue_cases (length ▸ size) with ⟨_,two⟩ | ⟨_,two⟩ <;> omega

theorem shortest_of_fits (length : octets.length = k+1) (value : signedValue octets = x)
    (tight : ∀ j < k, ¬ Fits j x) : Shortest x octets := by
  refine ⟨by rintro rfl; simp at length,value,fun other filled same => ?_⟩
  obtain ⟨j,size⟩ := Nat.exists_eq_succ_of_ne_zero (mt List.length_eq_zero_iff.mp filled)
  by_contra fewer
  exact tight j (by omega) (same ▸ signedValue_fits size)

structure Reading (same : ω → Bool) (shift : ω → ω) (lead : ω → UInt8) (stands : ω → Nat → Prop) : Prop where
  small : stands w v → v < 2^64
  same : stands w v → (same w = true ↔ v < 2^55 ∨ 2^64-2^55 ≤ v)
  shift : stands w v → stands (shift w) (v*256%2^64)
  lead : stands w v → lead w = UInt8.ofNat (v/2^56)

section
variable {same : ω → Bool} {shift : ω → ω} {lead : ω → UInt8} {stands : ω → Nat → Prop}
  (reading : Reading same shift lead stands)
include reading

theorem leadOctets_value (few : n ≤ 8) (holds : stands w v) :
    octetsValue (leadOctets shift lead n w) = v/256^(8-n) ∧ (leadOctets shift lead n w).length = n := by
  induction n generalizing w v with
  | zero => exact ⟨(Nat.div_eq_of_lt (reading.small holds)).symm,rfl⟩
  | succ n ih =>
    obtain ⟨value,length⟩ := ih (by omega) (reading.shift holds)
    have small := reading.small holds
    rw [leadOctets,octetsValue_cons,length_cons,value,length,reading.lead holds,UInt8.toNat_ofNat']
    have bound : n < 8 := few
    interval_cases n <;> norm_num <;> omega

-- Of a number that fits, octets are dropped as long as fewer hold it.
theorem stripLoop_fits (few : k ≤ 7) (fits : Fits k x) (holds : stands w (x*256^(7-k)%2^64).toNat) :
    ∃ j u, stripLoop same shift (k+1) w = (j+1,u) ∧ j ≤ 7 ∧ Fits j x ∧ (∀ i < j, ¬ Fits i x) ∧
      stands u (x*256^(7-j)%2^64).toNat := by
  induction k generalizing w with
  | zero => exact ⟨0,w,rfl,few,fits,by simp,holds⟩
  | succ k ih =>
    have bound : k < 7 := few
    have fewer : same w = true ↔ Fits k x := by
      rw [reading.same holds]
      unfold Fits at fits ⊢
      interval_cases k <;> norm_num at fits ⊢ <;> omega
    rw [stripLoop]
    by_cases redundant : same w = true
    · rw [if_pos redundant]
      have next : (x*256^(7-(k+1))%2^64).toNat*256%2^64 = (x*256^(7-k)%2^64).toNat := by
        interval_cases k <;> norm_num <;> omega
      exact ih (by omega) (fewer.mp redundant) (next ▸ reading.shift holds)
    · rw [if_neg redundant]
      exact ⟨k+1,w,rfl,few,fits,fun i less inside => redundant (fewer.mpr (fits_mono (by omega) inside)),holds⟩

theorem strippedOctets_shortest (fits : Fits 7 x) (holds : stands w (x%2^64).toNat) :
    ∃ octets, strippedOctets same shift lead w = (octets.length,octets) ∧ octets.length ≤ 8 ∧ Shortest x octets := by
  obtain ⟨j,u,stripped,few,inside,tight,final⟩ := stripLoop_fits reading (le_refl 7) fits (by simpa using holds)
  obtain ⟨value,length⟩ := leadOctets_value reading (show j+1 ≤ 8 by omega) final
  refine ⟨leadOctets shift lead (j+1) u,?_,by omega,shortest_of_fits length (signedValue_eq length inside ?_) tight⟩
  · rw [strippedOctets,stripped,length]
  · rw [value]
    interval_cases j <;> norm_num <;> omega

theorem unsignedOctets_shortest (top : ∀ w v, stands w v → (leading w = true ↔ 2^63 ≤ v)) (holds : stands w v) :
    ∃ octets, unsignedOctets same shift lead leading w = (octets.length,octets) ∧ octets.length ≤ 9 ∧
      Shortest v octets := by
  have small := reading.small holds
  rw [unsignedOctets]
  by_cases set : leading w = true
  · obtain ⟨value,length⟩ := leadOctets_value reading (le_refl 8) holds
    have large := (top w v holds).mp set
    have nine : (0 :: leadOctets shift lead 8 w).length = 8+1 := by rw [length_cons,length]
    have whole : octetsValue (0 :: leadOctets shift lead 8 w) = v := by
      rw [octetsValue_cons,value]
      simp
    refine ⟨_,by rw [if_pos set,nine],by omega,shortest_of_fits nine ?_ fun j less fits => ?_⟩
    · rcases signedValue_cases nine with ⟨-,signed⟩ | ⟨high,-⟩
      · rw [signed,whole]
      · rw [whole] at high; omega
    · have full := (fits_mono (show j ≤ 7 by omega) fits).2
      omega
  · have clear := (top w v holds).not.mp set
    rw [if_neg set]
    have whole : ((v : Int)%2^64).toNat = v := by omega
    obtain ⟨octets,built,few,shortest⟩ := strippedOctets_shortest reading (x := v) ⟨by omega,by omega⟩ (whole ▸ holds)
    exact ⟨octets,built,by omega,shortest⟩

end

theorem mask_high (x m k : Nat) : x &&& (2^m-1) <<< k = x/2^k%2^m*2^k := by
  rw [← Nat.and_two_pow_sub_one_eq_mod,← Nat.shiftRight_eq_div_pow,← Nat.shiftLeft_eq]
  apply Nat.eq_of_testBit_eq
  intro i
  simp only [Nat.testBit_and,Nat.testBit_shiftLeft,Nat.testBit_shiftRight]
  by_cases inside : k ≤ i
  · simp [inside,Nat.add_sub_cancel' inside]
  · simp [inside]

theorem longReading : Reading longSame longShift longLead (fun w v => w = v ∧ v < 2^64) where
  small holds := holds.2
  same := by
    rintro w v ⟨rfl,small⟩
    have mask := mask_high w 9 55
    norm_num [Nat.shiftLeft_eq] at mask
    simp only [longSame,mask,Bool.or_eq_true,decide_eq_true_eq]
    omega
  shift := by
    rintro w v ⟨rfl,small⟩
    rw [longShift,Nat.shiftLeft_eq]
    omega
  lead := by
    rintro w v ⟨rfl,small⟩
    have mask := mask_high w 8 56
    norm_num [Nat.shiftLeft_eq] at mask
    rw [longLead,mask,Nat.shiftRight_eq_div_pow]
    congr 1
    omega

theorem pairReading : Reading pairSame pairShift pairLead (fun w v => w.1 < 2^32 ∧ w.2 < 2^32 ∧ w.1*2^32+w.2 = v) where
  small holds := by omega
  same := by
    rintro w v ⟨high,low,rfl⟩
    have mask := mask_high w.1 9 23
    norm_num [Nat.shiftLeft_eq] at mask
    simp only [pairSame,mask,Bool.or_eq_true,decide_eq_true_eq]
    omega
  shift := by
    rintro w v ⟨high,low,rfl⟩
    simpa [pairShift] using shiftIn_value 0 high low
  lead := by
    rintro w v ⟨high,low,rfl⟩
    rw [pairLead,Nat.shiftRight_eq_div_pow]
    congr 1
    omega

theorem longSet_top (w v : Nat) (holds : w = v ∧ v < 2^64) : longSet w = true ↔ 2^63 ≤ v := by
  rw [longSet,longReading.lead holds,decide_eq_true_eq,sign_bit,UInt8.toNat_ofNat']
  split
  · simp; omega
  · simp; omega

theorem pairSet_top (w : Nat × Nat) (v : Nat) (holds : w.1 < 2^32 ∧ w.2 < 2^32 ∧ w.1*2^32+w.2 = v) :
    pairSet w = true ↔ 2^63 ≤ v := by
  have mask := mask_high w.1 1 31
  norm_num [Nat.shiftLeft_eq] at mask
  simp only [pairSet,mask,decide_eq_true_eq]
  omega

-- The reverse encoders stop with the octets of the number itself and pad them if the
-- leading bit is not the sign.
theorem padded_shortest (sign : test = 0 ∨ test = -1) (some : octets ≠ [])
    (value : horner 256 test (octets.map fun b => (b.toNat : Int)) = x)
    (short : ∀ k, -256^(k+1) ≤ x → x < 256^(k+1) → octets.length ≤ k+1) : Shortest x (padded test octets) := by
  have signed := (padded_signed sign some).trans value
  obtain ⟨octet,rest,rfl⟩ := List.exists_cons_of_ne_nil some
  rw [padded] at signed ⊢
  split at signed
  · rename_i same
    rw [if_pos same]
    refine shortest_of_fits length_cons signed fun j less fits => ?_
    unfold Fits at fits
    have fewer := short j (by rw [pow_succ]; omega) (by rw [pow_succ]; omega)
    rw [length_cons] at fewer
    omega
  · rename_i differ
    rw [if_neg differ]
    refine shortest_of_fits length_cons signed fun j less fits => ?_
    have full := fits_mono (by simpa using Nat.le_of_lt_succ less) fits
    have tail := octetsValue_lt rest
    rw [horner_octets,octetsValue_cons,length_cons,pow_succ] at value
    unfold Fits at full
    zify at tail
    push_cast at value
    rw [sign_bit] at differ
    rcases sign with rfl | rfl
    · have large : 128 ≤ octet.toNat := by
        by_contra small
        exact differ (if_pos (by omega))
      have scaled := Nat.mul_le_mul_right (256^rest.length) large
      zify at scaled
      omega
    · have small : octet.toNat ≤ 127 := by
        by_contra large
        exact differ (if_neg (by omega))
      have scaled := Nat.mul_le_mul_right (256^rest.length) small
      zify at scaled
      omega

end NetSnmp.AsnBuild
