import SipxExternals.NetSnmpAsnBuild

namespace NetSnmp.AsnBuildReads
open Foundations AsnTypes AsnParse AsnEncoding AsnRoundtrip AsnBuild
open AsnRbuild
open Interaction (run_bind_ok)
open Probe (Holds holds_append holds_cons image run_bind_fetch run_fetchMany slice slice_of_holds)
open Backfill (Emits Fails emits_bind emits_pure emits_push fails_after fails_bind fails_measured)
open UInt8 (ofNat)
open Int (bmod)

-- A routine that writes forward and one that fills a buffer from its end write the same.
def Agree (build : Nat → Built) (step : Rb Unit) (octets : List UInt8) : Prop :=
  Builds build octets ∧ Emits 0 0 step () octets

theorem checkOverflowS_bounds (x : Int) : -2^32 < checkOverflowS x ∧ checkOverflowS x < 2^32 := by
  unfold checkOverflowS
  split
  · omega
  · split <;> omega

theorem asnBuildInt_builds : ∃ content, Shortest (checkOverflowS x) content ∧ content.length ≤ 8 ∧
      Builds (fun room => asnBuildInt room type x sizeofLong) (tlv type content) := by
  have bounds := checkOverflowS_bounds x
  obtain ⟨content,stripped,few,shortest⟩ := strippedOctets_shortest longReading (x := checkOverflowS x)
    (w := (checkOverflowS x%2^64).toNat) ⟨by omega,by omega⟩ ⟨rfl,by omega⟩
  refine ⟨content,shortest,few,?_⟩
  simp only [asnBuildInt,stripped]
  exact buildObject_builds (by omega) rfl

theorem padded_zero_shortest (some : octets ≠ []) (value : octetsValue octets = v)
    (short : ∀ k, v < 256^(k+1) → octets.length ≤ k+1) : Shortest v (padded 0 octets) := by
  refine padded_shortest (.inl rfl) some ?_ fun k _ high => short k (by zify; exact high)
  rw [horner_octets,value]
  simp

theorem word64_shortest (lowSmall : low < 2^32) :
    Shortest (high*2^32+low : Nat) (padded 0 (word64Octets high low)) := by
  refine padded_zero_shortest (word64Octets_ne_nil low) (word64Octets_value high lowSmall) fun k small => ?_
  have lower := wholeOctets_length_le 3 lowSmall
  unfold word64Octets
  split
  · rename_i present
    have four : 4 ≤ k := by
      by_contra less
      have power : 256^(k+1) ≤ 256^4 := Nat.pow_le_pow_right (by decide) (by omega)
      omega
    obtain ⟨more,rfl⟩ := Nat.exists_eq_add_of_le four
    have upper := wholeOctets_length_le (n := high) more (by
      rw [show 4+more+1 = more+1+4 by omega,pow_add] at small
      omega)
    simp only [List.length_append,List.length_replicate]
    omega
  · rename_i absent
    exact wholeOctets_length_le k (by omega)

-- The octets of a 64-bit number that the forward encoder strips are those the reverse
-- encoder ends up with.
section
variable (highSmall : high ≤ 0xffffffff) (lowSmall : low ≤ 0xffffffff)
include highSmall lowSmall

theorem word64_built : unsignedOctets pairSame pairShift pairLead pairSet (high,low) =
      ((padded 0 (word64Octets high low)).length,padded 0 (word64Octets high low)) := by
  obtain ⟨content,built,few,shortest⟩ := unsignedOctets_shortest pairReading pairSet_top (w := (high,low))
    (v := high*2^32+low) ⟨by dsimp only; omega,by dsimp only; omega,rfl⟩
  obtain rfl := shortest_unique shortest (word64_shortest (by omega))
  exact built

theorem word64_few : (padded 0 (word64Octets high low)).length ≤ 9 := by
  have few := padded_length_le 0 (word64Octets high low)
  have short := word64Octets_length_le (show high < 2^32 by omega) (show low < 2^32 by omega)
  omega

theorem unsigned64_agree : Agree (fun room => asnBuildUnsignedInt64 room asnCounter64 (high,low) sizeofCounter64)
      (asnReallocRbuildUnsignedInt64 true asnCounter64 (high,low) sizeofCounter64)
      (tlv asnCounter64 (padded 0 (word64Octets high low))) := by
  have few := word64_few highSmall lowSmall
  refine ⟨?_,asnReallocRbuildUnsignedInt64_emits highSmall lowSmall⟩
  simp only [asnBuildUnsignedInt64,checkOverflowU_small highSmall,checkOverflowU_small lowSmall,
    word64_built highSmall lowSmall]
  exact buildObject_builds (by omega) rfl

end

theorem encoders_agree (type : UInt8) : (∀ x : Int, -2^31 ≤ x → x ≤ 2147483647 → ∃ content, Shortest x content ∧
      Agree (fun room => asnBuildInt room type x sizeofLong) (asnReallocRbuildInt true type x sizeofLong)
        (tlv type content)) ∧
    (∀ n : Nat, n ≤ 0xffffffff → ∃ content, Shortest n content ∧
      Agree (fun room => asnBuildUnsignedInt room type n sizeofLong)
        (asnReallocRbuildUnsignedInt true type n sizeofLong) (tlv type content)) ∧
    (∀ high ≤ 0xffffffff, ∀ low ≤ 0xffffffff, ∃ content, Shortest (high*2^32+low : Nat) content ∧
      Agree (fun room => asnBuildUnsignedInt64 room asnCounter64 (high,low) sizeofCounter64)
        (asnReallocRbuildUnsignedInt64 true asnCounter64 (high,low) sizeofCounter64) (tlv asnCounter64 content)) ∧
    (∀ str : List UInt8, str.length < 65536 →
      Agree (fun room => asnBuildString room type str) (asnReallocRbuildString true type str) (tlv type str)) := by
  refine ⟨fun x low high => ?_,fun n small => ?_,fun high highSmall low lowSmall => ?_,
    fun str short => ⟨?_,asnReallocRbuildString_emits⟩⟩
  · obtain ⟨content,shortest,-,builds⟩ := asnBuildInt_builds
    obtain ⟨octets,emits,some,value,short⟩ := intContent_emits
    rw [checkOverflowS_small low high] at shortest
    obtain rfl := shortest_unique shortest (padded_shortest signOf_cases some value short)
    refine ⟨_,shortest,builds,?_⟩
    rw [asnReallocRbuildInt,if_neg (by simp),checkOverflowS_small low high]
    exact rbuildObject_emits type emits
  · obtain ⟨content,built,few,shortest⟩ := unsignedOctets_shortest longReading longSet_top (w := n) (v := n)
      ⟨rfl,by omega⟩
    obtain rfl := shortest_unique shortest
      (padded_zero_shortest (wholeOctets_ne_nil n) (wholeOctets_value n) wholeOctets_length_le)
    refine ⟨_,shortest,?_,asnReallocRbuildUnsignedInt_emits small⟩
    simp only [asnBuildUnsignedInt,checkOverflowU_small small,built]
    exact buildObject_builds (by omega) rfl
  · exact ⟨_,word64_shortest (by omega),unsigned64_agree highSmall lowSmall⟩
  · exact buildObject_builds (by omega) rfl

theorem encoders_agree_negative : ∃ content, Shortest (-129) content ∧
    Agree (fun room => asnBuildInt room asnInteger (-129) sizeofLong) (asnReallocRbuildInt true asnInteger (-129) sizeofLong)
      (tlv asnInteger content) :=
  (encoders_agree asnInteger).1 (-129) (by decide) (by decide)

def opaqueOctets (tag : UInt8) (content : List UInt8) : List UInt8 :=
  tlv asnOpaque (asnOpaqueTag1 :: tag :: UInt8.ofNat content.length :: content)

theorem buildOpaque_builds (few : content.length ≤ 9) :
    Builds (fun room => buildOpaque room tag (content.length,content)) (opaqueOctets tag content) :=
  buildObject_builds (by simp only [List.length_cons]; omega) rfl

theorem opaqueContent_emits (emits : Emits 0 0 step () content) :
    Emits 0 0 (opaqueContent true tag step) () (asnOpaqueTag1 :: tag :: ofNat content.length :: content) := by
  show Emits 0 0 _ () ([asnOpaqueTag1,tag,ofNat content.length]++content)
  refine emits_bind (Backfill.emits_measured emits) ?_
  refine Backfill.emits_silent_bind reserve_emits (Backfill.emits_spare (Nat.zero_le 2) ?_)
  show Emits 5 2 _ () ([asnOpaqueTag1,tag]++[ofNat content.length])
  exact emits_bind (emits_push 4 _)
    (Backfill.emits_bind_octet (emits_push 3 _) (emits_push 2 _))

theorem signedLowLoop_emits (rounds low count : Nat) (small : low < 256^rounds) (few : count+rounds = 4)
    (started : 0 < count) :
    Emits 0 0 (signedLowLoop true 0 (rounds+1) low count) (count+(natOctets low).length) (natOctets low) := by
  induction rounds generalizing low count with
  | zero =>
    obtain rfl : low = 0 := by simpa using small
    exact emits_pure 0 count
  | succ rounds ih =>
    have bound : 256^(rounds+1) ≤ 256^3 := Nat.pow_le_pow_right (by decide) (by omega)
    have plain : cInt low = low := cInt_small (by omega)
    rw [signedLowLoop,plain]
    by_cases rest : low ≠ 0
    · have tail := ih (low/256) (count+1) (by rw [pow_succ] at small; omega) (by omega) (by omega)
      rw [if_pos (by omega),natOctets_step (by omega),ofNat_mod,Nat.shiftRight_eq_div_pow,List.length_append]
      rw [show count+1+(natOctets (low/256)).length = count+((natOctets (low/256)).length+1) by omega] at tail
      exact emits_bind (put_emits _) tail
    · rw [if_neg (by omega),not_not.mp rest]
      exact emits_pure 0 count

theorem signedHighLoop_emits (rounds n : Nat) (enough : n < rounds) (small : n < 2^31) :
    Emits 0 0 (signedHighLoop true 0 rounds n) () (natOctets n) := by
  induction rounds generalizing n with
  | zero => omega
  | succ rounds ih =>
    have plain : bmod n (2^32) = n := Int.bmod_eq_of_le (by omega) (by omega)
    rw [signedHighLoop,plain]
    by_cases rest : n ≠ 0
    · have octet : cByte n = ofNat (n%256) := by rw [cByte]; congr 1
      rw [if_pos (by omega),natOctets_step (by omega),octet]
      exact emits_bind (put_emits _) (by simpa using ih (n/256) (by omega) (by omega))
    · rw [if_neg (by omega),not_not.mp rest]
      exact emits_pure 0 ()

theorem signedHighLoop_fails (low : 0 ≤ high) (small : high < 16777216) :
    Fails (signedHighLoop true (-1) rounds high) := by
  induction rounds generalizing high with
  | zero => exact fun _ _ => rfl
  | succ rounds ih =>
    have plain : bmod high (2^32) = high := Int.bmod_eq_of_le (by omega) (by omega)
    rw [signedHighLoop,plain,if_pos (by omega)]
    exact fails_after _ fun _ => ih (by omega) (by omega)

theorem int64Octets_emits {high : Nat} (highSmall : high < 2^31) (lowSmall : low < 2^32) :
    Emits 0 0 (int64Octets true 0 high low) () (word64Octets high low) := by
  have counted : 1+(natOctets (low/256)).length = (wholeOctets low).length := by
    simp [wholeOctets]; omega
  have loop := signedLowLoop_emits 3 (low/256) 1 (by omega) rfl (by decide)
  rw [counted] at loop
  rw [int64Octets,word64Octets,Nat.shiftRight_eq_div_pow]
  by_cases present : high ≠ 0
  · have octet : cByte high = ofNat high := by rw [← ofNat_mod,cByte]; congr 1
    have upper := signedHighLoop_emits addressSpace (high/256) (by rw [addressSpace]; omega) (by omega)
    simp only [if_pos present,if_pos (show (high : Int) ≠ 0 by omega),octet,wholeOctets,← List.append_assoc]
    refine emits_bind (put_emits _) (emits_bind loop ?_)
    exact emits_bind putMany_emits (emits_bind (put_emits _) (by simpa using upper))
  · simp only [if_neg present,if_neg (show ¬ (high : Int) ≠ 0 by omega)]
    exact emits_bind (put_emits _) (Backfill.emits_bind_silent loop (emits_pure 0 ()))

theorem int64Octets_fails (low : 0 ≤ high) (small : high < 2^32) : Fails (int64Octets true (-1) high rest) := by
  refine fails_after _ fun _ => fails_after _ fun count => ?_
  rw [if_pos (by omega)]
  refine fails_after _ fun _ => fails_after _ fun _ => ?_
  exact signedHighLoop_fails (by omega) (by omega)

theorem overflow_plain {high : Nat} (small : high ≤ 0xffffffff) : checkOverflowS (bmod high (2^64)) = high := by
  rw [Int.bmod_eq_of_le (by omega) (by omega),checkOverflowS]
  split
  · omega
  · rw [if_neg (by omega)]

theorem signed64_fails (negative : 0x80000000 ≤ high) (small : high ≤ 0xffffffff) :
    Fails (asnReallocRbuildSignedInt64 true (high,low) sizeofCounter64) := by
  have mask := mask_high high 1 31
  norm_num [Nat.shiftLeft_eq] at mask
  rw [asnReallocRbuildSignedInt64,if_neg (by simp)]
  rw [overflow_plain small,mask,if_pos (by omega)]
  refine fails_bind _ (fails_bind _ (fails_measured (fails_bind _ ?_)))
  refine fails_measured (fails_bind _ ?_)
  exact int64Octets_fails (by omega) (by omega)

theorem signed64_agree (highSmall : high ≤ 0xffffffff) (lowSmall : low ≤ 0xffffffff) : ∃ content, content.length ≤ 8 ∧
      Builds (fun room => asnBuildSignedInt64 room (high,low) sizeofCounter64) (opaqueOctets asnOpaqueI64 content) ∧
      (Emits 0 0 (asnReallocRbuildSignedInt64 true (high,low) sizeofCounter64) ()
        (opaqueOctets asnOpaqueI64 content) ↔ high < 0x80000000) := by
  have plain := overflow_plain highSmall
  obtain ⟨x,fits,stands,plainly⟩ : ∃ x : Int, Fits 7 x ∧ high*2^32+low = (x%2^64).toNat ∧
      (high < 0x80000000 → x = (high*2^32+low : Nat)) := by
    unfold Fits
    by_cases positive : high < 0x80000000
    · exact ⟨(high*2^32+low : Nat),by omega,by omega,fun _ => rfl⟩
    · exact ⟨(high*2^32+low : Nat)-2^64,by omega,by omega,fun less => absurd less positive⟩
  obtain ⟨content,stripped,few,shortest⟩ := strippedOctets_shortest pairReading (w := (high,low)) fits
    ⟨by dsimp only; omega,by dsimp only; omega,stands⟩
  refine ⟨content,few,?_,?_⟩
  · have half : ((high : Int)%2^32).toNat = high := by omega
    simp only [asnBuildSignedInt64,plain,half,checkOverflowU_small lowSmall,stripped]
    exact buildOpaque_builds (by omega)
  constructor
  · intro emits
    by_contra negative
    exact Backfill.emits_not_fails emits (signed64_fails (by omega) highSmall)
  · intro positive
    have mask := mask_high high 1 31
    norm_num [Nat.shiftLeft_eq] at mask
    rw [plainly positive] at shortest
    obtain rfl := shortest_unique shortest (word64_shortest (by omega))
    rw [asnReallocRbuildSignedInt64,if_neg (by simp)]
    rw [plain,checkOverflowU_small lowSmall,mask,if_neg (by omega)]
    refine rbuildChecked_emits _ (opaqueContent_emits (padSign_emits ?_ (word64Octets_ne_nil low)))
    exact int64Octets_emits (by omega) (by omega)

theorem signed64_agree_positive :
    ∃ content, Emits 0 0 (asnReallocRbuildSignedInt64 true (1,0x80000000) sizeofCounter64) () (opaqueOctets asnOpaqueI64 content) := by
  obtain ⟨content,_,_,same⟩ := @signed64_agree 1 0x80000000 (by decide) (by decide)
  exact ⟨content,same.mpr (by decide)⟩

theorem minus_one_unbuilt :
    asnBuildSignedInt64 6 (0xffffffff,0xffffffff) sizeofCounter64 = some ([0x44,4,0x9f,0x7a,1,0xff],0) ∧
    Fails (asnReallocRbuildSignedInt64 true (0xffffffff,0xffffffff) sizeofCounter64) :=
  ⟨by decide +kernel,signed64_fails (by decide) (by decide)⟩

theorem unsigned64_read (kind : type = asnCounter64 ∨ type = asnOpaqueCounter64 ∨ type = asnOpaqueU64)
    (highSmall : high ≤ 0xffffffff) (lowSmall : low ≤ 0xffffffff) :
    ∃ octets, Builds (fun room => asnBuildUnsignedInt64 room type (high,low) sizeofCounter64) octets ∧
      ∀ memory data budget, Holds memory data octets → octets.length ≤ budget →
        ((∃ next left, (asnParseUnsignedInt64 data budget).run memory = .ok ⟨type,(high,low),next,left⟩) ↔
          type = asnCounter64) := by
  by_cases plain : type = asnCounter64
  · subst type
    refine ⟨_,(unsigned64_agree highSmall lowSmall).1,fun memory data budget held fits => ?_⟩
    exact ⟨fun _ => rfl,fun _ => ⟨_,_,asnParseUnsignedInt64_reads rfl held highSmall lowSmall fits⟩⟩
  · have wrapped : type = asnOpaqueCounter64 ∨ type = asnOpaqueU64 := by tauto
    refine ⟨opaqueOctets type (padded 0 (word64Octets high low)),?_,fun memory data budget held fits => ?_⟩
    · simp only [asnBuildUnsignedInt64,checkOverflowU_small highSmall,checkOverflowU_small lowSmall,
        word64_built highSmall lowSmall,if_pos wrapped]
      exact buildOpaque_builds (word64_few highSmall lowSmall)
    · refine iff_of_false ?_ plain
      rw [asnParseUnsignedInt64,run_bind_fetch,(holds_cons.mp held).1,if_pos (by decide)]
      rintro ⟨next,left,accepted⟩
      cases accepted

theorem unsigned64_read_counter :
    ∃ octets, Builds (fun room => asnBuildUnsignedInt64 room asnCounter64 (1,0x80000000) sizeofCounter64) octets ∧
      ∀ memory, Holds memory 0 octets → ∃ next left,
        (asnParseUnsignedInt64 0 octets.length).run memory = .ok ⟨asnCounter64,(1,0x80000000),next,left⟩ := by
  obtain ⟨octets,builds,read⟩ := @unsigned64_read asnCounter64 1 0x80000000 (by simp) (by decide) (by decide)
  exact ⟨octets,builds,fun memory held => (read memory 0 _ held le_rfl).mpr rfl⟩

theorem wrapped_unread : asnBuildUnsignedInt64 6 asnOpaqueU64 (0,0) sizeofCounter64 = some ([0x44,4,0x9f,0x7b,1,0],0) ∧
    ∀ budget value, (asnParseUnsignedInt64 0 budget).run (image [0x44,4,0x9f,0x7b,1,0]) ≠ .ok value := by
  refine ⟨by decide +kernel,fun budget value accepted => ?_⟩
  cases accepted

theorem length_read : (∀ length ≤ 0xffff, Builds (fun room => asnBuildLength room length) (lengthOctets length) ∧
      ∀ memory data, Holds memory data (lengthOctets length) →
        (asnParseLength data).run memory = .ok (length,data+(lengthOctets length).length)) ∧
    (∀ length < 2^63, Emits 0 0 (asnReallocRbuildLength true length) () (lengthOctets length) ∧
      ∀ memory data, Holds memory data (lengthOctets length) →
        (asnParseLength data).run memory = .ok (length,data+(lengthOctets length).length)) := by
  refine ⟨fun length small => ⟨asnBuildLength_builds small,fun memory data held => ?_⟩,
    fun length small => ⟨asnReallocRbuildLength_emits length,fun memory data held => ?_⟩⟩
  · exact lengthOctets_read held (by omega)
  · exact lengthOctets_read held small

theorem length_read_two : Builds (fun room => asnBuildLength room 0x100) (lengthOctets 0x100) :=
  (length_read.1 0x100 (by decide)).1

theorem long_length_misread : asnBuildLength 3 0x10000 = some ([0x82,0,0],0) ∧
    (asnParseLength 0).run (image [0x82,0,0]) = .ok (0,3) ∧
    Emits 0 0 (asnReallocRbuildLength true (2^63)) () [0x88,0x80,0,0,0,0,0,0,0] ∧
    (asnParseLength 0).run (image [0x88,0x80,0,0,0,0,0,0,0]) = .error () := by
  refine ⟨by decide,by decide,?_,by decide⟩
  have emits := asnReallocRbuildLength_emits (2^63)
  exact emits

-- The numbers that CHECK_OVERFLOW_S leaves congruent and in range, and those that it
-- does when it is used by the encoder and then by the parser.
def Kept (x : Int) : Prop :=
  (-2^31 ≤ x ∧ x ≤ 2147483647) ∨ (2147483647 < x ∧ x%2^32 < 2^31) ∨
    (x < -2^31 ∧ x%2^31 = 0)

def KeptTwice (x : Int) : Prop :=
  (-2^31 ≤ x ∧ x ≤ 2147483647) ∨ (2147483647 < x ∧ x%2^32 < 2^31) ∨
    (x < -2^31 ∧ (x%2^32 = 0 ∨ 2^31 ≤ x%2^32))

theorem kept_iff : (-2^31 ≤ checkOverflowS x ∧ checkOverflowS x ≤ 2147483647 ∧
      checkOverflowS x%2^32 = x%2^32) ↔ Kept x := by
  unfold checkOverflowS Kept
  split
  · omega
  · split <;> omega

theorem keptTwice_iff : checkOverflowS (checkOverflowS x) = bmod x (2^32) ↔ KeptTwice x := by
  unfold checkOverflowS KeptTwice
  rw [Int.bmod_def]
  split <;> split <;> split <;> omega

-- Without content the sign is that of the octet behind.
theorem asnParseInt_value (accepted : (asnParseInt data budget).run memory = .ok parsed)
    (object : Object memory (data+1) data budget length start) :
    parsed.value = checkOverflowS
      (if length = 0 ∧ memory start &&& 0x80 ≠ 0 then -1 else signedValue (slice memory start length)) := by
  rw [asnParseInt,run_bind_fetch] at accepted
  split at accepted
  · cases accepted
  rw [run_sized object] at accepted
  split at accepted
  · cases accepted
  · rw [run_bind_fetch,run_bind_ok _ (run_fetchMany _ _ _)] at accepted
    simp only [Interaction.run_pure,Except.ok.injEq] at accepted
    subst parsed
    cases length with
    | zero => by_cases set : memory start &&& 0x80 ≠ 0 <;> simp [slice,signedValue,set]
    | succ length => rw [if_neg (fun empty => Nat.succ_ne_zero length empty.1 : ¬ (length+1 = 0 ∧ _))]; rfl

theorem int_congruent (x : Int) : (∀ memory data budget parsed length start, (asnParseInt data budget).run memory = .ok parsed →
      Object memory (data+1) data budget length start →
      ((-2^31 ≤ parsed.value ∧ parsed.value ≤ 2147483647 ∧
        parsed.value%2^32 = signedValue (slice memory start length)%2^32) ↔
        Kept (signedValue (slice memory start length)) ∧ (length = 0 → memory start &&& 0x80 = 0))) ∧
    ∃ octets, Builds (fun room => asnBuildInt room asnInteger x sizeofLong) octets ∧
      ∀ memory data budget, Holds memory data octets → octets.length ≤ budget →
        ∃ parsed, (asnParseInt data budget).run memory = .ok parsed ∧
          (parsed.value = bmod x (2^32) ↔ KeptTwice x) := by
  refine ⟨fun memory data budget parsed length start accepted object => ?_,?_⟩
  · rw [asnParseInt_value accepted object]
    by_cases empty : length = 0 ∧ memory start &&& 0x80 ≠ 0
    · obtain ⟨rfl,set⟩ := empty
      rw [if_pos ⟨rfl,set⟩,show signedValue (slice memory start 0) = 0 from rfl]
      exact iff_of_false (by decide) fun kept => set (kept.2 rfl)
    · rw [if_neg empty,kept_iff]
      exact (and_iff_left (by tauto)).symm
  · obtain ⟨content,shortest,few,builds⟩ := asnBuildInt_builds
    refine ⟨_,builds,fun memory data budget held fits => ?_⟩
    refine ⟨_,asnParseInt_reads held shortest.filled few fits,?_⟩
    rw [shortest.value]
    exact keptTwice_iff

theorem int_congruent_minus_one : ∃ octets, Builds (fun room => asnBuildInt room asnInteger (-1) sizeofLong) octets ∧
      ∀ memory data budget, Holds memory data octets → octets.length ≤ budget →
        ∃ parsed, (asnParseInt data budget).run memory = .ok parsed ∧
          (parsed.value = bmod (-1) (2^32) ↔ KeptTwice (-1)) :=
  (int_congruent (-1)).2

theorem large_ints_misread :
    ((asnParseInt 0 7).run (image [2,5,0,0x80,0,0,0])).toOption.map Parsed.value = some (2^31) ∧
    asnBuildInt 6 asnInteger (-2147483649) sizeofLong = some ([2,4,0x80,0,0,1],0) ∧
    ((asnParseInt 0 6).run (image [2,4,0x80,0,0,1])).toOption.map Parsed.value = some (-2147483647) ∧
    bmod (-2147483649) (2^32) = 2147483647 := by
  decide +kernel

end NetSnmp.AsnBuildReads
