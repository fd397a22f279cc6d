import Mathlib.Data.List.Basic

namespace Foundations.Utf8
open List
open String (utf8EncodeChar)

theorem code_bound (c : Char) : c.toNat < 1114112 := by
  have valid := c.valid
  simp only [UInt32.isValidChar,Nat.isValidChar,Char.toNat_val] at valid
  omega

theorem ascii_byte (small : c.toNat < 128) : utf8EncodeChar c = [UInt8.ofNat c.toNat] := by
  simp only [utf8EncodeChar,Char.toNat_val]
  rw [if_pos (by omega)]

theorem wide_bytes (wide : 128 ≤ c.toNat) :
    2 ≤ (utf8EncodeChar c).length ∧ ∀ byte ∈ utf8EncodeChar c, 128 ≤ byte.toNat := by
  simp only [utf8EncodeChar,Char.toNat_val]
  rw [if_neg (by omega)]
  split
  · simp
    omega
  split
  · simp
    omega
  · simp
    omega

theorem byte_small (c : Char) : ∀ byte ∈ utf8EncodeChar c, byte.toNat < 255 := by
  simp only [utf8EncodeChar,Char.toNat_val]
  split
  · simp
    omega
  split
  · simp
    omega
  split
  · simp
    omega
  · simp
    omega

def decodeFirst (input : List UInt8) : Nat × List UInt8 :=
  let a := (input.getD 0 0).toNat
  let b := (input.getD 1 0).toNat-128
  let c := (input.getD 2 0).toNat-128
  let d := (input.getD 3 0).toNat-128
  if a < 128 then (a,input.drop 1)
  else if a < 224 then ((a-192)*64+b,input.drop 2)
  else if a < 240 then ((a-224)*4096+b*64+c,input.drop 3)
  else ((a-240)*262144+b*4096+c*64+d,input.drop 4)

theorem decodeFirst_encoded : decodeFirst (utf8EncodeChar c++rest) = (c.toNat,rest) := by
  have bound := code_bound c
  simp only [utf8EncodeChar,Char.toNat_val]
  obtain ⟨v,code⟩ : ∃ v, c.toNat = v := ⟨_,rfl⟩
  rw [code] at bound ⊢
  split_ifs with one two three
  all_goals
    simp only [decodeFirst,cons_append,nil_append,getD_cons_zero,getD_cons_succ,drop_succ_cons,
      drop_zero,UInt8.toNat_ofNat']
  · rw [if_pos (by omega)]
    refine Prod.ext ?_ rfl
    show _ = v
    omega
  · rw [if_neg (by omega),if_pos (by omega)]
    refine Prod.ext ?_ rfl
    show _ = v
    omega
  · rw [if_neg (by omega),if_neg (by omega),if_pos (by omega)]
    refine Prod.ext ?_ rfl
    show _ = v
    omega
  · rw [if_neg (by omega),if_neg (by omega),if_neg (by omega)]
    refine Prod.ext ?_ rfl
    show _ = v
    omega

theorem encoding_free (same : utf8EncodeChar c++left = utf8EncodeChar d++right) : c = d ∧ left = right := by
  have decoded := congrArg decodeFirst same
  rw [decodeFirst_encoded,decodeFirst_encoded] at decoded
  obtain ⟨code,rest⟩ := Prod.mk.inj decoded
  exact ⟨Char.toNat_inj.mp code,rest⟩

def encode (text : List Char) : List UInt8 := text.flatMap utf8EncodeChar

@[simp]
theorem encode_nil : encode [] = [] := rfl

@[simp]
theorem encode_cons : encode (c :: text) = utf8EncodeChar c++encode text := by
  simp [encode]

@[simp]
theorem encode_append : encode (left++right) = encode left++encode right := by
  simp [encode]

theorem encode_small : ∀ byte ∈ encode text, byte.toNat < 255 := by
  intro byte mem
  obtain ⟨c,_,inside⟩ := mem_flatMap.mp mem
  exact byte_small c byte inside

theorem encode_begins (left right : List Char) : encode left <+: encode right ↔ left <+: right := by
  induction left generalizing right with
  | nil => simp
  | cons c left ih =>
    constructor
    · rintro ⟨rest,same⟩
      cases right with
      | nil =>
        have nothing : utf8EncodeChar c = [] := by
          simp only [encode_cons,encode_nil,append_eq_nil_iff] at same
          exact same.1.1
        exact absurd nothing (String.utf8EncodeChar_ne_nil)
      | cons d right =>
        rw [encode_cons,encode_cons,append_assoc] at same
        obtain ⟨equal,others⟩ := encoding_free same
        exact cons_prefix_cons.mpr ⟨equal,(ih right).mp ⟨rest,others⟩⟩
    · rintro ⟨rest,rfl⟩
      exact ⟨encode rest,by simp⟩

-- The first bytes of a character begin a text exactly if they begin its first character.
theorem part_begins (inside : part <+: utf8EncodeChar e) : part <+: encode (c :: text) ↔ part <+: utf8EncodeChar c := by
  constructor
  · intro begins
    rcases prefix_or_prefix_of_prefix begins (prefix_append (utf8EncodeChar c) (encode text)) with shorter | longer
    · exact shorter
    obtain ⟨rest,same⟩ := longer.trans inside
    have equal : utf8EncodeChar c++rest = utf8EncodeChar e++[] := by simpa using same
    rw [(encoding_free equal).1]
    exact inside
  · intro begins
    exact begins.trans (prefix_append ..)

end Foundations.Utf8
