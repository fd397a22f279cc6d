import SipxExternals.FoundationsCStrings
import SipxExternals.FoundationsNumerals

namespace NetSnmp.ReadConfig
open Foundations.CStrings Foundations.Numerals List

-- isspace of the C locale.
def isspace (c : Char) : Bool := c = ' ' || ('\t' ≤ c && c ≤ '\r')

-- A pointer into a line is the text from there on, and NULL is none.
def present : List Char → Option (List Char)
  | [] => none
  | '#' :: _ => none
  | text => some text

def skipWhiteConst (ptr : Option (List Char)) : Option (List Char) :=
  ptr.bind fun text => present (text.dropWhile isspace)

def skipNotWhiteConst (ptr : Option (List Char)) : Option (List Char) :=
  ptr.bind fun text => present (text.dropWhile (!isspace ·))

def skipTokenConst (ptr : Option (List Char)) : Option (List Char) :=
  skipWhiteConst (skipNotWhiteConst (skipWhiteConst ptr))

def atoi (text : List Char) : Int :=
  match text.dropWhile isspace with
  | '-' :: digits => -(scanDecimal 0 digits : Int)
  | '+' :: digits => scanDecimal 0 digits
  | digits => scanDecimal 0 digits

def octet (c : Char) : UInt8 := UInt8.ofNat c.toNat

def quotedWord (quote : Char) : List Char → List UInt8 × List Char
  | [] => ([],[])
  | '\\' :: c :: rest =>
    let (word,behind) := quotedWord quote rest
    (octet c :: word,behind)
  | c :: rest =>
    if c = quote then ([],rest)
    else
      let (word,behind) := quotedWord quote rest
      (octet c :: word,behind)

def plainWord : List Char → List UInt8 × List Char
  | [] => ([],[])
  | '\\' :: c :: rest =>
    let (word,behind) := plainWord rest
    (octet c :: word,behind)
  | c :: rest =>
    if isspace c then ([],c :: rest)
    else
      let (word,behind) := plainWord rest
      (octet c :: word,behind)

-- At most one character less than the array has is copied, and then the terminator.
def copyNwordConst (readfrom : List Char) (size : Nat) (room : 0 < size) : Fill size × Option (List Char) :=
  let (word,behind) :=
    match readfrom with
    | '"' :: rest => quotedWord '"' rest
    | '\'' :: rest => quotedWord '\'' rest
    | _ => plainWord readfrom
  (⟨word.take (size-1),true,by rw [List.length_take]; omega⟩,skipWhiteConst (some behind))

def easilyPrintable (c : UInt8) : Bool :=
  (0x41 ≤ c && c ≤ 0x5a) || (0x61 ≤ c && c ≤ 0x7a) || (0x30 ≤ c && c ≤ 0x39) || c = 0x20

def hexOctet (c : UInt8) : List Char := [Nat.digitChar (c.toNat/16),Nat.digitChar (c.toNat%16)]

def readConfigSaveOctetString (str : List UInt8) : List Char :=
  if str.length ≠ 0 ∧ str.all easilyPrintable then '"' :: str.map (fun c => Char.ofNat c.toNat) ++ ['"']
  else '0' :: 'x' :: str.flatMap hexOctet

-- sscanf of "%2x" where no blank is in front; a lone "0x" has no digits.
def sscanfHex : List Char → Option UInt8
  | '-' :: d :: _ => (digitValue d).map fun low => -UInt8.ofNat low
  | '+' :: d :: _ => (digitValue d).map UInt8.ofNat
  | '0' :: 'x' :: _ => none
  | '0' :: 'X' :: _ => none
  | c :: d :: _ => (digitValue c).map fun high =>
    match digitValue d with
    | some low => UInt8.ofNat (16*high+low)
    | none => UInt8.ofNat high
  | _ => none

-- The octets that are written, and the text behind them if all could be read.
def hexLoop : Nat → List Char → List UInt8 × Option (List Char)
  | 0,readfrom => ([],some readfrom)
  | n+1,readfrom =>
    match sscanfHex readfrom with
    | some tmp =>
      let (octets,behind) := hexLoop n (readfrom.drop 2)
      (tmp :: octets,behind)
    | none => ([],none)

theorem hexLoop_length (n : Nat) (readfrom : List Char) : (hexLoop n readfrom).1.length ≤ n := by
  induction n generalizing readfrom with
  | zero => exact le_refl 0
  | succ n ih =>
    rw [hexLoop]
    split
    · exact Nat.succ_le_succ (ih _)
    · exact Nat.zero_le _

def hexLength (digits : List Char) : Nat := (digits.takeWhile (!isspace ·)).length

def isHex : List Char → Bool
  | '0' :: 'x' :: _ => true
  | '0' :: 'X' :: _ => true
  | _ => false

-- The caller's array is given, as everywhere in this file's callers; none is an array
-- that is left as it was.
def readConfigReadOctetString (readfrom : Option (List Char)) (size : Nat) (room : 0 < size) :
    Option (Fill size) × Option (List Char) :=
  match readfrom with
  | none => (none,none)
  | some text =>
    if isHex text then
      let digits := text.drop 2
      let ilen := hexLength digits
      if ilen%2 ≠ 0 then (none,none)
      else if small : ilen/2 < size then
        let read := hexLoop (ilen/2) digits
        (some ⟨read.1,read.2.isSome,(hexLoop_length _ _).trans_lt small⟩,skipWhiteConst read.2)
      else (none,skipWhiteConst (skipNotWhiteConst (some digits)))
    else
      let (fill,behind) := copyNwordConst text size room
      (some fill,behind)

def readInto (a : CharArray size) (room : 0 < size) (readfrom : Option (List Char)) : CharArray size × Option (List Char) :=
  let read := readConfigReadOctetString readfrom size room
  (read.1.elim a a.patch,read.2)

def Solid (c : Char) : Prop := isspace c = false ∧ c ≠ '#'

def Begins (text : List Char) : Prop := ∃ c rest, text = c :: rest ∧ Solid c

theorem present_begins (begins : Begins text) : present text = some text := by
  obtain ⟨c,rest,rfl,-,other⟩ := begins
  rw [present]
  · intro empty
    cases empty
  · intro _ hash
    exact other (cons.inj hash).1

theorem begins_append (begins : Begins text) : Begins (text++rest) := by
  obtain ⟨c,behind,rfl,solid⟩ := begins
  exact ⟨c,behind++rest,rfl,solid⟩

theorem skipWhite_blanks (n : Nat) (begins : Begins text) :
    skipWhiteConst (some (replicate n ' '++text)) = some text := by
  have blanks : ∀ c ∈ replicate n ' ', isspace c = true := fun c mem => by
    rw [eq_of_mem_replicate mem]
    rfl
  rw [skipWhiteConst,Option.bind_some,dropWhile_append_of_pos blanks]
  obtain ⟨c,rest,rfl,solid⟩ := id begins
  rw [dropWhile_cons_of_neg (by simp [solid.1])]
  exact present_begins begins

theorem skipToken_word (begins : Begins word) (solid : ∀ c ∈ word, isspace c = false) (n : Nat) (rest_begins : Begins rest) :
    skipTokenConst (some (word++replicate (n+1) ' '++rest)) = some rest := by
  have first : skipWhiteConst (some (word++replicate (n+1) ' '++rest)) = some (word++replicate (n+1) ' '++rest) :=
    skipWhite_blanks 0 (begins_append (begins_append begins))
  have second : skipNotWhiteConst (some (word++replicate (n+1) ' '++rest)) = some (replicate (n+1) ' '++rest) := by
    rw [skipNotWhiteConst,Option.bind_some,append_assoc,
      dropWhile_append_of_pos (fun c mem => by simp [solid c mem]),replicate_succ,cons_append,
      dropWhile_cons_of_neg (by decide)]
    rfl
  rw [skipTokenConst,first,second]
  exact skipWhite_blanks (n+1) rest_begins

theorem digitChar_solid (small : n < 16) : Solid (Nat.digitChar n) := by
  interval_cases n <;> exact ⟨rfl,by decide⟩

theorem signedNumeral_solid (mem : c ∈ signedNumeral n) : Solid c := by
  have digits : ∀ c ∈ numeral n.natAbs, Solid c := fun c inList => by
    obtain ⟨digit,small,rfl⟩ := mem_numeral inList
    exact digitChar_solid (by omega)
  rw [signedNumeral] at mem
  split at mem
  · cases mem with
    | head => exact ⟨by decide,by decide⟩
    | tail _ mem => exact digits c mem
  · exact digits c mem

theorem begins_of_solid (some_char : text ≠ []) (solid : ∀ c ∈ text, Solid c) : Begins text := by
  cases text with
  | nil => exact absurd rfl some_char
  | cons c rest => exact ⟨c,rest,rfl,solid c (.head _)⟩

theorem signedNumeral_begins (n : Int) : Begins (signedNumeral n) := by
  refine begins_of_solid ?_ fun c mem => signedNumeral_solid mem
  rw [signedNumeral]
  split
  · simp
  · exact numeral_ne_nil

theorem atoi_signedNumeral : atoi (signedNumeral n++ ' ' :: rest) = n := by
  have blank : decimalValue ' ' = none := by decide
  have number := scanDecimal_numeral n.natAbs blank rest
  rw [atoi,signedNumeral]
  by_cases negative : n < 0
  · rw [if_pos negative,cons_append,dropWhile_cons_of_neg (by decide)]
    change -(scanDecimal 0 (numeral n.natAbs++ ' ' :: rest) : Int) = n
    omega
  rw [if_neg negative]
  cases written : numeral n.natAbs with
  | nil => exact absurd written numeral_ne_nil
  | cons c more =>
    obtain ⟨digit,small,is⟩ := mem_numeral (n := n.natAbs) (c := c) (by simp [written])
    rw [written] at number
    have unspaced : isspace c = false := is ▸ (digitChar_solid (by omega)).1
    rw [cons_append,dropWhile_cons_of_neg (by simp [unspaced])]
    have unsigned : c ≠ '-' ∧ c ≠ '+' := by
      rw [is]
      interval_cases digit <;> decide
    split
    · rename_i same
      exact absurd (cons.inj same).1 unsigned.1
    · rename_i same
      exact absurd (cons.inj same).1 unsigned.2
    · rw [← cons_append,number]
      omega

theorem saved_hex {s : CString} :
    readConfigSaveOctetString (s.text++[0]) = '0' :: 'x' :: (s.text++[0]).flatMap hexOctet := by
  have zero : easilyPrintable 0 = false := by decide
  rw [readConfigSaveOctetString,if_neg]
  simp [zero]

theorem saved_begins {s : CString} : Begins (readConfigSaveOctetString (s.text++[0])) := by
  rw [saved_hex]
  exact ⟨'0',_,rfl,rfl,by decide⟩

theorem hexOctet_solid {octets : List UInt8} (mem : c ∈ octets.flatMap hexOctet) : isspace c = false := by
  obtain ⟨octet,-,digit⟩ := mem_flatMap.mp mem
  have bound := octet.toNat_lt
  simp only [hexOctet,mem_cons,not_mem_nil,or_false] at digit
  rcases digit with rfl | rfl
  · exact (digitChar_solid (by omega)).1
  · exact (digitChar_solid (by omega)).1

theorem digitChar_plain (small : n < 16) : Nat.digitChar n ≠ '-' ∧ Nat.digitChar n ≠ '+' ∧ Nat.digitChar n ≠ 'x' ∧
    Nat.digitChar n ≠ 'X' := by
  interval_cases n <;> decide

theorem sscanfHex_hexOctet : sscanfHex (hexOctet c++rest) = some c := by
  have bound := c.toNat_lt
  obtain ⟨minus,plus,-,-⟩ := digitChar_plain (n := c.toNat/16) (by omega)
  obtain ⟨-,-,small_x,big_x⟩ := digitChar_plain (n := c.toNat%16) (by omega)
  have value : UInt8.ofNat (16*(c.toNat/16)+c.toNat%16) = c := by
    rw [Nat.div_add_mod]
    exact UInt8.ofNat_toNat
  simp only [hexOctet,cons_append,nil_append]
  have high : digitValue (Nat.digitChar (c.toNat/16)) = some (c.toNat/16) := digitValue_digitChar (by omega)
  have low : digitValue (Nat.digitChar (c.toNat%16)) = some (c.toNat%16) := digitValue_digitChar (by omega)
  rw [sscanfHex,high,low]
  · exact congrArg some value
  · exact minus
  · exact plus
  · exact fun _ => small_x
  · exact fun _ => big_x

theorem hexLoop_saved (octets : List UInt8) (rest : List Char) :
    hexLoop octets.length (octets.flatMap hexOctet++rest) = (octets,some rest) := by
  induction octets with
  | nil => rfl
  | cons octet octets ih =>
    rw [flatMap_cons,append_assoc,length_cons,hexLoop,sscanfHex_hexOctet]
    have behind : (hexOctet octet++(octets.flatMap hexOctet++rest)).drop 2 = octets.flatMap hexOctet++rest := rfl
    rw [behind,ih]

theorem flatMap_hexOctet_length {octets : List UInt8} : (octets.flatMap hexOctet).length = 2*octets.length := by
  induction octets with
  | nil => rfl
  | cons octet octets ih =>
    rw [flatMap_cons,length_append,ih,length_cons]
    simp only [hexOctet,length_cons,length_nil]
    omega

def Stops (behind : List Char) : Prop := behind = [] ∨ ∃ rest, behind = ' ' :: rest

theorem hexLength_saved (octets : List UInt8) (stops : Stops behind) :
    hexLength (octets.flatMap hexOctet++behind) = 2*octets.length := by
  rw [hexLength,takeWhile_append_of_pos fun c mem => by simp [hexOctet_solid mem]]
  have none_left : behind.takeWhile (!isspace ·) = [] := by
    rcases stops with rfl | ⟨rest,rfl⟩
    · rfl
    · rfl
  rw [none_left,append_nil,flatMap_hexOctet_length]

theorem skipNotWhite_saved {octets : List UInt8} (stops : Stops behind) :
    skipWhiteConst (skipNotWhiteConst (some (octets.flatMap hexOctet++behind))) = skipWhiteConst (some behind) := by
  rw [skipNotWhiteConst,Option.bind_some,dropWhile_append_of_pos fun c mem => by simp [hexOctet_solid mem]]
  rcases stops with rfl | ⟨rest,rfl⟩
  · rfl
  · rfl

theorem readInto_saved (a : CharArray size) (s : CString) (stops : Stops behind) :
    ∃ b, readInto a room (some (readConfigSaveOctetString (s.text++[0])++behind)) = (b,skipWhiteConst (some behind)) ∧
      b.text = if s.strlen+1 < size then s else a.text := by
  have length : (s.text++[0]).length = s.strlen+1 := by simp [CString.strlen]
  have ilen := hexLength_saved (s.text++[0]) stops
  have half : 2*(s.strlen+1)/2 = s.strlen+1 := by omega
  rw [length] at ilen
  rw [saved_hex,readInto,readConfigReadOctetString]
  simp only [cons_append,isHex,if_true,drop_succ_cons,drop_zero,ilen,half]
  rw [if_neg (by omega)]
  by_cases small : s.strlen+1 < size
  · have read := hexLoop_saved (s.text++[0]) behind
    rw [length] at read
    simp only [small,dif_pos,if_true,read,Option.isSome_some,Option.elim_some]
    exact ⟨_,rfl,CharArray.text_patch rfl rfl⟩
  · simp only [small,dif_neg,not_false_eq_true,if_false,Option.elim_none]
    exact ⟨a,by rw [skipNotWhite_saved stops],rfl⟩

end NetSnmp.ReadConfig
