import SipxExternals.MongoBsonCompare
import SipxExternals.MongoIndexScan
import SipxExternals.FoundationsRegex
import SipxExternals.FoundationsUtf8

namespace Mongo.SimpleRegex
open Foundations.CStrings Mongo.IndexScan BsonCompare

inductive BoundsTightness where
  | exact
  | inexactCovered
  deriving DecidableEq

def code (c : Char) : UInt8 := UInt8.ofNat c.toNat

def isSpace (c : UInt8) : Bool := c = 32 || (9 ≤ c && c ≤ 13)

-- The escapes that simpleRegex does not look into; of the digits only 0 is one.
def unknownEscape (c : UInt8) : Bool :=
  (code 'A' ≤ c && c ≤ code 'Z') || (code 'a' ≤ c && c ≤ code 'z') || (code '0' ≤ c && c ≤ code '0')

def metacharacters : List UInt8 := "^$.[()+".toList.map code++[123]

-- What the loop over the flags comes to: whether the pattern is extended, or none when the
-- index cannot be used.
def readFlags (multilineOK : Bool) : Bool → List UInt8 → Option Bool
  | extended,[] => some extended
  | extended,c :: flags =>
    if c = code 'm' then if multilineOK then readFlags multilineOK extended flags else none
    else if c = code 'x' then readFlags multilineOK true flags
    else none

-- At the end of the pattern everything that was written is the result.
def atEnd (ss : List UInt8) : Option (List UInt8 × BoundsTightness) :=
  some (ss,if ss.isEmpty then .inexactCovered else .exact)

-- The flag says whether the loop is in a \Q quotation; none means that the byte behind the terminator is read.
def scanLoop (extended : Bool) : Bool → List UInt8 → List UInt8 → Option (List UInt8 × BoundsTightness)
  | false,ss,[] => atEnd ss
  | true,ss,[] => atEnd ss
  | true,ss,[c] => atEnd (ss++[c])
  | true,ss,c :: d :: regex =>
    if c = code '\\' ∧ d = code 'E' then scanLoop extended false ss regex
    else scanLoop extended true (ss++[c]) (d :: regex)
  | false,ss,c :: regex =>
    if c = code '*' ∨ c = code '?' then some (ss.dropLast,.inexactCovered)
    else if c = code '|' then some ([],.inexactCovered)
    else if c = code '\\' then
      match regex with
      | [] => if ss.isEmpty then none else some (ss,.inexactCovered)
      | d :: regex =>
        if d = code 'Q' then scanLoop extended true ss regex
        else if unknownEscape d then some (ss,.inexactCovered)
        else scanLoop extended false (ss++[d]) regex
    else if c ∈ metacharacters then some (ss,.inexactCovered)
    else if extended ∧ c = code '#' then some (ss,.inexactCovered)
    else if extended ∧ isSpace c then scanLoop extended false ss regex
    else scanLoop extended false (ss++[c]) regex

def simpleRegex (regex flags : List UInt8) : Option (List UInt8 × BoundsTightness) :=
  let start :=
    match regex with
    | a :: b :: rest => if a = code '\\' ∧ b = code 'A' then some (true,rest) else if a = code '^' then some (false,b :: rest) else none
    | [a] => if a = code '^' then some (false,[]) else none
    | [] => none
  match start with
  | none => some ([],.inexactCovered)
  | some (multilineOK,rest) =>
    match readFlags multilineOK false flags with
    | none => some ([],.inexactCovered)
    | some extended => scanLoop extended false [] rest

-- The values of an index that matter here: strings, the least value behind all strings, which is
-- the empty object, and regular expressions.
inductive IndexValue where
  | string (value : List UInt8)
  | emptyObject
  | regex (pattern flags : List UInt8)

def IndexValue.value : IndexValue → Value
  | .string value => .string value
  | .emptyObject => .object .nil
  | .regex pattern flags => .regEx pattern flags

def indexValues : KeyValues IndexValue where
  value := IndexValue.value
  compared := by
    rintro (_ | _ | _) (_ | _ | _) same <;> first | rfl | simp [IndexValue.value,Value.canonicalType] at same

def woCompare : IndexValue → IndexValue → Int := indexValues.woCompare

def bumpLast (start : List UInt8) : List UInt8 := start.dropLast++(start.getLast?.map (·+1)).toList

def makeRangeInterval (start ending : IndexValue) (startInclusive endInclusive : Bool) : Interval IndexValue :=
  ⟨start,startInclusive,ending,endInclusive⟩

def makePointInterval (value : IndexValue) : Interval IndexValue := ⟨value,true,value,true⟩

def translateRegex (pattern flags : List UInt8) : Option (List (Interval IndexValue) × BoundsTightness) :=
  match simpleRegex pattern flags with
  | none => none
  | some (start,tightness) =>
    let strings :=
      if !start.isEmpty then makeRangeInterval (.string start) (.string (bumpLast start)) true false
      else makeRangeInterval (.string []) .emptyObject true false
    some ([strings,makePointInterval (.regex pattern flags)],tightness)

open Foundations.Regex Foundations.Utf8 List
open String (utf8EncodeChar)

section
variable {extended : Bool} {ss tail : List UInt8}

theorem code_toNat (small : c.toNat < 128) : (code c).toNat = c.toNat := by
  simp only [code,UInt8.toNat_ofNat']
  omega

theorem code_eq (left : c.toNat < 128) (right : d.toNat < 128) : code c = code d ↔ c = d := by
  constructor
  · intro same
    have values := congrArg UInt8.toNat same
    rw [code_toNat left,code_toNat right] at values
    exact Char.toNat_inj.mp values
  · rintro rfl
    rfl

theorem encode_ascii (small : c.toNat < 128) : utf8EncodeChar c = [code c] := ascii_byte small

def copied (extended : Bool) (byte : UInt8) : Prop :=
  byte ≠ code '*' ∧ byte ≠ code '?' ∧ byte ≠ code '|' ∧ byte ≠ code '\\' ∧ byte ∉ metacharacters ∧
    (extended = true → byte ≠ code '#' ∧ isSpace byte = false)

theorem scan_step : scanLoop extended false ss (c :: tail) =
    if c = code '*' ∨ c = code '?' then some (ss.dropLast,.inexactCovered)
    else if c = code '|' then some ([],.inexactCovered)
    else if c = code '\\' then
      match tail with
      | [] => if ss.isEmpty then none else some (ss,.inexactCovered)
      | d :: regex =>
        if d = code 'Q' then scanLoop extended true ss regex
        else if unknownEscape d then some (ss,.inexactCovered)
        else scanLoop extended false (ss++[d]) regex
    else if c ∈ metacharacters then some (ss,.inexactCovered)
    else if extended ∧ c = code '#' then some (ss,.inexactCovered)
    else if extended ∧ isSpace c then scanLoop extended false ss tail
    else scanLoop extended false (ss++[c]) tail := by
  cases tail with
  | nil | cons d regex => rw [scanLoop.eq_def]

theorem scan_copied (plain : copied extended byte) :
    scanLoop extended false ss (byte :: tail) = scanLoop extended false (ss++[byte]) tail := by
  obtain ⟨star,option,bar,escape,marks,space⟩ := plain
  rw [scan_step,if_neg (by simp [star,option]),if_neg bar,if_neg escape,if_neg marks]
  cases extended with
  | false => simp
  | true =>
    obtain ⟨comment,blank⟩ := space rfl
    rw [if_neg (by simp [comment]),if_neg (by simp [blank])]

theorem scan_copied_all (plain : ∀ byte ∈ input, copied extended byte) :
    scanLoop extended false ss (input++tail) = scanLoop extended false (ss++input) tail := by
  induction input generalizing ss with
  | nil => simp
  | cons byte input ih =>
    rw [cons_append,scan_copied (plain byte mem_cons_self),ih (forall_mem_cons.mp plain).2,append_assoc]
    rfl

theorem copied_wide (wide : 128 ≤ byte.toNat) : copied extended byte := by
  have differs : ∀ {c : Char}, c.toNat < 128 → byte ≠ code c := by
    rintro c small rfl
    rw [code_toNat small] at wide
    omega
  refine ⟨differs (by decide),differs (by decide),differs (by decide),differs (by decide),?_,fun _ => ⟨differs (by decide),?_⟩⟩
  · intro mem
    have small : metacharacters.all (fun other => decide (other.toNat < 128)) = true := by decide
    have less := of_decide_eq_true (all_eq_true.mp small byte mem)
    omega
  have high : ¬byte ≤ 13 := by
    show ¬byte.toNat ≤ 13
    omega
  have apart : byte ≠ 32 := by
    rintro rfl
    exact absurd wide (by decide)
  simp [isSpace,high,apart]

theorem space_blank (small : c.toNat < 128) (space : isSpace (code c) = true) :
    isBlank c = true ∨ c = Char.ofNat 11 := by
  have value := code_toNat small
  have codes : c.toNat = 32 ∨ c.toNat = 9 ∨ c.toNat = 10 ∨ c.toNat = 11 ∨ c.toNat = 12 ∨ c.toNat = 13 := by
    simp only [isSpace,Bool.or_eq_true,decide_eq_true_eq,Bool.and_eq_true,UInt8.le_iff_toNat_le,value] at space
    rcases space with same | ⟨low,high⟩
    · have equal := congrArg UInt8.toNat same
      rw [value] at equal
      exact .inl equal
    · have lower : 9 ≤ c.toNat := low
      have upper : c.toNat ≤ 13 := high
      omega
  rcases codes with same | same | same | same | same | same
  · exact .inl (by rw [← Char.ofNat_toNat c,same]; decide)
  · exact .inl (by rw [← Char.ofNat_toNat c,same]; decide)
  · exact .inl (by rw [← Char.ofNat_toNat c,same]; decide)
  · exact .inr (by rw [← Char.ofNat_toNat c,same])
  · exact .inl (by rw [← Char.ofNat_toNat c,same]; decide)
  · exact .inl (by rw [← Char.ofNat_toNat c,same]; decide)

theorem special_codes (mem : c ∈ special) : c.toNat < 128 := by
  have all : special.all (fun c => decide (c.toNat < 128)) = true := by decide
  exact of_decide_eq_true (all_eq_true.mp all c mem)

theorem copied_plain (small : c.toNat < 128) (plain : plain extended c) (tab : extended = true → c ≠ Char.ofNat 11) :
    copied extended (code c) := by
  obtain ⟨ordinary,_,spaces⟩ := plain
  have differs : ∀ {d : Char}, d ∈ special → code c ≠ code d := by
    intro d mem same
    rw [(code_eq small (special_codes mem)).mp same] at ordinary
    exact ordinary mem
  have other : ∀ {d : Char}, d.toNat < 128 → c ≠ d → code c ≠ code d := fun bound apart =>
    mt (code_eq small bound).mp apart
  refine ⟨differs (by decide),differs (by decide),differs (by decide),differs (by decide),?_,?_⟩
  · intro mem
    have listed : metacharacters.all (fun byte => special.any fun d => byte = code d) = true := by decide
    obtain ⟨d,inside,same⟩ := any_eq_true.mp (all_eq_true.mp listed _ mem)
    exact differs inside (of_decide_eq_true same)
  intro mode
  obtain ⟨blank,comment⟩ := spaces mode
  refine ⟨other (by decide) comment,?_⟩
  by_contra space
  cases space_blank small (by simpa using space) with
  | inl kind =>
    rw [blank] at kind
    cases kind
  | inr kind => exact tab mode kind

theorem scan_plain (plain : plain extended c) (tab : extended = true → c ≠ Char.ofNat 11) :
    scanLoop extended false ss (utf8EncodeChar c++tail) = scanLoop extended false (ss++utf8EncodeChar c) tail := by
  refine scan_copied_all ?_
  intro byte mem
  by_cases small : c.toNat < 128
  · rw [encode_ascii small,mem_singleton] at mem
    exact mem ▸ copied_plain small plain tab
  · exact copied_wide ((wide_bytes (Nat.le_of_not_lt small)).2 byte mem)

theorem scan_skipped (other : copied false c) (comment : c ≠ code '#') (space : isSpace c = true) :
    scanLoop true false ss (c :: tail) = scanLoop true false ss tail := by
  obtain ⟨star,option,bar,escape,marks,_⟩ := other
  rw [scan_step,if_neg (by simp [star,option]),if_neg bar,if_neg escape,if_neg marks,if_neg (by simp [comment]),
    if_pos ⟨rfl,space⟩]

theorem scan_blank (blank : isBlank c = true) :
    scanLoop true false ss (utf8EncodeChar c++tail) = scanLoop true false ss tail := by
  have listed : c = ' ' ∨ c = '\t' ∨ c = '\n' ∨ c = '\r' ∨ c = Char.ofNat 12 := by simpa [isBlank,or_assoc] using blank
  have ordinary : plain false c := by
    refine ⟨?_,?_,fun wrong => by cases wrong⟩
    · rcases listed with rfl | rfl | rfl | rfl | rfl <;> decide
    · rcases listed with rfl | rfl | rfl | rfl | rfl <;> decide
  have small : c.toNat < 128 := by rcases listed with rfl | rfl | rfl | rfl | rfl <;> decide
  have space : isSpace (code c) = true := by rcases listed with rfl | rfl | rfl | rfl | rfl <;> decide
  have comment : code c ≠ code '#' := by rcases listed with rfl | rfl | rfl | rfl | rfl <;> decide
  rw [encode_ascii small]
  exact scan_skipped (copied_plain small ordinary fun wrong => by cases wrong) comment space

theorem scan_space (blanks : ∀ c ∈ space, extended = true ∧ isBlank c = true) :
    scanLoop extended false ss (encode space++tail) = scanLoop extended false ss tail := by
  induction space with
  | nil => rfl
  | cons c space ih =>
    obtain ⟨rfl,blank⟩ := blanks c (.head _)
    rw [encode_cons,append_assoc,scan_blank blank]
    exact ih (forall_mem_cons.mp blanks).2

theorem scan_escape : scanLoop extended false ss (code '\\' :: d :: tail) =
    if d = code 'Q' then scanLoop extended true ss tail
    else if unknownEscape d then some (ss,.inexactCovered)
    else scanLoop extended false (ss++[d]) tail := by
  rw [scan_step,if_neg (by decide),if_neg (by decide),if_pos rfl]

theorem alphanumeric_small (kind : isAlphanumeric c = true) : c.toNat < 128 := by
  simp only [isAlphanumeric,Bool.or_eq_true,Bool.and_eq_true,decide_eq_true_eq,Char.le_def,UInt32.le_iff_toNat_le] at kind
  have upper : ('Z').val.toNat = 90 ∧ ('z').val.toNat = 122 ∧ ('9').val.toNat = 57 := by decide
  rw [Char.toNat]
  omega

theorem unknown_code (small : c.toNat < 128) :
    unknownEscape (code c) = true ↔ isAlphanumeric c = true ∧ ¬('1' ≤ c ∧ c ≤ '9') := by
  have value := code_toNat small
  have codes : (code 'A').toNat = 65 ∧ (code 'Z').toNat = 90 ∧ (code 'a').toNat = 97 ∧ (code 'z').toNat = 122 ∧ (code '0').toNat = 48 := by
    decide
  have points : ('A').val.toNat = 65 ∧ ('Z').val.toNat = 90 ∧ ('a').val.toNat = 97 ∧ ('z').val.toNat = 122 ∧
      ('0').val.toNat = 48 ∧ ('1').val.toNat = 49 ∧ ('9').val.toNat = 57 := by decide
  simp only [unknownEscape,isAlphanumeric,Bool.or_eq_true,Bool.and_eq_true,decide_eq_true_eq,UInt8.le_iff_toNat_le,
    Char.le_def,UInt32.le_iff_toNat_le,value]
  rw [Char.toNat]
  omega

theorem scan_escaped (other : isAlphanumeric c = false) :
    scanLoop extended false ss (encode ['\\',c]++tail) = scanLoop extended false (ss++utf8EncodeChar c) tail := by
  have start : encode ['\\',c]++tail = code '\\' :: (utf8EncodeChar c++tail) := by
    simp [encode_ascii (show ('\\').toNat < 128 by decide)]
  rw [start]
  by_cases small : c.toNat < 128
  · have quote : code c ≠ code 'Q' := by
      intro same
      rw [(code_eq small (by decide)).mp same] at other
      exact absurd other (by decide)
    have known : unknownEscape (code c) = false := by
      by_contra wrong
      rw [((unknown_code small).mp (by simpa using wrong)).1] at other
      cases other
    rw [encode_ascii small,singleton_append,scan_escape,if_neg quote,known]
    rfl
  -- the first byte is taken behind the backslash and the others are copied
  obtain ⟨_,high⟩ := wide_bytes (Nat.le_of_not_lt small)
  cases shape : utf8EncodeChar c with
  | nil => exact absurd shape String.utf8EncodeChar_ne_nil
  | cons first rest =>
    rw [shape] at high
    have wide := high first (.head _)
    have quote : first ≠ code 'Q' := by
      rintro rfl
      exact absurd wide (by decide)
    have known : unknownEscape first = false := by
      have codes : (code 'Z').toNat = 90 ∧ (code 'z').toNat = 122 ∧ (code '0').toNat = 48 := by decide
      simp only [unknownEscape,Bool.or_eq_false_iff,Bool.and_eq_false_iff,decide_eq_false_iff_not,UInt8.le_iff_toNat_le]
      omega
    rw [cons_append,scan_escape,if_neg quote,known]
    have copying : scanLoop extended false (ss++[first]) (rest++tail) = scanLoop extended false (ss++[first]++rest) tail :=
      scan_copied_all fun byte mem => copied_wide (high byte (.tail _ mem))
    simpa using copying

theorem quote_step : scanLoop extended true ss (c :: d :: tail) =
    if c = code '\\' ∧ d = code 'E' then scanLoop extended false ss tail
    else scanLoop extended true (ss++[c]) (d :: tail) := by
  rw [scanLoop.eq_def]

theorem quote_all (other : ∀ byte ∈ input, byte ≠ code '\\') :
    scanLoop extended true ss (input++d :: tail) = scanLoop extended true (ss++input) (d :: tail) := by
  induction input generalizing ss with
  | nil => simp
  | cons c input ih =>
    have deeper : scanLoop extended true (ss++[c]) (input++d :: tail) = scanLoop extended true (ss++[c]++input) (d :: tail) :=
      ih (forall_mem_cons.mp other).2
    have differs : ¬(c = code '\\' ∧ ∃ e, e = code 'E') := fun both => other c (.head _) both.1
    cases input with
    | nil => rw [singleton_append,quote_step,if_neg fun both => differs ⟨both.1,d,both.2⟩]
    | cons e input =>
      rw [cons_append,cons_append,quote_step,if_neg fun both => differs ⟨both.1,e,both.2⟩]
      simpa using deeper

theorem byte_differs (small : d.toNat < 128) (apart : c ≠ d) : ∀ byte ∈ utf8EncodeChar c, byte ≠ code d := by
  rintro _ mem rfl
  by_cases short : c.toNat < 128
  · rw [encode_ascii short,mem_singleton] at mem
    exact apart ((code_eq small short).mp mem).symm
  · have wide := (wide_bytes (Nat.le_of_not_lt short)).2 _ mem
    rw [code_toNat small] at wide
    omega

theorem encode_start (c : Char) : ∃ byte rest, utf8EncodeChar c = byte :: rest := by
  cases shape : utf8EncodeChar c with
  | nil => exact absurd shape String.utf8EncodeChar_ne_nil
  | cons byte rest => exact ⟨byte,rest,rfl⟩

theorem scan_quote (inside : unclosed text = true) :
    scanLoop extended true ss (encode text++code '\\' :: code 'E' :: tail) = scanLoop extended false (ss++encode text) tail := by
  induction text generalizing ss with
  | nil => rw [encode_nil,nil_append,quote_step,if_pos ⟨rfl,rfl⟩,append_nil]
  | cons c text ih =>
    simp only [unclosed,Bool.and_eq_true,Bool.not_eq_true',Bool.and_eq_false_iff,decide_eq_false_iff_not] at inside
    obtain ⟨here,behind⟩ := inside
    rw [encode_cons,← append_assoc,← ih behind]
    by_cases escape : c = '\\'
    · subst escape
      have follows : text.head? ≠ some 'E' := here.resolve_left fun wrong => wrong rfl
      rw [encode_ascii (by decide)]
      cases text with
      | nil => exact quote_step.trans (if_neg fun both => absurd both.2 (by decide))
      | cons d text =>
        obtain ⟨byte,rest,shape⟩ := encode_start d
        have differs : byte ≠ code 'E' := byte_differs (by decide) (by simpa using follows) byte (by simp [shape])
        simp only [encode_cons,shape,cons_append,nil_append]
        exact quote_step.trans (if_neg fun both => differs both.2)
    · have copying := byte_differs (by decide) escape
      rcases encode text with _ | ⟨byte,rest⟩
      · simpa using quote_all copying
      · simpa using quote_all copying

theorem scan_quoted (inside : unclosed text = true) :
    scanLoop extended false ss (encode ('\\' :: 'Q' :: text++['\\','E'])++tail) = scanLoop extended false (ss++encode text) tail := by
  have start : encode ('\\' :: 'Q' :: text++['\\','E'])++tail =
      code '\\' :: code 'Q' :: (encode text++code '\\' :: code 'E' :: tail) := by
    simp [encode_ascii (show ('\\').toNat < 128 by decide),encode_ascii (show ('Q').toNat < 128 by decide),
      encode_ascii (show ('E').toNat < 128 by decide)]
  rw [start,scan_escape,if_pos rfl,scan_quote inside]

-- The vertical tab is white space for isspace.
def taken (extended : Bool) (atom : Atom) : Prop := extended = true → atom ≠ .char (Char.ofNat 11)

theorem scan_literal {atom : Atom} (formed : atom.WellFormed extended) (literal : atom.literal = some text)
    (kept : taken extended atom) :
    scanLoop extended false ss (encode atom.render++tail) = scanLoop extended false (ss++encode text) tail := by
  cases atom with
  | char c =>
    cases literal
    simpa [Atom.render] using scan_plain formed fun mode same => kept mode (same ▸ rfl)
  | escaped c =>
    cases literal
    simpa [Atom.render] using scan_escaped formed.1
  | quoted text =>
    cases literal
    exact scan_quoted formed.1
  | any | escape letter arguments | group body => cases literal

theorem scan_stops (marks : code c ∈ metacharacters) :
    scanLoop extended false ss (code c :: tail) = some (ss,.inexactCovered) := by
  have other : metacharacters.all (fun byte => decide (¬(byte = code '*' ∨ byte = code '?') ∧ byte ≠ code '|' ∧ byte ≠ code '\\')) =
      true := by decide
  obtain ⟨repeats,bar,escape⟩ := of_decide_eq_true (all_eq_true.mp other _ marks)
  rw [scan_step,if_neg repeats,if_neg bar,if_neg escape,if_pos marks]

theorem scan_unread {atom : Atom} (formed : atom.WellFormed extended) (other : atom.literal = none) :
    scanLoop extended false ss (encode atom.render++tail) = some (ss,.inexactCovered) := by
  cases atom with
  | char c | escaped c | quoted text => cases other
  | any | group body =>
    exact scan_stops (by decide)
  | escape letter arguments =>
    obtain ⟨kind,quote,_,digit,_⟩ := formed
    have small := alphanumeric_small kind
    simp only [Atom.render,encode_cons,encode_ascii (show ('\\').toNat < 128 by decide),encode_ascii small,cons_append,
      nil_append]
    rw [scan_escape,if_neg (mt (code_eq small (by decide)).mp quote),if_pos ((unknown_code small).mpr ⟨kind,digit⟩)]

def kept (last : Char) : Quantifier → List UInt8
  | .star | .option => (utf8EncodeChar last).dropLast
  | _ => utf8EncodeChar last

theorem scan_quantifier (other : quantifier ≠ .once) :
    scanLoop extended false (ss++utf8EncodeChar last) (encode quantifier.render++tail) =
      some (ss++kept last quantifier,.inexactCovered) := by
  have full := String.utf8EncodeChar_ne_nil (c := last)
  cases quantifier with
  | once => exact absurd rfl other
  | star =>
    simp only [Quantifier.render,encode_cons,encode_ascii (show ('*').toNat < 128 by decide),cons_append,nil_append]
    rw [scan_step,if_pos (.inl rfl),dropLast_append_of_ne_nil full,kept]
  | option =>
    simp only [Quantifier.render,encode_cons,encode_ascii (show ('?').toNat < 128 by decide),cons_append,nil_append]
    rw [scan_step,if_pos (.inr rfl),dropLast_append_of_ne_nil full,kept]
  | plus | counted least most =>
    exact scan_stops (by decide)

def reached (extended : Bool) (ss tail : List UInt8) : Stop → Option (List UInt8 × BoundsTightness)
  | .ended => scanLoop extended false ss tail
  | .unread => some (ss,.inexactCovered)
  | .repeats last quantifier _ => some (ss++kept last quantifier,.inexactCovered)

theorem scan_seq : ∀ {seq : Seq} {ss : List UInt8}, seq.WellFormed extended → seq.LeadingAll (taken extended) →
    scanLoop extended false ss (encode seq.render++tail) = reached extended (ss++encode seq.leading.1) tail seq.leading.2
  | .nil,ss,_,_ => by simp [Seq.render,Seq.leading,reached]
  | .blank c rest,ss,formed,leads => by
    obtain ⟨mode,blank,others⟩ := formed
    have skipped : scanLoop extended false ss (encode [c]++(encode rest.render++tail)) =
        scanLoop extended false ss (encode rest.render++tail) :=
      scan_space fun d mem => by rw [mem_singleton.mp mem]; exact ⟨mode,blank⟩
    rw [Seq.render,← singleton_append,encode_append,append_assoc,skipped,scan_seq others leads]
    rfl
  | .item atom space quantifier rest,ss,formed,leads => by
    obtain ⟨inner,blanks,some_char,others⟩ := formed
    simp only [Seq.render,encode_append,append_assoc]
    cases hcase : atom.literal with
    | none =>
      rw [scan_unread inner hcase]
      simp [Seq.leading,hcase,reached]
    | some text =>
      obtain ⟨kept,leads⟩ := leads (by simp [hcase])
      rw [scan_literal inner hcase kept,scan_space blanks]
      by_cases once : quantifier = .once
      · subst once
        simp only [Quantifier.render,encode_nil,nil_append]
        rw [scan_seq others (leads rfl)]
        simp [Seq.leading,hcase]
      rcases eq_nil_or_concat text with rfl | ⟨front,last,rfl⟩
      · exact absurd (some_char hcase) once
      · have split : ss++encode (front.concat last) = ss++encode front++utf8EncodeChar last := by simp
        rw [split,scan_quantifier once]
        simp [Seq.leading,hcase,once,reached]

def found (body : Alternation) : List UInt8 × BoundsTightness :=
  match body.first.leading with
  | (text,.ended) => if text = [] ∨ body.others.isSome then ([],.inexactCovered) else (encode text,.exact)
  | (text,.unread) => (encode text,.inexactCovered)
  | (text,.repeats last quantifier _) => (encode text++kept last quantifier,.inexactCovered)

theorem encode_empty : (encode text).isEmpty = true ↔ text = [] := by
  cases text with
  | nil => simp
  | cons c text =>
    obtain ⟨byte,rest,shape⟩ := encode_start c
    simp [shape]

theorem scan_body (formed : body.WellFormed extended) (leads : body.first.LeadingAll (taken extended)) :
    scanLoop extended false [] (encode body.render) = some (found body) := by
  cases body with
  | last seq =>
    have scanned : scanLoop extended false [] (encode seq.render++[]) = _ := scan_seq formed leads
    rw [append_nil] at scanned
    rw [Alternation.render,scanned,found,Alternation.first]
    cases seq.leading with
    | mk text stop =>
      cases stop with
      | ended =>
        simp only [reached,Alternation.others,Option.isSome_none,Bool.false_eq_true,or_false,nil_append]
        rw [scanLoop.eq_def]
        by_cases empty : text = []
        · simp [atEnd,empty]
        · have filled := encode_empty.not.mpr empty
          simp [atEnd,empty,filled]
      | unread | repeats last quantifier rest => simp [reached]
  | more seq rest =>
    have scanned : scanLoop extended false [] (encode seq.render++code '|' :: encode rest.render) = _ := scan_seq formed.1 leads
    have shape : encode (Alternation.more seq rest).render = encode seq.render++code '|' :: encode rest.render := by
      simp [Alternation.render,encode_ascii (show ('|').toNat < 128 by decide)]
    rw [shape,scanned,found,Alternation.first]
    cases seq.leading with
    | mk text stop =>
      cases stop with
      | ended =>
        simp only [reached,Alternation.others,Option.isSome_some,or_true,if_true]
        rw [scan_step,if_neg (by decide),if_pos rfl]
      | unread | repeats last quantifier rest => simp [reached]

theorem readFlags_extended (known : ∀ flag ∈ flags, flag = 'm' ∨ flag = 'x') (multilineOK mode : Bool) :
    readFlags multilineOK mode (encode flags) =
      if multilineOK = false ∧ 'm' ∈ flags then none else some (mode || decide ('x' ∈ flags)) := by
  induction flags generalizing mode with
  | nil => simp [readFlags]
  | cons flag flags ih =>
    have others := ih (forall_mem_cons.mp known).2
    rcases known flag (.head _) with rfl | rfl
    · rw [encode_cons,encode_ascii (by decide),singleton_append,readFlags,if_pos rfl,others]
      cases multilineOK with
      | false | true => simp
    · rw [encode_cons,encode_ascii (by decide),singleton_append,readFlags,if_neg (by decide),if_pos rfl,others]
      simp

theorem simpleRegex_caret_none (flagged : readFlags false false flags = none) :
    simpleRegex (code '^' :: regex) flags = some ([],.inexactCovered) := by
  cases regex with
  | nil => simp [simpleRegex,flagged]
  | cons byte rest =>
    have other : ¬(code '^' = code '\\' ∧ byte = code 'A') := fun both => absurd both.1 (by decide)
    simp [simpleRegex,other,flagged]

theorem simpleRegex_caret_some (flagged : readFlags false false flags = some extended) :
    simpleRegex (code '^' :: regex) flags = scanLoop extended false [] regex := by
  cases regex with
  | nil => simp [simpleRegex,flagged]
  | cons byte rest =>
    have other : ¬(code '^' = code '\\' ∧ byte = code 'A') := fun both => absurd both.1 (by decide)
    simp [simpleRegex,other,flagged]

theorem simpleRegex_found {pattern : Pattern} (known : ∀ flag ∈ flags, flag = 'm' ∨ flag = 'x')
    (formed : pattern.body.WellFormed (decide ('x' ∈ flags)))
    (leads : (pattern.anchor = .lineStart ∧ 'm' ∈ flags) ∨ pattern.body.first.LeadingAll (taken (decide ('x' ∈ flags)))) :
    simpleRegex (encode pattern.render) (encode flags) =
      some (if pattern.anchor = .lineStart ∧ 'm' ∈ flags then ([],.inexactCovered) else found pattern.body) := by
  obtain ⟨anchor,body⟩ := pattern
  cases anchor with
  | lineStart =>
    have shape : encode (Pattern.render ⟨.lineStart,body⟩) = code '^' :: encode body.render := by
      simp [Pattern.render,Anchor.render,encode_ascii (show ('^').toNat < 128 by decide)]
    have flagged := readFlags_extended known false false
    rw [shape]
    by_cases multiline : 'm' ∈ flags
    · rw [if_pos ⟨rfl,multiline⟩] at flagged
      rw [simpleRegex_caret_none flagged,if_pos ⟨rfl,multiline⟩]
    · rw [if_neg fun both => multiline both.2,Bool.false_or] at flagged
      rw [simpleRegex_caret_some flagged,scan_body formed (leads.resolve_left fun both => multiline both.2),
        if_neg fun both => multiline both.2]
  | subjectStart =>
    have shape : encode (Pattern.render ⟨.subjectStart,body⟩) = code '\\' :: code 'A' :: encode body.render := by
      simp [Pattern.render,Anchor.render,encode_ascii (show ('\\').toNat < 128 by decide),
        encode_ascii (show ('A').toNat < 128 by decide)]
    rw [shape]
    simp [simpleRegex,readFlags_extended known,scan_body formed (leads.resolve_left nofun)]

end

end Mongo.SimpleRegex
