import SipxExternals.MongoSimpleRegex
import SipxExternals.MongoScanExact

namespace Mongo.SimpleRegex
open Foundations.CStrings Foundations.Regex Foundations.Utf8 Mongo.IndexScan Mongo.ScanExact
open String (utf8EncodeChar)
open BsonCompare (stringCompare)
open List hiding after all cons count min nil tail

theorem memcmp_none : memcmp left right 0 = 0 := by
  cases left <;> cases right <;> rfl

theorem stringCompare_cons : stringCompare (a :: left) (b :: right) =
    if a < b then -1 else if b < a then 1 else stringCompare left right := by
  have sizes : min (left.length+1+1) (right.length+1+1) = min (left.length+1) (right.length+1)+1 := by omega
  have difference : ((left.length+1+1 : Nat) : Int)-((right.length+1+1 : Nat) : Int) =
      ((left.length+1 : Nat) : Int)-((right.length+1 : Nat) : Int) := by omega
  simp only [stringCompare,length_cons,cons_append]
  rw [sizes,difference,memcmp]
  by_cases less : a < b
  · simp [less]
  · by_cases more : b < a
    · simp [less,more]
    · simp [less,more]

theorem stringCompare_empty (value : List UInt8) : 0 ≤ stringCompare value [] := by
  cases value with
  | nil => decide
  | cons a value =>
    have least : ¬a < 0 := by simp
    have size : min (value.length+1+1) (0+1) = 0+1 := by omega
    simp only [stringCompare,length_cons,length_nil,cons_append,nil_append]
    rw [size,memcmp,if_neg least,memcmp_none]
    by_cases more : 0 < a
    · simp [more]
    · omega

theorem stringCompare_start : stringCompare [] (b :: value) < 0 := by
  have least : ¬b < 0 := by simp
  have size : min (0+1) (value.length+1+1) = 0+1 := by omega
  simp only [stringCompare,length_cons,length_nil,cons_append,nil_append]
  rw [size,memcmp,if_neg least,memcmp_none]
  by_cases more : 0 < b
  · simp [more]
  · omega

theorem between_begins : ∀ {start : List UInt8}, start ≠ [] → (∀ byte ∈ start, byte.toNat < 255) → ∀ value : List UInt8,
    (0 ≤ stringCompare value start ∧ stringCompare value (bumpLast start) < 0) ↔ start <+: value
  | [],filled,_,_ => absurd rfl filled
  | [b],_,_,[] => by simp [stringCompare_start]
  | [b],_,small,a :: value => by
    have bound := small b (.head _)
    have raised : (b+1).toNat = b.toNat+1 := by
      rw [UInt8.toNat_add]
      simp
      omega
    have least := stringCompare_empty value
    simp only [bumpLast,dropLast_singleton,getLast?_singleton,Option.map_some,Option.toList_some,nil_append,
      stringCompare_cons,cons_prefix_cons, nil_prefix,and_true,UInt8.lt_iff_toNat_lt,raised,← UInt8.toNat_inj]
    split <;> split <;> (try split) <;> omega
  | b :: c :: start,_,_,[] => by simp [stringCompare_start]
  | b :: c :: start,_,small,a :: value => by
    have deeper := between_begins (cons_ne_nil c start) (forall_mem_cons.mp small).2 value
    have raised : bumpLast (b :: c :: start) = b :: bumpLast (c :: start) := by simp [bumpLast]
    rw [raised,stringCompare_cons,stringCompare_cons,cons_prefix_cons,← deeper]
    by_cases less : a < b
    · have apart : b ≠ a := (UInt8.ne_of_lt less).symm
      simp [less,apart]
    by_cases more : b < a
    · simp [less,more,UInt8.ne_of_lt more]
    · have same : b = a := UInt8.le_antisymm (UInt8.not_lt.mp less) (UInt8.not_lt.mp more)
      simp [same]

theorem woCompare_string : woCompare (.string left) (.string right) = stringCompare left right := rfl

theorem woCompare_object : woCompare (.string value) .emptyObject = -5 := rfl

def stringRange (start : List UInt8) : Interval IndexValue :=
  if !start.isEmpty then makeRangeInterval (.string start) (.string (bumpLast start)) true false
  else makeRangeInterval (.string []) .emptyObject true false

theorem in_stringRange (small : ∀ byte ∈ start, byte.toNat < 255) :
    inInterval woCompare (.string value) (stringRange start) = true ↔ start <+: value := by
  cases start with
  | nil =>
    have least := stringCompare_empty value
    simp only [stringRange,makeRangeInterval,inInterval]
    simp [woCompare_object,woCompare_string]
    omega
  | cons byte start =>
    rw [← between_begins (cons_ne_nil byte start) small value]
    simp only [stringRange,makeRangeInterval,inInterval]
    simp [woCompare_string]
    omega

section
variable {escapes : Char → List Char → Language Char} {pattern : Pattern} {flags : List Char}

-- Every string that the pattern matches is in the first interval, and an exact interval has no other string.
def Correct (escapes : Char → List Char → Language Char) (pattern : Pattern) (flags : List Char) : Prop :=
  ∃ strings point tightness, translateRegex (encode pattern.render) (encode flags) = some ([strings,point],tightness) ∧
    (∀ subject, pattern.Matches escapes (decide ('m' ∈ flags)) subject →
      inInterval woCompare (.string (encode subject)) strings = true) ∧
    (tightness = .exact → ∀ subject, inInterval woCompare (.string (encode subject)) strings = true →
      pattern.Matches escapes (decide ('m' ∈ flags)) subject)

-- What may be left out in a match is left out of the interval too.
def stopBinding (escapes : Char → List Char → Language Char) (alone : Prop) (text : List Char) : Stop → Prop
  | .ended => True
  | .unread => text = [] ∨ alone
  | .repeats last quantifier rest =>
    if quantifier = .star ∨ quantifier = .option then
      (text = [] ∧ last.toNat < 128) ∨
        (alone ∧ (last.toNat < 128 ∨ ∀ word ∈ rest.lang escapes, ∃ c ∈ word.head?, (utf8EncodeChar last).dropLast <+: utf8EncodeChar c))
    else alone ∧ (1 ≤ quantifier.least ∨ ∀ word ∈ rest.lang escapes, word.head? = some last)

def Binding (escapes : Char → List Char → Language Char) (pattern : Pattern) (flags : List Char) : Prop :=
  (pattern.anchor = .lineStart ∧ 'm' ∈ flags) ∨
    stopBinding escapes (pattern.body.others = none) pattern.body.first.leading.1 pattern.body.first.leading.2

theorem found_small (body : Alternation) : ∀ byte ∈ (found body).1, byte.toNat < 255 := by
  have kept_small : ∀ (last : Char) (quantifier : Quantifier), ∀ byte ∈ kept last quantifier, byte.toNat < 255 := by
    intro last quantifier byte mem
    refine byte_small last byte ?_
    cases quantifier with
    | once | plus | counted least most => exact mem
    | star | option => exact mem_of_mem_dropLast mem
  rw [found]
  split
  · split
    · intro byte wrong
      cases wrong
    · exact encode_small
  · exact encode_small
  · exact forall_mem_append.mpr ⟨encode_small,kept_small _ _⟩

theorem correct_found (escapes : Char → List Char → Language Char) (small : ∀ byte ∈ start, UInt8.toNat byte < 255)
    (result : simpleRegex (encode pattern.render) (encode flags) = some (start,tightness)) :
    Correct escapes pattern flags ↔
      (∀ subject, pattern.Matches escapes (decide ('m' ∈ flags)) subject → start <+: encode subject) ∧
        (tightness = .exact → ∀ subject, start <+: encode subject → pattern.Matches escapes (decide ('m' ∈ flags)) subject) := by
  have translated : translateRegex (encode pattern.render) (encode flags) =
      some ([stringRange start,makePointInterval (.regex (encode pattern.render) (encode flags))],tightness) := by
    simp only [translateRegex,result]
    rfl
  constructor
  · rintro ⟨strings,point,kind,same,inside,outside⟩
    rw [translated] at same
    cases same
    simp only [in_stringRange small] at inside outside
    exact ⟨inside,outside⟩
  · rintro ⟨inside,outside⟩
    refine ⟨_,_,_,translated,?_⟩
    simp only [in_stringRange small]
    exact ⟨inside,outside⟩

theorem matches_anchored (anchored : ¬(pattern.anchor = .lineStart ∧ 'm' ∈ flags)) :
    pattern.Matches escapes (decide ('m' ∈ flags)) subject ↔
      (∃ word after, subject = word++after ∧ word ∈ pattern.body.first.lang escapes) ∨
        ∃ others ∈ pattern.body.others, ∃ before word after, subject = before++word++after ∧ word ∈ others.lang escapes := by
  have start : ∀ before, pattern.anchor.Holds (decide ('m' ∈ flags)) before ↔ before = [] := by
    intro before
    cases hcase : pattern.anchor with
    | lineStart =>
      have single : 'm' ∉ flags := fun mem => anchored ⟨hcase,mem⟩
      simp [Anchor.Holds,single]
    | subjectStart => rfl
  simp only [Pattern.Matches,start]
  constructor
  · rintro ⟨before,word,after,rfl,⟨rfl,mem⟩ | ⟨others,present,mem⟩⟩
    · exact .inl ⟨word,after,rfl,mem⟩
    · exact .inr ⟨others,present,before,word,after,rfl,mem⟩
  · rintro (⟨word,after,rfl,mem⟩ | ⟨others,present,before,word,after,rfl,mem⟩)
    · exact ⟨[],word,after,rfl,.inl ⟨rfl,mem⟩⟩
    · exact ⟨before,word,after,rfl,.inr ⟨others,present,mem⟩⟩

theorem others_ordered : ∀ {body : Alternation}, body.Ordered → ∀ others ∈ body.others, others.Ordered
  | .last _,_,_,wrong => by cases wrong
  | .more _ _,ordered,_,present => by
    cases present
    exact ordered.2

theorem another_start : ∃ c : Char, ∀ text : List Char, ∀ rest, ¬byte :: rest <+: encode (c :: text) := by
  by_cases first : byte = code 'a'
  · refine ⟨'b',fun text rest begins => ?_⟩
    rw [encode_cons,encode_ascii (by decide),singleton_append,cons_prefix_cons,first] at begins
    exact absurd begins.1 (by decide)
  · refine ⟨'a',fun text rest begins => ?_⟩
    rw [encode_cons,encode_ascii (by decide),singleton_append,cons_prefix_cons] at begins
    exact first begins.1

theorem all_begin (escaping : ∀ letter arguments, ∃ text, text ∈ escapes letter arguments) (ordered : pattern.body.Ordered)
    (anchored : ¬(pattern.anchor = .lineStart ∧ 'm' ∈ flags)) (filled : start ≠ []) :
    (∀ subject, pattern.Matches escapes (decide ('m' ∈ flags)) subject → start <+: encode subject) ↔
      pattern.body.others = none ∧ ∀ word ∈ pattern.body.first.lang escapes, ∀ after, start <+: encode (word++after) := by
  simp only [matches_anchored anchored]
  constructor
  · intro begins
    refine ⟨?_,fun word mem after => begins _ (.inl ⟨word,after,rfl,mem⟩)⟩
    cases hcase : pattern.body.others with
    | none => rfl
    | some others =>
      obtain ⟨word,mem⟩ := others.inhabited escaping (others_ordered ordered others hcase)
      obtain ⟨byte,rest,rfl⟩ := exists_cons_of_ne_nil filled
      obtain ⟨c,differs⟩ := another_start
      exact absurd (begins (c :: word) (.inr ⟨others,hcase,[c],word,[],by simp,mem⟩)) (differs word rest)
  · rintro ⟨alone,begins⟩ _ (⟨word,after,rfl,mem⟩ | ⟨others,present,_⟩)
    · exact begins word mem after
    · rw [alone] at present
      cases present

theorem kept_inside (last : Char) (quantifier : Quantifier) : kept last quantifier <+: utf8EncodeChar last := by
  cases quantifier with
  | once | plus | counted least most => exact prefix_refl _
  | star | option => exact dropLast_prefix _

theorem part_text (inside : part <+: utf8EncodeChar e) (filled : part ≠ []) :
    part <+: encode text ↔ ∃ c ∈ text.head?, part <+: utf8EncodeChar c := by
  cases text with
  | nil => simp [filled]
  | cons c text =>
    rw [part_begins inside]
    simp

theorem repeats_begin :
    (∀ behind ∈ (Stop.repeats last quantifier rest).words escapes, ∀ after, kept last quantifier <+: encode (behind++after)) ↔
      1 ≤ quantifier.least ∨ kept last quantifier = [] ∨
        ∀ word ∈ rest.lang escapes, ∃ c ∈ word.head?, kept last quantifier <+: utf8EncodeChar c := by
  have inside := kept_inside last quantifier
  by_cases filled : kept last quantifier = []
  · simp [filled]
  constructor
  · intro begins
    by_cases needed : 1 ≤ quantifier.least
    · exact .inl needed
    refine .inr (.inr fun word mem => ?_)
    have none_at_all : quantifier.least ≤ 0 := by omega
    have matched := begins word ⟨0,word,none_at_all,fun _ _ => Nat.zero_le _,mem,rfl⟩ []
    rwa [append_nil,part_text inside filled] at matched
  rintro cases_of behind ⟨count,tail,least,_,mem,rfl⟩ after
  cases count with
  | zero =>
    rcases cases_of with needed | empty | others
    · omega
    · exact absurd empty filled
    · rw [part_text inside filled]
      obtain ⟨c,first,begins⟩ := others tail mem
      exact ⟨c,by simp [Option.mem_def.mp first],begins⟩
  | succ count =>
    exact inside.trans ⟨_,(encode_cons ..).symm⟩

theorem kept_optional (optional : quantifier = .star ∨ quantifier = .option) :
    kept last quantifier = (utf8EncodeChar last).dropLast ∧ (kept last quantifier = [] ↔ last.toNat < 128) ∧
      Quantifier.least quantifier = 0 := by
  have single : (utf8EncodeChar last).dropLast = [] ↔ last.toNat < 128 := by
    constructor
    · intro short
      by_contra wide
      have lengths := congrArg length short
      have long := (wide_bytes (Nat.le_of_not_lt wide)).1
      simp only [length_dropLast,length_nil] at lengths
      omega
    · intro small
      rw [encode_ascii small]
      rfl
  rcases optional with rfl | rfl
  · exact ⟨rfl,single,rfl⟩
  · exact ⟨rfl,single,rfl⟩

theorem kept_whole (whole : ¬(quantifier = .star ∨ quantifier = .option)) :
    kept last quantifier = utf8EncodeChar last := by
  cases quantifier with
  | once | plus | counted least most => rfl
  | star => exact absurd (.inl rfl) whole
  | option => exact absurd (.inr rfl) whole

theorem same_char : utf8EncodeChar c <+: utf8EncodeChar d ↔ d = c := by
  have texts := encode_begins [c] [d]
  simp only [encode_cons,encode_nil,append_nil] at texts
  rw [texts]
  simp [eq_comm]

theorem repeats_binding :
    stopBinding escapes alone text (.repeats last quantifier rest) ↔ (text = [] ∧ kept last quantifier = []) ∨
      (alone ∧ (1 ≤ quantifier.least ∨ kept last quantifier = [] ∨
        ∀ word ∈ rest.lang escapes, ∃ c ∈ word.head?, kept last quantifier <+: utf8EncodeChar c)) := by
  rw [stopBinding]
  by_cases optional : quantifier = .star ∨ quantifier = .option
  · obtain ⟨same,empty,least⟩ := kept_optional optional
    rw [if_pos optional,empty,least,same]
    simp
  · have filled : utf8EncodeChar last ≠ [] := String.utf8EncodeChar_ne_nil
    rw [if_neg optional,kept_whole optional]
    simp [filled,same_char,eq_comm]

theorem ended_correct (escapes : Char → List Char → Language Char) (anchored : ¬(pattern.anchor = .lineStart ∧ 'm' ∈ flags))
    (alone : pattern.body.others = none) (stopped : pattern.body.first.leading = (text,.ended)) (subject : List Char) :
    pattern.Matches escapes (decide ('m' ∈ flags)) subject ↔ encode text <+: encode subject := by
  rw [matches_anchored anchored,encode_begins]
  have words : ∀ word, word ∈ pattern.body.first.lang escapes ↔ word = text := by
    intro word
    constructor
    · intro mem
      obtain ⟨behind,known,rfl⟩ := mem_leading _ word mem
      rw [stopped] at known ⊢
      have empty : behind = [] := known
      simp [empty]
    · rintro rfl
      have mem : pattern.body.first.leading.1++[] ∈ pattern.body.first.lang escapes :=
        leading_mem _ (by simp [stopped]) [] (by rw [stopped]; rfl)
      simpa [stopped] using mem
  constructor
  · rintro (⟨word,after,rfl,mem⟩ | ⟨others,present,_⟩)
    · rw [(words word).mp mem]
      exact prefix_append ..
    · rw [alone] at present
      cases present
  · rintro ⟨after,rfl⟩
    exact .inl ⟨text,after,rfl,(words text).mpr rfl⟩

theorem leading_begin (escapes : Char → List Char → Language Char) (part : List UInt8) (seq : Seq)
    (read : part ≠ [] → seq.leading.2 ≠ .unread) :
    (∀ word ∈ seq.lang escapes, ∀ after, encode seq.leading.1++part <+: encode (word++after)) ↔
      ∀ behind ∈ seq.leading.2.words escapes, ∀ after, part <+: encode (behind++after) := by
  constructor
  · intro begins behind known after
    by_cases empty : part = []
    · simp [empty]
    · have matched := begins _ (leading_mem seq (read empty) behind known) after
      rw [append_assoc,encode_append] at matched
      exact (prefix_append_right_inj _).mp matched
  · intro begins word mem after
    obtain ⟨behind,known,rfl⟩ := mem_leading seq word mem
    rw [append_assoc,encode_append]
    exact (prefix_append_right_inj _).mpr (begins behind known after)

section
variable (escaping : ∀ letter arguments, ∃ text, text ∈ escapes letter arguments) (ordered : pattern.body.Ordered)
variable (anchored : ¬(pattern.anchor = .lineStart ∧ 'm' ∈ flags))
include escaping ordered anchored

theorem unread_begin (stopped : pattern.body.first.leading = (text,.unread)) :
    (∀ subject, pattern.Matches escapes (decide ('m' ∈ flags)) subject → encode text <+: encode subject) ↔
      stopBinding escapes (pattern.body.others = none) text .unread := by
  rw [stopBinding]
  by_cases empty : text = []
  · simp [empty]
  have filled : encode text ≠ [] := by simpa using encode_empty.not.mpr empty
  rw [all_begin escaping ordered anchored filled,or_iff_right empty,and_iff_left_iff_imp]
  intro _
  have begins := (leading_begin escapes [] pattern.body.first fun wrong => absurd rfl wrong).mpr (by simp)
  simpa [stopped] using begins

theorem repeated_begin (stopped : pattern.body.first.leading = (text,.repeats last quantifier rest)) :
    (∀ subject, pattern.Matches escapes (decide ('m' ∈ flags)) subject → encode text++kept last quantifier <+: encode subject) ↔
      stopBinding escapes (pattern.body.others = none) text (.repeats last quantifier rest) := by
  rw [repeats_binding]
  by_cases empty : text = [] ∧ kept last quantifier = []
  · simp [empty]
  have filled : encode text++kept last quantifier ≠ [] := by
    intro nothing
    obtain ⟨left,right⟩ := append_eq_nil_iff.mp nothing
    exact empty ⟨encode_empty.mp (by simp [left]),right⟩
  have begins := leading_begin escapes (kept last quantifier) pattern.body.first (by simp [stopped])
  rw [stopped] at begins
  rw [all_begin escaping ordered anchored filled,or_iff_right empty,begins,repeats_begin]

end

theorem outside_wrong (small : ∀ byte ∈ start, UInt8.toNat byte < 255)
    (result : simpleRegex (encode pattern.render) (encode flags) = some (start,tightness))
    (matched : pattern.Matches escapes (decide ('m' ∈ flags)) subject) (outside : ¬start <+: encode subject) :
    ¬Correct escapes pattern flags := fun correct =>
  outside (((correct_found escapes small result).mp correct).1 subject matched)

end

def sampleEscapes (letter : Char) (_ : List Char) : Language Char := {[letter]}

-- ^ab*c
def starSample : Pattern :=
  ⟨.lineStart,.last (.item (.char 'a') [] .once (.item (.char 'b') [] .star (.item (.char 'c') [] .once .nil)))⟩

-- ^ab with the b from none to two times
def countedSample : Pattern :=
  ⟨.lineStart,.last (.item (.char 'a') [] .once (.item (.char 'b') [] (.counted 0 (some 2)) .nil))⟩

-- ^a.|b
def alternativeSample : Pattern :=
  ⟨.lineStart,.more (.item (.char 'a') [] .once (.item .any [] .once .nil)) (.last (.item (.char 'b') [] .once .nil))⟩

-- ^é*
def wideSample : Pattern := ⟨.lineStart,.last (.item (.char 'é') [] .star .nil)⟩

-- ^ab with a vertical tab between the two
def tabSample : Pattern :=
  ⟨.lineStart,.last (.item (.char 'a') [] .once (.item (.char (Char.ofNat 11)) [] .once (.item (.char 'b') [] .once .nil)))⟩

theorem none_repeated (zero : quantifier.least = 0) : [] ∈ Seq.lang sampleEscapes (.item (.char c) [] quantifier .nil) :=
  (mem_item rfl ..).mpr ⟨0,[],Nat.le_of_eq zero,fun _ _ => Nat.zero_le _,rfl,rfl⟩

theorem once_first (mem : tail ∈ Seq.lang sampleEscapes rest) :
    c :: tail ∈ Seq.lang sampleEscapes (.item (.char c) [] .once rest) :=
  (mem_item rfl ..).mpr ⟨1,tail,le_rfl,by simp [Quantifier.most],mem,rfl⟩

end Mongo.SimpleRegex
