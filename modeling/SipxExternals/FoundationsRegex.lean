import Mathlib.Computability.Language

namespace Foundations.Regex
open List

inductive Quantifier where
  | once
  | star
  | plus
  | option
  | counted (least : Nat) (most : Option Nat)
  deriving DecidableEq

def Quantifier.least : Quantifier → Nat
  | .once | .plus => 1
  | .star | .option => 0
  | .counted least _ => least

def Quantifier.most : Quantifier → Option Nat
  | .once | .option => some 1
  | .star | .plus => none
  | .counted _ most => most

mutual
inductive Atom where
  | char (c : Char)
  | escaped (c : Char)
  | quoted (text : List Char)
  | any
  | escape (letter : Char) (arguments : List Char)
  | group (body : Alternation)

-- A blank stands for nothing; an item may have blanks before its quantifier.
inductive Seq where
  | nil
  | blank (c : Char) (rest : Seq)
  | item (atom : Atom) (space : List Char) (quantifier : Quantifier) (rest : Seq)

inductive Alternation where
  | last (seq : Seq)
  | more (seq : Seq) (rest : Alternation)
end

def Quantifier.render : Quantifier → List Char
  | .once => []
  | .star => ['*']
  | .plus => ['+']
  | .option => ['?']
  | .counted least most =>
    Char.ofNat 123 :: Nat.toDigits 10 least++ ',' :: (most.map (Nat.toDigits 10)).getD []++[Char.ofNat 125]

mutual
def Atom.render : Atom → List Char
  | .char c => [c]
  | .escaped c => ['\\',c]
  | .quoted text => '\\' :: 'Q' :: text++['\\','E']
  | .any => ['.']
  | .escape letter arguments => '\\' :: letter :: arguments
  | .group body => '(' :: body.render++[')']

def Seq.render : Seq → List Char
  | .nil => []
  | .blank c rest => c :: rest.render
  | .item atom space quantifier rest => atom.render++space++quantifier.render++rest.render

def Alternation.render : Alternation → List Char
  | .last seq => seq.render
  | .more seq rest => seq.render++ '|' :: rest.render
end

section
-- What an escape with a letter or with 0 stands for, with the characters that belong to it.
variable (escapes : Char → List Char → Language Char)

def repeated (unit : Language Char) (quantifier : Quantifier) : Language Char :=
  {text | ∃ count, quantifier.least ≤ count ∧ (∀ most ∈ quantifier.most, count ≤ most) ∧ text ∈ unit^count}

-- A quantifier behind a quotation is one of its last character only.
def Atom.fixed : Atom → List Char
  | .quoted text => text.dropLast
  | _ => []

mutual
def Atom.unit : Atom → Language Char
  | .char c => {[c]}
  | .escaped c => {[c]}
  | .quoted text => {text.getLast?.toList}
  | .any => {text | ∃ c, c ≠ '\n' ∧ text = [c]}
  | .escape letter arguments => escapes letter arguments
  | .group body => body.lang

def Seq.lang : Seq → Language Char
  | .nil => 1
  | .blank _ rest => rest.lang
  | .item atom _ quantifier rest => {atom.fixed}*repeated atom.unit quantifier*rest.lang

def Alternation.lang : Alternation → Language Char
  | .last seq => seq.lang
  | .more seq rest => seq.lang+rest.lang
end

end

section
variable {escapes : Char → List Char → Language Char}

mutual
def Atom.Ordered : Atom → Prop
  | .group body => body.Ordered
  | _ => True

def Seq.Ordered : Seq → Prop
  | .nil => True
  | .blank _ rest => rest.Ordered
  | .item atom _ quantifier rest => atom.Ordered ∧ (∀ most ∈ quantifier.most, quantifier.least ≤ most) ∧ rest.Ordered

def Alternation.Ordered : Alternation → Prop
  | .last seq => seq.Ordered
  | .more seq rest => seq.Ordered ∧ rest.Ordered
end

theorem power_inhabited {unit : Language Char} (inhabited : ∃ text, text ∈ unit) {count : Nat} : ∃ text, text ∈ unit^count := by
  obtain ⟨one,mem⟩ := inhabited
  induction count with
  | zero => exact ⟨[],by simp [Language.mem_one]⟩
  | succ count ih =>
    obtain ⟨rest,others⟩ := ih
    exact ⟨rest++one,Language.append_mem_mul others mem⟩

theorem repeated_inhabited (inhabited : ∃ text, text ∈ unit)
    (ordered : ∀ most ∈ quantifier.most, Quantifier.least quantifier ≤ most) : ∃ text, text ∈ repeated unit quantifier := by
  obtain ⟨text,mem⟩ := power_inhabited inhabited
  exact ⟨text,quantifier.least,le_rfl,ordered,mem⟩

mutual
theorem Atom.inhabited (escaping : ∀ letter arguments, ∃ text, text ∈ escapes letter arguments) :
    ∀ atom : Atom, atom.Ordered → ∃ text, text ∈ atom.unit escapes
  | .char c,_ => ⟨[c],rfl⟩
  | .escaped c,_ => ⟨[c],rfl⟩
  | .quoted text,_ => ⟨text.getLast?.toList,rfl⟩
  | .any,_ => ⟨['a'],'a',by decide,rfl⟩
  | .escape letter arguments,_ => escaping letter arguments
  | .group body,ordered => body.inhabited escaping ordered

theorem Seq.inhabited (escaping : ∀ letter arguments, ∃ text, text ∈ escapes letter arguments) :
    ∀ seq : Seq, seq.Ordered → ∃ text, text ∈ seq.lang escapes
  | .nil,_ => ⟨[],rfl⟩
  | .blank _ rest,ordered => rest.inhabited escaping ordered
  | .item atom _ quantifier rest,ordered => by
    obtain ⟨inner,bounds,outer⟩ := ordered
    obtain ⟨middle,mem⟩ := repeated_inhabited (atom.inhabited escaping inner) bounds
    obtain ⟨tail,others⟩ := rest.inhabited escaping outer
    exact ⟨atom.fixed++middle++tail,Language.append_mem_mul (Language.append_mem_mul rfl mem) others⟩

theorem Alternation.inhabited (escaping : ∀ letter arguments, ∃ text, text ∈ escapes letter arguments) :
    ∀ body : Alternation, body.Ordered → ∃ text, text ∈ body.lang escapes
  | .last seq,ordered => seq.inhabited escaping ordered
  | .more seq rest,ordered => by
    obtain ⟨text,mem⟩ := seq.inhabited escaping ordered.1
    exact ⟨text,.inl mem⟩
end

end

def Atom.literal : Atom → Option (List Char)
  | .char c => some [c]
  | .escaped c => some [c]
  | .quoted text => some text
  | _ => none

inductive Anchor where
  | lineStart
  | subjectStart
  deriving DecidableEq

structure Pattern where
  anchor : Anchor
  body : Alternation

def Alternation.first : Alternation → Seq
  | .last seq => seq
  | .more seq _ => seq

def Alternation.others : Alternation → Option Alternation
  | .last _ => none
  | .more _ rest => some rest

def Anchor.render : Anchor → List Char
  | .lineStart => ['^']
  | .subjectStart => ['\\','A']

def Pattern.render (pattern : Pattern) : List Char := pattern.anchor.render++pattern.body.render

def Anchor.Holds (multiline : Bool) (before : List Char) : Anchor → Prop
  | .lineStart => before = [] ∨ (multiline = true ∧ before.getLast? = some '\n')
  | .subjectStart => before = []

-- A match somewhere in a subject; the anchor belongs to the first alternative only.
def Pattern.Matches (escapes : Char → List Char → Language Char) (multiline : Bool) (pattern : Pattern) (subject : List Char) : Prop :=
  ∃ before word after, subject = before++word++after ∧
    ((pattern.anchor.Holds multiline before ∧ word ∈ pattern.body.first.lang escapes) ∨
      ∃ others ∈ pattern.body.others, word ∈ others.lang escapes)

def special : List Char := "^$.[()+*?|\\".toList++[Char.ofNat 123]

def isBlank (c : Char) : Bool := c = ' ' || c = '\t' || c = '\n' || c = '\r' || c = Char.ofNat 12

def isAlphanumeric (c : Char) : Bool :=
  ('A' ≤ c && c ≤ 'Z') || ('a' ≤ c && c ≤ 'z') || ('0' ≤ c && c ≤ '9')

def unclosed : List Char → Bool
  | [] => true
  | c :: text => !(c = '\\' && text.head? = some 'E') && unclosed text

-- A character that stands for itself: in an extended pattern no white space, of which the vertical
-- tab is none, and no start of a comment.
def plain (extended : Bool) (c : Char) : Prop :=
  c ∉ special ∧ c ≠ Char.ofNat 0 ∧ (extended = true → isBlank c = false ∧ c ≠ '#')

mutual
def Atom.WellFormed (extended : Bool) : Atom → Prop
  | .char c => plain extended c
  | .escaped c => isAlphanumeric c = false ∧ c ≠ Char.ofNat 0
  | .quoted text => unclosed text = true ∧ Char.ofNat 0 ∉ text
  | .any => True
  | .escape letter arguments =>
    isAlphanumeric letter = true ∧ letter ≠ 'Q' ∧ letter ≠ 'E' ∧ ¬('1' ≤ letter ∧ letter ≤ '9') ∧ Char.ofNat 0 ∉ arguments
  | .group body => body.WellFormed extended

def Seq.WellFormed (extended : Bool) : Seq → Prop
  | .nil => True
  | .blank c rest => extended = true ∧ isBlank c = true ∧ rest.WellFormed extended
  | .item atom space quantifier rest =>
    atom.WellFormed extended ∧ (∀ c ∈ space, extended = true ∧ isBlank c = true) ∧
      (atom.literal = some [] → quantifier = .once) ∧ rest.WellFormed extended

def Alternation.WellFormed (extended : Bool) : Alternation → Prop
  | .last seq => seq.WellFormed extended
  | .more seq rest => seq.WellFormed extended ∧ rest.WellFormed extended
end

section

inductive Stop where
  | ended
  | unread
  | repeats (last : Char) (quantifier : Quantifier) (rest : Seq)

def Seq.leading : Seq → List Char × Stop
  | .nil => ([],.ended)
  | .blank _ rest => rest.leading
  | .item atom _ quantifier rest =>
    match atom.literal with
    | none => ([],.unread)
    | some text =>
      if quantifier = .once then (text++rest.leading.1,rest.leading.2)
      else
        match text.getLast? with
        | some last => (text.dropLast,.repeats last quantifier rest)
        | none => ([],.unread)

-- The literals that a sequence begins with, the repeated one included.
def Seq.LeadingAll (keeps : Atom → Prop) : Seq → Prop
  | .nil => True
  | .blank _ rest => rest.LeadingAll keeps
  | .item atom _ quantifier rest => atom.literal.isSome → keeps atom ∧ (quantifier = .once → rest.LeadingAll keeps)

variable {escapes : Char → List Char → Language Char}

theorem literal_unit (escapes : Char → List Char → Language Char) {atom : Atom} (literal : atom.literal = some text) :
    atom.fixed = text.dropLast ∧ atom.unit escapes = {text.getLast?.toList} := by
  cases atom with
  | char c | escaped c | quoted other =>
    cases literal
    exact ⟨rfl,rfl⟩
  | any | escape letter arguments | group body => cases literal

theorem mem_power_single (unit : List Char) (count : Nat) (text : List Char) :
    text ∈ ({unit} : Language Char)^count ↔ text = (replicate count unit).flatten := by
  induction count generalizing text with
  | zero => simp [Language.mem_one]
  | succ count ih =>
    rw [pow_succ',Language.mem_mul]
    constructor
    · rintro ⟨first,same,rest,others,rfl⟩
      cases same
      rw [(ih rest).mp others]
      rfl
    · rintro rfl
      exact ⟨unit,rfl,_,(ih _).mpr rfl,rfl⟩

theorem mem_item (literal : atom.literal = some text) : word ∈ (Seq.item atom space quantifier rest).lang escapes ↔
      ∃ count tail, quantifier.least ≤ count ∧ (∀ most ∈ quantifier.most, count ≤ most) ∧ tail ∈ rest.lang escapes ∧
        word = text.dropLast++((replicate count text.getLast?.toList).flatten++tail) := by
  obtain ⟨fixed,unit⟩ := literal_unit escapes literal
  rw [Seq.lang,Language.mem_mul]
  constructor
  · rintro ⟨_,⟨_,same,middle,⟨count,least,most,power⟩,rfl⟩,tail,others,rfl⟩
    cases same
    rw [unit] at power
    refine ⟨count,tail,least,most,others,?_⟩
    rw [(mem_power_single _ _ _).mp power,fixed,append_assoc]
  rintro ⟨count,tail,least,most,others,rfl⟩
  refine ⟨_,⟨atom.fixed,rfl,(replicate count text.getLast?.toList).flatten,⟨count,least,most,?_⟩,rfl⟩,tail,others,?_⟩
  · rw [unit]
    exact (mem_power_single _ _ _).mpr rfl
  · rw [fixed,append_assoc]

theorem dropLast_getLast {text : List Char} : text.dropLast++text.getLast?.toList = text := by
  rcases eq_nil_or_concat text with rfl | ⟨front,last,rfl⟩
  · rfl
  · simp

def Stop.words (escapes : Char → List Char → Language Char) : Stop → Language Char
  | .ended => 1
  | .unread => {text | text = text}
  | .repeats last quantifier rest =>
    {text | ∃ count tail, quantifier.least ≤ count ∧ (∀ most ∈ quantifier.most, count ≤ most) ∧
      tail ∈ rest.lang escapes ∧ text = List.replicate count last++tail}

theorem mem_leading : ∀ (seq : Seq) (word : List Char), word ∈ seq.lang escapes →
    ∃ behind, behind ∈ seq.leading.2.words escapes ∧ word = seq.leading.1++behind
  | .nil,word,mem => ⟨[],rfl,by simpa [Seq.leading,Seq.lang,Language.mem_one] using mem⟩
  | .blank _ rest,word,mem => mem_leading rest word mem
  | .item atom space quantifier rest,word,mem => by
    cases hcase : atom.literal with
    | none =>
      simp only [Seq.leading,hcase]
      exact ⟨word,rfl,rfl⟩
    | some text =>
      obtain ⟨count,tail,least,most,others,rfl⟩ := (mem_item hcase).mp mem
      by_cases once : quantifier = .once
      · subst once
        obtain ⟨behind,known,rfl⟩ := mem_leading rest tail others
        have single : count = 1 := le_antisymm (most 1 rfl) least
        subst single
        refine ⟨behind,by simpa [Seq.leading,hcase] using known,?_⟩
        simp only [Seq.leading,hcase,if_true,replicate_one,flatten_singleton]
        rw [← append_assoc,dropLast_getLast,append_assoc]
      rcases eq_nil_or_concat text with rfl | ⟨front,last,rfl⟩
      · simp only [Seq.leading,hcase,once,if_false,getLast?_nil]
        exact ⟨_,rfl,rfl⟩
      refine ⟨replicate count last++tail,?_,?_⟩
      · simp only [Seq.leading,hcase,once,if_false,concat_eq_append,getLast?_concat]
        exact ⟨count,tail,least,most,others,rfl⟩
      · simp [Seq.leading,hcase,once,flatten_replicate_singleton]

theorem leading_mem : ∀ seq : Seq, seq.leading.2 ≠ .unread → ∀ behind ∈ seq.leading.2.words escapes,
    seq.leading.1++behind ∈ seq.lang escapes
  | .nil,_,_,known => known
  | .blank _ rest,read,behind,known => leading_mem rest read behind known
  | .item atom space quantifier rest,read,behind,known => by
    cases hcase : atom.literal with
    | none => exact absurd (by simp [Seq.leading,hcase]) read
    | some text =>
      rw [mem_item hcase]
      by_cases once : quantifier = .once
      · subst once
        simp only [Seq.leading,hcase,if_true] at read known ⊢
        refine ⟨1,_,le_rfl,by simp [Quantifier.most],leading_mem rest read behind known,?_⟩
        simp only [replicate_one,flatten_singleton]
        rw [← append_assoc,← append_assoc,dropLast_getLast]
      rcases eq_nil_or_concat text with rfl | ⟨front,last,rfl⟩
      · exact absurd (by simp [Seq.leading,hcase,once]) read
      · simp only [Seq.leading,hcase,once,if_false,concat_eq_append,getLast?_concat] at known ⊢
        obtain ⟨count,tail,least,most,others,rfl⟩ := known
        exact ⟨count,tail,least,most,others,by simp [flatten_replicate_singleton]⟩

end

end Foundations.Regex
