import SipxExternals.FoundationsComparisons

namespace Cfengine.Packages
open Foundations.Comparisons

def cfBufsize : Nat := 4096

inductive VersionCmp where
  | eq | neq | gt | lt | ge | le | none
  deriving DecidableEq

structure PackageItem where
  name : List Char
  version : List Char
  arch : List Char

def isAlphanumeric (c : Char) : Bool :=
  decide ('0' ≤ c ∧ c ≤ '9') || decide ('a' ≤ c ∧ c ≤ 'z') || decide ('A' ≤ c ∧ c ≤ 'Z')

def strcmp : List Char → List Char → Int := lexicographic sign

def underscore (ch c : Char) : Char := if c = ch then '_' else c

-- A copy in a static buffer; what does not fit is cut.
def canonifyChar (str : List Char) (ch : Char) : List Char := (str.take (cfBufsize-1)).map (underscore ch)

def compareCSVName : List Char → List Char → Int
  | [],[] => 0
  | [],_ :: _ => -1
  | _ :: _,[] => 1
  | c :: s1,d :: s2 =>
    if underscore ',' d < underscore ',' c then 1
    else if underscore ',' c < underscore ',' d then -1
    else compareCSVName s1 s2

-- The numerals and the separators. A numeral has up to 29 characters; then one character is
-- passed over, and it is the separator where it is not alphanumeric.
def parseLoop : Nat → List Char → List (List Char) × List (List Char)
  | 0,_ => ([],[])
  | _+1,[] => ([],[])
  | fuel+1,c :: version =>
    let numeral := ((c :: version).takeWhile isAlphanumeric).take 29
    match (c :: version).drop numeral.length with
    | [] => ([numeral],[])
    | s :: rest =>
      let parsed := parseLoop fuel rest
      (numeral :: parsed.1,(if isAlphanumeric s then [] else [s]) :: parsed.2)

def parsePackageVersion (version : List Char) : List (List Char) × List (List Char) :=
  parseLoop (version.length+1) version

def compatible : List (List Char) → List (List Char) → Bool
  | pr :: separatorsPr,inn :: separatorsIn => if strcmp pr inn ≠ 0 then false else compatible separatorsPr separatorsIn
  | _,_ => true

def versionMatched (cmp : VersionCmp) (versionEqual : Bool) (cmpResult : Int) : Bool :=
  match cmp with
  | .eq | .none => versionEqual
  | .neq => !versionEqual
  | .gt => decide (cmpResult < 0)
  | .lt => decide (cmpResult > 0)
  | .ge => decide (cmpResult < 0) || versionEqual
  | .le => decide (cmpResult > 0) || versionEqual

def breakLoop (cmp : VersionCmp) (cmpResult : Int) : Bool :=
  match cmp with
  | .gt => decide (cmpResult > 0)
  | .lt => decide (cmpResult < 0)
  | .ge => decide (cmpResult > 0)
  | .le => decide (cmpResult < 0)
  | _ => false

def numbersLoop (cmp : VersionCmp) (versionEqual : Bool) : List (List Char) → List (List Char) → Bool
  | pr :: numbersPr,inn :: numbersIn =>
    if versionMatched cmp versionEqual (strcmp pr inn) then true
    else if breakLoop cmp (strcmp pr inn) then false
    else numbersLoop cmp versionEqual numbersPr numbersIn
  | numbersPr,numbersIn =>
    (!numbersPr.isEmpty && (cmp == .lt || cmp == .le)) || (!numbersIn.isEmpty && (cmp == .gt || cmp == .ge))

def comparePackages (n v a : List Char) (pi : PackageItem) (cmp : VersionCmp) : Bool :=
  if compareCSVName n pi.name ≠ 0 then false
  else if a ≠ ['*'] ∧ a ≠ pi.arch then false
  else if v = ['*'] then true
  else
    let pr := parsePackageVersion (canonifyChar v ',')
    let inn := parsePackageVersion (canonifyChar pi.version ',')
    if compatible pr.2 inn.2 then numbersLoop cmp (pi.version == v) pr.1 inn.1 else false

open Foundations.Numerals
open List hiding head le lt swap tail

structure Component (component : List Char) : Prop where
  filled : component ≠ []
  alphanumeric : ∀ c ∈ component, isAlphanumeric c = true
  narrow : component.length ≤ 29

def versionText (first : List Char) (rest : List (Char × List Char)) : List Char :=
  first++rest.flatMap fun part => part.1 :: part.2

structure Version where
  first : List Char
  rest : List (Char × List Char)
  head : Component first
  parts : ∀ part ∈ rest, isAlphanumeric part.1 = false ∧ Component part.2
  short : (versionText first rest).length < cfBufsize

namespace Version

def text (version : Version) : List Char := versionText version.first version.rest

def components (version : Version) : List (List Char) := version.first :: version.rest.map Prod.snd

def separators (version : Version) : List Char := version.rest.map Prod.fst

def Extends (longer shorter : Version) : Prop :=
  longer.first = shorter.first ∧ ∃ more, more ≠ [] ∧ longer.rest = shorter.rest++more

end Version

section
variable {first : List Char} {rest : List (Char × List Char)}

theorem underscore_alphanumeric : isAlphanumeric (underscore ',' c) = isAlphanumeric c := by
  unfold underscore
  split
  · rename_i comma
    rw [comma]
    decide
  · rfl

theorem underscore_component (component : Component first) : first.map (underscore ',') = first := by
  refine (map_congr_left ?_).trans (map_id first)
  intro c mem
  unfold underscore
  rw [if_neg]
  · rfl
  · rintro rfl
    exact absurd (component.alphanumeric ',' mem) (by decide)

section
variable (component : Component first) (parts : ∀ part ∈ rest, isAlphanumeric part.1 = false ∧ Component part.2)
include component parts

theorem text_split : (versionText first rest).takeWhile isAlphanumeric = first ∧
      (versionText first rest).drop first.length = rest.flatMap fun part => part.1 :: part.2 := by
  refine ⟨?_,drop_left⟩
  unfold versionText
  rw [takeWhile_append_of_pos component.alphanumeric]
  cases rest with
  | nil => simp
  | cons part rest =>
    obtain ⟨here,_⟩ := forall_mem_cons.mp parts
    rw [flatMap_cons,cons_append,takeWhile_cons_of_neg (by simp [here.1]),append_nil]

theorem parseLoop_first : parseLoop (fuel+1) (versionText first rest) =
      match rest with
      | [] => ([first],[])
      | (separator,second) :: more =>
        (first :: (parseLoop fuel (versionText second more)).1,
          [separator] :: (parseLoop fuel (versionText second more)).2) := by
  obtain ⟨taken,dropped⟩ := text_split component parts
  obtain ⟨c,front,rfl⟩ := exists_cons_of_ne_nil component.filled
  have shape : versionText (c :: front) rest = c :: (front++rest.flatMap fun part => part.1 :: part.2) := rfl
  rw [shape] at taken dropped ⊢
  rw [parseLoop]
  simp only [taken]
  rw [take_of_length_le component.narrow]
  simp only [dropped]
  cases rest with
  | nil => rfl
  | cons part rest =>
    obtain ⟨here,_⟩ := forall_mem_cons.mp parts
    simp only [flatMap_cons,cons_append,here.1,Bool.false_eq_true,if_false]
    rfl

theorem parseLoop_text (enough : (versionText first rest).length < fuel) :
    parseLoop fuel (versionText first rest) = (first :: rest.map Prod.snd,rest.map fun part => [part.1]) := by
  induction rest generalizing first fuel with
  | nil =>
    obtain ⟨fuel,rfl⟩ : ∃ less, fuel = less+1 := ⟨fuel-1,by omega⟩
    rw [parseLoop_first component parts]
    rfl
  | cons part rest ih =>
    obtain ⟨fuel,rfl⟩ : ∃ less, fuel = less+1 := ⟨fuel-1,by omega⟩
    obtain ⟨here,later⟩ := forall_mem_cons.mp parts
    have shorter : (versionText part.2 rest).length < fuel := by
      unfold versionText at enough ⊢
      rw [flatMap_cons,length_append,cons_append,length_cons] at enough
      omega
    rw [parseLoop_first component parts]
    simp [ih here.2 later shorter]

end

theorem parse_version (version : Version) : parsePackageVersion (canonifyChar version.text ',') =
      (version.components,version.separators.map fun separator => [underscore ',' separator]) := by
  have whole : version.text.take (cfBufsize-1) = version.text :=
    take_of_length_le (Nat.le_sub_one_of_lt version.short)
  have parts : ∀ part ∈ version.rest.map (fun part => (underscore ',' part.1,part.2)),
      isAlphanumeric part.1 = false ∧ Component part.2 := by
    intro part mem
    obtain ⟨source,inside,rfl⟩ := mem_map.mp mem
    obtain ⟨separator,component⟩ := version.parts source inside
    exact ⟨by rw [underscore_alphanumeric,separator],component⟩
  have mapped : version.text.map (underscore ',') =
      versionText version.first (version.rest.map fun part => (underscore ',' part.1,part.2)) := by
    unfold Version.text versionText
    rw [map_append,underscore_component version.head,map_flatMap,flatMap_map]
    congr 1
    refine flatMap_congr ?_
    intro part mem
    rw [map_cons,underscore_component (version.parts part mem).2]
  unfold parsePackageVersion canonifyChar
  rw [whole,mapped,parseLoop_text version.head parts (Nat.lt_succ_self _)]
  simp [Version.components,Version.separators,Function.comp_def]

theorem text_components {left right : Version} (same : left.separators = right.separators) :
    left.text = right.text ↔ left.components = right.components := by
  constructor
  · intro equal
    have parsed := congrArg Prod.fst (parse_version left)
    rw [equal,parse_version right] at parsed
    exact parsed.symm
  intro equal
  have paired : ∀ rest : List (Char × List Char), rest = (rest.map Prod.fst).zip (rest.map Prod.snd) := by
    intro rest
    rw [zip_map']
    exact (map_id rest).symm
  have rests : left.rest = right.rest := by
    rw [paired left.rest,paired right.rest,(cons.inj equal).2]
    exact congrArg (zip · _) same
  unfold Version.text
  rw [rests,(cons.inj equal).1]

end

section
variable {pr inn : List (List Char)} {versionEqual : Bool}

theorem strcmp_order : Foundations.Segments.TotalPreorder strcmp := lexicographic_order sign_order

theorem strcmp_zero (left right : List Char) : strcmp left right = 0 ↔ left = right := lexicographic_zero sign_zero

theorem compatible_append (front more : List (List Char)) : compatible front (front++more) = true := by
  induction front with
  | nil => simp [compatible]
  | cons separator front ih => rw [cons_append,compatible,if_neg (by simp [strcmp_zero]),ih]

-- The two strict comparisons are one in the two ways.
theorem loop_strict {cmp : VersionCmp} {way : Int} (strict : (cmp = .gt ∧ way = -1) ∨ (cmp = .lt ∧ way = 1)) (pr inn : List (List Char)) :
    numbersLoop cmp versionEqual pr inn = true ↔ 0 < way*lexicographic strcmp pr inn := by
  have decided : ∀ result, (versionMatched cmp versionEqual result = true ↔ 0 < way*result) ∧
      (breakLoop cmp result = true ↔ way*result < 0) := by
    intro result
    rcases strict with ⟨rfl,rfl⟩ | ⟨rfl,rfl⟩ <;> simp [versionMatched,breakLoop]
  induction pr generalizing inn with
  | nil =>
    cases inn with
    | nil | cons i inn => rcases strict with ⟨rfl,rfl⟩ | ⟨rfl,rfl⟩ <;> simp [numbersLoop,lexicographic]
  | cons p pr ih =>
    cases inn with
    | nil => rcases strict with ⟨rfl,rfl⟩ | ⟨rfl,rfl⟩ <;> simp [numbersLoop,lexicographic]
    | cons i inn =>
      obtain ⟨matched,broken⟩ := decided (strcmp p i)
      rw [numbersLoop,lexicographic]
      simp only [matched,broken]
      rcases lt_trichotomy (way*strcmp p i) 0 with less | same | more
      · have uneven : strcmp p i ≠ 0 := fun zero => by simp [zero] at less
        rw [if_neg (by omega),if_pos less,if_neg uneven]
        simp [less.not_gt]
      · have level : strcmp p i = 0 := by rcases strict with ⟨_,rfl⟩ | ⟨_,rfl⟩ <;> omega
        rw [if_neg (by omega),if_neg (by omega),if_pos level]
        exact ih inn
      · have uneven : strcmp p i ≠ 0 := fun zero => by simp [zero] at more
        rw [if_pos more,if_neg uneven]
        simp [more]

theorem loop_equal {cmp : VersionCmp} (inclusive : cmp = .eq ∨ cmp = .ge ∨ cmp = .le)
    (pr inn : List (List Char)) : numbersLoop cmp true (p :: pr) (i :: inn) = true := by
  rw [numbersLoop]
  rcases inclusive with rfl | rfl | rfl
  · rfl
  · simp [versionMatched]
  · simp [versionMatched]

theorem loop_eq_unequal (pr inn : List (List Char)) : numbersLoop .eq false pr inn = false := by
  induction pr generalizing inn with
  | nil =>
    cases inn with
    | nil | cons i inn => rfl
  | cons p pr ih =>
    cases inn with
    | nil => rfl
    | cons i inn =>
      exact ih inn

theorem loop_unequal (alike : (loose = .ge ∧ strict = .gt) ∨ (loose = .le ∧ strict = .lt)) (pr inn : List (List Char)) :
    numbersLoop loose false pr inn = numbersLoop strict false pr inn := by
  induction pr generalizing inn with
  | nil =>
    cases inn with
    | nil | cons i inn => rcases alike with ⟨rfl,rfl⟩ | ⟨rfl,rfl⟩ <;> rfl
  | cons p pr ih =>
    cases inn with
    | nil => rcases alike with ⟨rfl,rfl⟩ | ⟨rfl,rfl⟩ <;> rfl
    | cons i inn =>
      rw [numbersLoop,numbersLoop,ih]
      rcases alike with ⟨rfl,rfl⟩ | ⟨rfl,rfl⟩ <;> simp [versionMatched,breakLoop]

end

def compares (n a name arch : List Char) (cmp : VersionCmp) (installed promised : Version) : Prop :=
  comparePackages n promised.text a ⟨name,installed.text,arch⟩ cmp = true

section
variable {n a name arch : List Char}

section
variable (named : compareCSVName n name = 0) (matching : a = ['*'] ∨ a = arch)
include named matching

theorem compares_loop {cmp : VersionCmp}
    (model : compatible (promised.separators.map fun separator => [underscore ',' separator])
      (installed.separators.map fun separator => [underscore ',' separator]) = true) :
    compares n a name arch cmp installed promised ↔
      numbersLoop cmp (installed.text == promised.text) promised.components installed.components = true := by
  have arches : ¬(a ≠ ['*'] ∧ a ≠ arch) := by
    rintro ⟨star,other⟩
    rcases matching with same | same
    · exact star same
    · exact other same
  have starless : promised.text ≠ ['*'] := by
    intro star
    obtain ⟨c,front,first⟩ := exists_cons_of_ne_nil promised.head.filled
    have mem : c ∈ promised.first := by
      rw [first]
      exact .head _ ..
    have valid := promised.head.alphanumeric c mem
    unfold Version.text versionText at star
    rw [first,cons_append] at star
    rw [(cons.inj star).1] at valid
    exact absurd valid (by decide)
  unfold compares comparePackages
  rw [if_neg (by simp [named]),if_neg arches,if_neg starless]
  simp [parse_version,model]

theorem compares_order (same : left.separators = right.separators)
    (result : lexicographic strcmp left.components right.components = found) :
    (compares n a name arch .lt left right ↔ found < 0) ∧ (compares n a name arch .gt left right ↔ 0 < found) ∧
    (compares n a name arch .eq left right ↔ found = 0) ∧ (compares n a name arch .ge left right ↔ 0 ≤ found) ∧
    (compares n a name arch .le left right ↔ found ≤ 0) := by
  have order := lexicographic_order strcmp_order
  have model : compatible (right.separators.map fun separator => [underscore ',' separator])
      (left.separators.map fun separator => [underscore ',' separator]) = true := by
    have whole := compatible_append (right.separators.map fun separator => [underscore ',' separator]) []
    rw [append_nil] at whole
    rw [same]
    exact whole
  have zero : found = 0 ↔ left.text = right.text := by
    rw [text_components same,← result]
    exact lexicographic_zero strcmp_zero
  have down := order.swap left.components right.components
  have up := order.swap right.components left.components
  simp only [compares_loop named matching model]
  refine ⟨by rw [loop_strict (.inr ⟨rfl,rfl⟩)]; omega,by rw [loop_strict (.inl ⟨rfl,rfl⟩)]; omega,?_⟩
  by_cases equal : left.text = right.text
  · have level := zero.mpr equal
    rw [equal,BEq.rfl,level]
    refine ⟨?_,?_,?_⟩
    · exact iff_of_true (loop_equal (.inl rfl) _ _) rfl
    · exact iff_of_true (loop_equal (.inr (.inl rfl)) _ _) (Int.le_refl 0)
    · exact iff_of_true (loop_equal (.inr (.inr rfl)) _ _) (Int.le_refl 0)
  · have uneven : found ≠ 0 := fun level => equal (zero.mp level)
    rw [beq_eq_false_iff_ne.mpr equal,loop_eq_unequal,loop_unequal (.inl ⟨rfl,rfl⟩),loop_unequal (.inr ⟨rfl,rfl⟩),
      loop_strict (.inl ⟨rfl,rfl⟩),loop_strict (.inr ⟨rfl,rfl⟩)]
    refine ⟨by simp [uneven],by omega,by omega⟩

theorem extends_greater (longer shorter : Version)
    (extension : longer.Extends shorter) : compares n a name arch .gt longer shorter := by
  obtain ⟨first,more,filled,rest⟩ := extension
  have separators : longer.separators = shorter.separators++more.map Prod.fst := by
    unfold Version.separators
    rw [rest,map_append]
  have components : longer.components = shorter.components++more.map Prod.snd := by
    unfold Version.components
    rw [rest,first,map_append,cons_append]
  have model : compatible (shorter.separators.map fun separator => [underscore ',' separator])
      (longer.separators.map fun separator => [underscore ',' separator]) = true := by
    rw [separators,map_append]
    exact compatible_append _ _
  rw [compares_loop named matching model,loop_strict (.inl ⟨rfl,rfl⟩),components,neg_one_mul,neg_pos]
  exact lexicographic_longer strcmp_order (by simpa using filled)

end

end

-- The order of versions whose text fits CanonifyChar's buffer, in components of at most 29
-- characters.
theorem versions_ordered (n a name arch : List Char) (named : compareCSVName n name = 0)
    (matching : a = ['*'] ∨ a = arch) :
    (∀ left right : Version, left.separators = right.separators →
      ((compares n a name arch .lt left right ∧ ¬compares n a name arch .eq left right ∧
          ¬compares n a name arch .gt left right) ∨
        (¬compares n a name arch .lt left right ∧ compares n a name arch .eq left right ∧
          ¬compares n a name arch .gt left right) ∨
        (¬compares n a name arch .lt left right ∧ ¬compares n a name arch .eq left right ∧
          compares n a name arch .gt left right)) ∧
      (compares n a name arch .ge left right ↔
        compares n a name arch .gt left right ∨ compares n a name arch .eq left right) ∧
      (compares n a name arch .le left right ↔
        compares n a name arch .lt left right ∨ compares n a name arch .eq left right) ∧
      (compares n a name arch .lt left right ↔ compares n a name arch .gt right left)) ∧
    (∀ left middle right : Version, left.separators = middle.separators → middle.separators = right.separators →
      compares n a name arch .lt left middle → compares n a name arch .lt middle right →
      compares n a name arch .lt left right) ∧
    (∀ longer shorter : Version, longer.Extends shorter → compares n a name arch .gt longer shorter) ∧
    (∀ (left right : Version) (front back tail : List (List Char)) (low high : Nat),
      left.separators = right.separators → left.components = front++numeral low :: back →
      right.components = front++numeral high :: tail → low < high →
      (compares n a name arch .lt left right ↔ low ≤ high/10^((numeral high).length-(numeral low).length))) := by
  have order := lexicographic_order strcmp_order
  refine ⟨?_,?_,extends_greater named matching,?_⟩
  · intro left right same
    obtain ⟨lt,gt,eq,ge,le⟩ := compares_order named matching same rfl
    obtain ⟨_,back,_⟩ := compares_order named matching same.symm rfl
    have swap := order.swap left.components right.components
    rw [lt,gt,eq,ge,le,back]
    omega
  · intro left middle right first second low high
    rw [(compares_order named matching first rfl).1] at low
    rw [(compares_order named matching second rfl).1] at high
    rw [(compares_order named matching (first.trans second) rfl).1]
    exact order.lt_trans low.le high
  · intro left right front back tail low high same leftComponents rightComponents less
    have differs : strcmp (numeral low) (numeral high) ≠ 0 := mt numeral_zero.mp less.ne
    rw [(compares_order named matching same rfl).1,leftComponents,rightComponents,
      lexicographic_append strcmp_order,lexicographic,if_neg differs]
    exact numeral_order less

theorem digit_component (digit : isAlphanumeric c = true) : Component [c] :=
  ⟨by simp,by simpa using digit,by simp⟩

theorem dotted_parts : ∀ part ∈ [('.',['0']),('-',['1'])], isAlphanumeric part.1 = false ∧ Component part.2 :=
  forall_mem_cons.mpr ⟨⟨by decide,digit_component (by decide)⟩,
    forall_mem_singleton.mpr ⟨by decide,digit_component (by decide)⟩⟩

theorem dotted_short : (versionText ['1'] [('.',['0']),('-',['1'])]).length < cfBufsize := by decide

def oneZeroOne : Version := ⟨['1'],[('.',['0']),('-',['1'])],digit_component rfl,dotted_parts,dotted_short⟩

theorem two_parts : ∀ part ∈ [('.',['0'])], isAlphanumeric part.1 = false ∧ Component part.2 :=
  (forall_mem_cons.mp dotted_parts).elim fun here _ => forall_mem_singleton.mpr here

theorem two_short : (versionText ['1'] [('.',['0'])]).length < cfBufsize := by decide

def oneZero : Version := ⟨['1'],[('.',['0'])],digit_component rfl,two_parts,two_short⟩

theorem versions_ordered_longer : compares ['p'] ['*'] ['p'] ['x'] .gt oneZeroOne oneZero :=
  (versions_ordered ['p'] ['*'] ['p'] ['x'] rfl (.inl rfl)).2.2.1 oneZeroOne oneZero
    ⟨rfl,[('-',['1'])],by decide,rfl⟩

-- 1.10 is less than 1.9, and nothing is seen of the thirtieth character of a component.
theorem versions_texts : comparePackages ['p'] ['1','.','9'] ['*'] ⟨['p'],['1','.','1','0'],['x']⟩ .lt = true ∧
    ∀ cmp ∈ [VersionCmp.lt,VersionCmp.eq,VersionCmp.gt], comparePackages ['p'] (replicate 29 '1'++['2']) ['*']
        ⟨['p'],replicate 29 '1'++['3'],['x']⟩ cmp = false := by
  decide

end Cfengine.Packages
