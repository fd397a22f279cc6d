import SipxExternals.CfengineExpressions

namespace Cfengine.Expressions
open Foundations.Passages List

inductive Formula where
  | name (text : List Char)
  | not (arg : Formula)
  | and (left right : Formula)
  | or (left right : Formula)

namespace Formula

def holds (assignment : List Char → Bool) : Formula → Bool
  | .name text => assignment text
  | .not arg => !arg.holds assignment
  | .and left right => left.holds assignment && right.holds assignment
  | .or left right => left.holds assignment || right.holds assignment

def names : Formula → List (List Char)
  | .name text => [text]
  | .not arg => arg.names
  | .and left right => left.names++right.names
  | .or left right => left.names++right.names

def expression : Formula → Expression
  | .name text => .eval (.literal text)
  | .not arg => .not arg.expression
  | .and left right => .and left.expression right.expression
  | .or left right => .or left.expression right.expression

end Formula

inductive Level where
  | primary | negation | conjunction | alternatives
  deriving DecidableEq

inductive Generates : Level → List Char → Formula → Prop where
  | name (filled : name ≠ []) (named : Named name) : Generates .primary name (.name name)
  | brackets (inner : Generates .alternatives text formula) : Generates .primary ('(' :: (text++[')'])) formula
  | plain (arg : Generates .primary text formula) : Generates .negation text formula
  | not (arg : Generates .primary text formula) : Generates .negation ('!' :: text) (.not formula)
  | single (arg : Generates .negation text formula) : Generates .conjunction text formula
  | and (left : Generates .negation front first) (separator : c = '.' ∨ c = '&')
      (right : Generates .conjunction back second) : Generates .conjunction (front++c :: back) (.and first second)
  | alone (arg : Generates .conjunction text formula) : Generates .alternatives text formula
  | or (left : Generates .conjunction front first) (separator : bar = ['|'] ∨ bar = ['|','|'])
      (right : Generates .alternatives back second) : Generates .alternatives (front++(bar++back)) (.or first second)

namespace Level

def parse : Level → Nat → List Char → Nat → Nat → Option ParseResult
  | .primary => parsePrimary
  | .negation => parseNotExpression
  | .conjunction => parseAndExpression
  | .alternatives => parseExpression

@[grind]
def fuel : Level → Nat → Nat
  | .primary,n => 4*n+5
  | .negation,n => 4*n+6
  | .conjunction,n => 4*n+7
  | .alternatives,n => 4*n+8

-- What has been read ends here: a name is not carried on, and no operator of the level follows.
def Closed (expr text : List Char) (position : Nat) : Level → Prop
  | .primary | .negation => text.getLast? = some ')' ∨ Unnamed expr position
  | .conjunction => (text.getLast? = some ')' ∨ Unnamed expr position) ∧ expr[position]? ≠ some '.' ∧
      expr[position]? ≠ some '&'
  | .alternatives => (text.getLast? = some ')' ∨ Unnamed expr position) ∧
      (expr[position]? ≠ some '.' ∧ expr[position]? ≠ some '&') ∧ expr[position]? ≠ some '|'

end Level

section
variable {expr text : List Char} {start position : Nat}

theorem unnamed_at (here : expr[position]? = some c) (invalid : validTokenCharacter c = false) :
    Unnamed expr position := by
  intro d found
  rw [here] at found
  cases found
  exact invalid

theorem generates_head (generates : Generates level text formula) :
    ∃ c rest, text = c :: rest ∧ c ≠ '|' ∧ (level = .primary → c ≠ '!') := by
  induction generates with
  | @name name filled named =>
    cases name with
    | nil => exact absurd rfl filled
    | cons c rest =>
      have valid := named c (.head _ ..)
      refine ⟨c,rest,rfl,?_,?_⟩
      · rintro rfl
        exact absurd valid (by decide)
      · rintro _ rfl
        exact absurd valid (by decide)
  | brackets _ _ => exact ⟨'(',_,rfl,by decide,by decide⟩
  | not _ _ => exact ⟨'!',_,rfl,by decide,by simp⟩
  | plain _ ih | single _ ih | alone _ ih =>
    obtain ⟨c,rest,same,bar,_⟩ := ih
    exact ⟨c,rest,same,bar,by simp⟩
  | and _ _ _ ih _ | or _ _ _ ih _ =>
    obtain ⟨c,rest,rfl,bar,_⟩ := ih
    exact ⟨c,_,rfl,bar,by simp⟩

theorem generates_filled (generates : Generates level text formula) : text ≠ [] := by
  obtain ⟨c,rest,rfl,_⟩ := generates_head generates
  exact cons_ne_nil c rest

theorem closed_suffix {level : Level} (suffix : back <:+ text) (filled : back ≠ []) :
    level.Closed expr text position ↔ level.Closed expr back position := by
  obtain ⟨front,rfl⟩ := suffix
  cases level <;> simp only [Level.Closed,getLast?_append_of_ne_nil _ filled]

def Parses (expr : List Char) (level : Level) (text : List Char) (formula : Formula) : Prop :=
  ∀ start position fuel, Spells expr start position text → level.Closed expr text position →
    level.fuel (expr.length-start) ≤ fuel →
    level.parse fuel expr start expr.length = some ⟨some formula.expression,position⟩

theorem parses_succ (step : ∀ start position fuel, Spells expr start position text → level.Closed expr text position →
    level.fuel (expr.length-start) ≤ fuel+1 →
    level.parse (fuel+1) expr start expr.length = some ⟨some formula.expression,position⟩) : Parses expr level text formula := by
  intro start position fuel spells closed enough
  cases fuel with
  | zero => cases level <;> simp [Level.fuel] at enough
  | succ fuel => exact step start position fuel spells closed enough

theorem parses_name (plain : '$' ∉ expr) (filled : name ≠ []) (named : Named name) :
    Parses expr .primary name (.name name) := by
  refine parses_succ fun start position fuel spells closed enough => ?_
  have length := spells_length spells
  have below := spells_le spells
  have ends := closed.resolve_left fun last => absurd (named ')' (mem_of_getLast? last)) (by decide)
  simp only [Level.parse]
  rw [parsePrimary,if_neg]
  · rw [nameFuel,parseStringExpression_plain plain (by omega),parseToken_exact spells filled named ends]
    rfl
  rintro ⟨_,bracket⟩
  cases name with
  | nil => exact absurd rfl filled
  | cons c rest =>
    have here := spells.1
    rw [bracket] at here
    cases here
    exact absurd (named '(' (.head _ ..)) (by decide)

theorem parses_brackets (inner : Parses expr .alternatives text formula) :
    Parses expr .primary ('(' :: (text++[')'])) formula := by
  refine parses_succ fun start position fuel spells closed enough => ?_
  obtain ⟨here,rest⟩ := spells
  obtain ⟨middle,inside,closing,same,_⟩ := spells_split rest
  have below := (List.getElem?_eq_some_iff.mp here).1
  have within := (List.getElem?_eq_some_iff.mp closing).1
  have parsed := inner (start+1) middle fuel inside
    ⟨.inr (unnamed_at closing (by decide)),by simp [closing],by simp [closing]⟩ (by grind)
  simp only [Level.parse] at parsed ⊢
  rw [parsePrimary,if_pos ⟨below,here⟩,parsed]
  simp only [Option.bind_eq_bind,Option.bind_some,if_pos (And.intro within closing),same]
  rfl

theorem parses_plain (arg : Parses expr .primary text formula) (head : ∃ c rest, text = c :: rest ∧ c ≠ '!') :
    Parses expr .negation text formula := by
  refine parses_succ fun start position fuel spells closed enough => ?_
  obtain ⟨c,rest,rfl,differs⟩ := head
  simp only [Level.parse]
  rw [parseNotExpression,if_neg]
  · exact arg start position fuel spells closed (by grind)
  rintro ⟨_,bang⟩
  have here := spells.1
  rw [bang] at here
  cases here
  exact differs rfl

theorem parses_not (filled : text ≠ []) (arg : Parses expr .primary text formula) :
    Parses expr .negation ('!' :: text) (.not formula) := by
  refine parses_succ fun start position fuel spells closed enough => ?_
  obtain ⟨here,rest⟩ := spells
  have below := (List.getElem?_eq_some_iff.mp here).1
  have parsed := arg (start+1) position fuel rest ((closed_suffix ⟨['!'],rfl⟩ filled).mp closed)
    (by grind)
  simp only [Level.parse] at parsed ⊢
  rw [parseNotExpression,if_pos ⟨below,here⟩,parsed]
  rfl

theorem parses_single (arg : Parses expr .negation text formula) : Parses expr .conjunction text formula := by
  refine parses_succ fun start position fuel spells closed enough => ?_
  have parsed := arg start position fuel spells closed.1 (by grind)
  simp only [Level.parse] at parsed ⊢
  rw [parseAndExpression,parsed]
  simp [closed.2]

theorem parses_and (left : Parses expr .negation front first) (separator : c = '.' ∨ c = '&') (filled : back ≠ [])
    (right : Parses expr .conjunction back second) :
    Parses expr .conjunction (front++c :: back) (.and first second) := by
  refine parses_succ fun start position fuel spells closed enough => ?_
  obtain ⟨middle,before,here,after⟩ := spells_split spells
  have length := spells_length before
  have below := (List.getElem?_eq_some_iff.mp here).1
  have invalid : validTokenCharacter c = false := by
    rcases separator with rfl | rfl
    · decide
    · decide
  have lhs := left start middle fuel before (.inr (unnamed_at here invalid)) (by grind)
  have rhs := right (middle+1) position fuel after ((closed_suffix ⟨front++[c],by simp⟩ filled).mp closed)
    (by grind)
  simp only [Level.parse] at lhs rhs ⊢
  rw [parseAndExpression,lhs]
  have more : ¬(middle = expr.length ∨ (expr[middle]? ≠ some '.' ∧ expr[middle]? ≠ some '&')) := by
    rw [here]
    rcases separator with rfl | rfl
    · simp; omega
    · simp; omega
  simp only [Option.bind_eq_bind,Option.bind_some,if_neg more,rhs]
  rfl

theorem parses_alone (arg : Parses expr .conjunction text formula) : Parses expr .alternatives text formula := by
  refine parses_succ fun start position fuel spells closed enough => ?_
  have parsed := arg start position fuel spells ⟨closed.1,closed.2.1⟩ (by grind)
  simp only [Level.parse] at parsed ⊢
  rw [parseExpression,parsed]
  simp [closed.2.2]

theorem bar_position (separator : bar = ['|'] ∨ bar = ['|','|']) (spells : Spells expr start middle bar)
    (after : Spells expr middle position back) (head : ∃ c rest, back = c :: rest ∧ c ≠ '|') :
    expr[start]? = some '|' ∧ start < middle ∧
      (if start+1 < expr.length ∧ expr[start+1]? = some '|' then start+1 else start)+1 = middle := by
  obtain ⟨c,rest,rfl,differs⟩ := head
  have next := after.1
  rcases separator with rfl | rfl
  · obtain ⟨here,rfl,_⟩ := spells
    refine ⟨here,by omega,?_⟩
    rw [if_neg]
    rintro ⟨_,bar⟩
    rw [bar] at next
    cases next
    exact differs rfl
  · obtain ⟨here,second,rfl,_⟩ := spells
    exact ⟨here,by omega,by rw [if_pos ⟨by omega,second⟩]⟩

theorem parses_or (left : Parses expr .conjunction front first) (separator : bar = ['|'] ∨ bar = ['|','|'])
    (right : Parses expr .alternatives back second) (head : ∃ c rest, back = c :: rest ∧ c ≠ '|') :
    Parses expr .alternatives (front++(bar++back)) (.or first second) := by
  refine parses_succ fun start position fuel spells closed enough => ?_
  obtain ⟨middle,before,rest⟩ := spells_split spells
  obtain ⟨next,bars,after⟩ := spells_split rest
  obtain ⟨here,moved,skipped⟩ := bar_position separator bars after head
  have filled : back ≠ [] := by
    obtain ⟨c,_,rfl,_⟩ := head
    exact cons_ne_nil c _
  have length := spells_length before
  have below := (List.getElem?_eq_some_iff.mp here).1
  have lhs := left start middle fuel before ⟨.inr (unnamed_at here (by decide)),by simp [here]⟩ (by grind)
  have rhs := right next position fuel after ((closed_suffix ⟨front++bar,by simp⟩ filled).mp closed)
    (by grind)
  simp only [Level.parse] at lhs rhs ⊢
  have more : ¬(middle = expr.length ∨ expr[middle]? ≠ some '|') := by
    simp [here]
    omega
  rw [parseExpression,lhs]
  simp only [Option.bind_eq_bind,Option.bind_some,if_neg more,skipped,rhs]
  rfl

theorem generated_parses (plain : '$' ∉ expr) (generates : Generates level text formula) :
    Parses expr level text formula := by
  induction generates with
  | name filled named => exact parses_name plain filled named
  | brackets _ inner => exact parses_brackets inner
  | plain arg ih =>
    obtain ⟨c,rest,same,_,differs⟩ := generates_head arg
    exact parses_plain ih ⟨c,rest,same,differs rfl⟩
  | not generated arg => exact parses_not (generates_filled generated) arg
  | single _ arg => exact parses_single arg
  | and _ separator generated left right => exact parses_and left separator (generates_filled generated) right
  | alone _ arg => exact parses_alone arg
  | or _ separator generated left right =>
    obtain ⟨c,rest,same,differs,_⟩ := generates_head generated
    exact parses_or left separator right ⟨c,rest,same,differs⟩

end

inductive Sound (level : Level) (expr : List Char) (start : Nat) : Option ParseResult → Prop where
  | failed (low : start ≤ position) (high : position ≤ expr.length) : Sound level expr start (some ⟨none,position⟩)
  | found (spells : Spells expr start position text) (generates : Generates level text formula)
      (closed : level.Closed expr text position) : Sound level expr start (some ⟨some formula.expression,position⟩)

def SoundAt (level : Level) (expr : List Char) (fuel : Nat) : Prop :=
  ∀ start ≤ expr.length, level.fuel (expr.length-start) ≤ fuel →
    Sound level expr start (level.parse fuel expr start expr.length)

section
variable {expr : List Char} {start position fuel : Nat}

theorem reads_moved (spells : Spells expr start position text) (generates : Generates level text formula) :
    start < position ∧ position ≤ expr.length := by
  have length := spells_length spells
  have filled := length_pos_of_ne_nil (generates_filled generates)
  exact ⟨by omega,spells_le spells⟩

theorem primary_sound (plain : '$' ∉ expr) (inner : SoundAt .alternatives expr fuel) : SoundAt .primary expr (fuel+1) := by
  intro start inside enough
  simp only [Level.parse]
  rw [parsePrimary]
  split
  · rename_i bracket
    have parsed := inner (start+1) bracket.1 (by grind)
    simp only [Level.parse] at parsed
    generalize parseExpression fuel expr (start+1) expr.length = res at parsed
    cases parsed with
    | failed low high => exact .failed (by omega) high
    | found spells generates _ =>
      simp only [Option.bind_eq_bind,Option.bind_some]
      split
      · rename_i closing
        exact .found (spells_cons bracket.2 (spells_join spells (spells_one closing.2))) (.brackets generates)
          (.inl (getLast?_concat (l := '(' :: _)))
      · have moved := reads_moved spells generates
        exact .failed (by omega) moved.2
  · rw [nameFuel,parseStringExpression_plain plain inside]
    obtain ⟨text,position,spells,named,ends,token⟩ := parseToken_reads inside
    rw [token]
    by_cases empty : text = []
    · have length := spells_length spells
      simpa [empty] using Sound.failed (by omega) (spells_le spells)
    · simp only [if_neg empty]
      exact .found spells (.name empty named) (.inr ends)

theorem negation_sound (primary : SoundAt .primary expr fuel) : SoundAt .negation expr (fuel+1) := by
  intro start inside enough
  simp only [Level.parse]
  rw [parseNotExpression]
  split
  · rename_i bang
    have parsed := primary (start+1) bang.1 (by grind)
    simp only [Level.parse] at parsed
    generalize parsePrimary fuel expr (start+1) expr.length = res at parsed
    cases parsed with
    | failed low high => exact .failed (by omega) high
    | found spells generates closed =>
      exact .found (spells_cons bang.2 spells) (.not generates)
        ((closed_suffix ⟨['!'],rfl⟩ (generates_filled generates)).mpr closed)
  · have parsed := primary start inside (by grind)
    simp only [Level.parse] at parsed
    generalize parsePrimary fuel expr start expr.length = res at parsed
    cases parsed with
    | failed low high => exact .failed low high
    | found spells generates closed => exact .found spells (.plain generates) closed

theorem conjunction_sound (negation : SoundAt .negation expr fuel) (conjunction : SoundAt .conjunction expr fuel) :
    SoundAt .conjunction expr (fuel+1) := by
  intro start inside enough
  have lhs := negation start inside (by grind)
  simp only [Level.parse] at lhs ⊢
  rw [parseAndExpression]
  generalize parseNotExpression fuel expr start expr.length = first at lhs
  cases lhs with
  | failed low high => exact .failed low high
  | @found middle front _ before former closed =>
    simp only [Option.bind_eq_bind,Option.bind_some]
    have moved := reads_moved before former
    split
    · rename_i ends
      exact .found before (.single former) ⟨closed,by grind⟩
    rename_i more
    obtain ⟨c,here,separator⟩ : ∃ c, expr[middle]? = some c ∧ (c = '.' ∨ c = '&') := by grind
    have rhs := conjunction (middle+1) (by omega) (by grind)
    simp only [Level.parse] at rhs
    generalize parseAndExpression fuel expr (middle+1) expr.length = second at rhs
    cases rhs with
    | failed low high => exact .failed (by omega) high
    | found after latter closed =>
      exact .found (spells_join before (spells_cons here after)) (.and former separator latter)
        ((closed_suffix ⟨front++[c],by simp⟩ (generates_filled latter)).mpr closed)

theorem alternatives_sound (conjunction : SoundAt .conjunction expr fuel)
    (alternatives : SoundAt .alternatives expr fuel) : SoundAt .alternatives expr (fuel+1) := by
  intro start inside enough
  have lhs := conjunction start inside (by grind)
  simp only [Level.parse] at lhs ⊢
  rw [parseExpression]
  generalize parseAndExpression fuel expr start expr.length = first at lhs
  cases lhs with
  | failed low high => exact .failed low high
  | @found middle front _ before former closed =>
    simp only [Option.bind_eq_bind,Option.bind_some]
    have moved := reads_moved before former
    split
    · rename_i ends
      exact .found before (.alone former) ⟨closed.1,closed.2,by grind⟩
    rename_i more
    obtain ⟨within,joined⟩ := not_or.mp more
    have here : expr[middle]? = some '|' := not_not.mp joined
    obtain ⟨bar,next,separator,bars,skipped⟩ : ∃ bar next, (bar = ['|'] ∨ bar = ['|','|']) ∧
        Spells expr middle next bar ∧
        (if middle+1 < expr.length ∧ expr[middle+1]? = some '|' then middle+1 else middle)+1 = next := by
      by_cases twice : middle+1 < expr.length ∧ expr[middle+1]? = some '|'
      · exact ⟨['|','|'],_,.inr rfl,⟨here,spells_one twice.2⟩,by rw [if_pos twice]⟩
      · exact ⟨['|'],_,.inl rfl,spells_one here,by rw [if_neg twice]⟩
    have length := spells_length bars
    rw [skipped]
    have rhs := alternatives next (spells_le bars) (by grind)
    simp only [Level.parse] at rhs
    generalize parseExpression fuel expr next expr.length = second at rhs
    cases rhs with
    | failed low high => exact .failed (by omega) high
    | found after latter closed =>
      exact .found (spells_join before (spells_join bars after)) (.or former separator latter)
        ((closed_suffix ⟨front++bar,by simp⟩ (generates_filled latter)).mpr closed)

theorem parsing_sound (plain : '$' ∉ expr) (fuel : Nat) (level : Level) : SoundAt level expr fuel := by
  induction fuel generalizing level with
  | zero =>
    intro start inside enough
    cases level
    all_goals
      simp only [Level.fuel] at enough
      omega
  | succ fuel ih =>
    cases level with
    | primary => exact primary_sound plain (ih .alternatives)
    | negation => exact negation_sound (ih .primary)
    | conjunction => exact conjunction_sound (ih .negation) (ih .conjunction)
    | alternatives => exact alternatives_sound (ih .conjunction) (ih .alternatives)

end

section
variable (nameevalfn : List Char → ExpressionValue) (varrefevalfn : List Char → Option (List Char))

theorem ofBool_error : ExpressionValue.ofBool value ≠ .error := by
  cases value <;> decide

theorem eval_error {formula : Formula} : evalExpression nameevalfn varrefevalfn formula.expression = .error ↔
      ∃ name ∈ formula.names, nameevalfn name = .error := by
  induction formula with
  | name text => simp [Formula.expression,Formula.names,evalExpression,evalStringExpression]
  | not arg ih =>
    simp only [Formula.expression,Formula.names,evalExpression,← ih]
    cases evalExpression nameevalfn varrefevalfn arg.expression with
    | error => rfl
    | no | yes => simp [ofBool_error]
  | and left right first second | or left right first second =>
    simp only [Formula.expression,Formula.names,evalExpression,mem_append,or_and_right,exists_or,← first,← second]
    cases evalExpression nameevalfn varrefevalfn left.expression
    all_goals
      cases evalExpression nameevalfn varrefevalfn right.expression
      all_goals simp [ofBool_error]

theorem eval_value {formula : Formula} (assignment : List Char → Bool)
    (assigned : ∀ name ∈ formula.names, nameevalfn name = .ofBool (assignment name)) :
    evalExpression nameevalfn varrefevalfn formula.expression = .ofBool (formula.holds assignment) := by
  induction formula with
  | name text => exact assigned text (mem_singleton.mpr rfl)
  | not arg ih =>
    rw [Formula.expression,evalExpression,ih assigned,Formula.holds]
    cases arg.holds assignment <;> rfl
  | and left right first second | or left right first second =>
    rw [Formula.expression,evalExpression,first (forall_mem_append.mp assigned).1,
      second (forall_mem_append.mp assigned).2,Formula.holds]
    cases left.holds assignment <;> cases right.holds assignment <;> rfl

end

theorem parse_exact (plain : '$' ∉ text) : parse text = some ⟨some expression,position⟩ ↔
    ∃ part formula, Spells text 0 position part ∧ Generates .alternatives part formula ∧
      Level.Closed text part position .alternatives ∧ formula.expression = expression := by
  constructor
  · intro parsed
    have sound := parsing_sound plain (4*text.length+8) .alternatives 0 (Nat.zero_le _) (Nat.le_refl _)
    change Sound .alternatives text 0 (parse text) at sound
    rw [parsed] at sound
    cases sound with
    | found spells generates closed => exact ⟨_,_,spells,generates,closed,rfl⟩
  · rintro ⟨part,formula,spells,generates,closed,rfl⟩
    exact generated_parses plain generates 0 position _ spells closed (Nat.le_refl _)

theorem parse_generated (plain : '$' ∉ text) (generates : Generates .alternatives text formula) :
    parse text = some ⟨some formula.expression,text.length⟩ := by
  refine (parse_exact plain).mpr ⟨text,formula,spells_self text,generates,?_,rfl⟩
  exact ⟨.inr (by simp [Unnamed]),by simp,by simp⟩

theorem expressions_exact (text : List Char) (plain : '$' ∉ text) : (∀ formula, Generates .alternatives text formula →
      ∃ expression, parse text = some ⟨some expression,text.length⟩ ∧ ∀ nameevalfn varrefevalfn,
        (evalExpression nameevalfn varrefevalfn expression = .error ↔
          ∃ name ∈ formula.names, nameevalfn name = .error) ∧
        ∀ assignment, (∀ name ∈ formula.names, nameevalfn name = .ofBool (assignment name)) →
          evalExpression nameevalfn varrefevalfn expression = .ofBool (formula.holds assignment)) ∧
    (∀ expression, parse text = some ⟨some expression,text.length⟩ →
      ∃ formula, Generates .alternatives text formula) := by
  constructor
  · intro formula generates
    refine ⟨formula.expression,parse_generated plain generates,?_⟩
    intro nameevalfn varrefevalfn
    exact ⟨eval_error nameevalfn varrefevalfn,eval_value nameevalfn varrefevalfn⟩
  · intro expression parsed
    obtain ⟨part,formula,spells,generates,_⟩ := (parse_exact plain).mp parsed
    rw [spells_whole spells] at generates
    exact ⟨formula,generates⟩

theorem expressions_exact_nested : ∃ formula, Generates .alternatives ['a','.','!','(','b','|','|','c',')'] formula :=
  (expressions_exact _ (by decide)).2
    (.and (.eval (.literal ['a'])) (.not (.or (.eval (.literal ['b'])) (.eval (.literal ['c']))))) (by decide +kernel)

structure Classes where
  vnegheap : List (List Char)
  vdelclasses : List (List Char)
  vheap : List (List Char)
  vaddclasses : List (List Char)

def isItemIn (list : List (List Char)) (item : List Char) : Bool := item.isEmpty || list.contains item

def evalTokenAsClass (classes : Classes) (classname : List Char) : ExpressionValue :=
  if isItemIn classes.vnegheap classname then .no
  else if isItemIn classes.vdelclasses classname then .no
  else if isItemIn classes.vheap classname then .yes
  else if isItemIn classes.vaddclasses classname then .yes
  else .no

-- The position that parsing has come to is used for the message of a failure only.
def isDefinedClass (classes : Classes) : Option (List Char) → Option Bool
  | none => some true
  | some text => do
    let res ← parse text
    match res.result with
    | none => return false
    | some expression => return evalExpression (evalTokenAsClass classes) (fun _ => none) expression == .yes

theorem generates_names (generates : Generates level text formula) : [] ∉ formula.names := by
  induction generates with
  | name filled _ => simpa [Formula.names] using filled.symm
  | and _ _ _ left right | or _ _ _ left right => simp [Formula.names,left,right]
  | brackets _ ih | plain _ ih | not _ ih | single _ ih | alone _ ih => exact ih

theorem defined_holds (plain : '$' ∉ text) (spells : Spells text 0 position part)
    (generates : Generates .alternatives part formula) (closed : Level.Closed text part position .alternatives)
    (assigned : ∀ name ∈ formula.names, evalTokenAsClass classes name = .ofBool (assignment name)) :
    isDefinedClass classes (some text) = some (formula.holds assignment) := by
  have parsed := (parse_exact plain).mpr ⟨part,formula,spells,generates,closed,rfl⟩
  have value := eval_value (evalTokenAsClass classes) (fun _ => none) assignment assigned
  simp only [isDefinedClass,parsed,Option.bind_eq_bind,Option.bind_some,value]
  cases formula.holds assignment <;> rfl

theorem undefined_exact (text : List Char) (plain : '$' ∉ text) :
    (∀ classes, isDefinedClass classes (some text) = some false) ↔
      ∀ position part formula, Spells text 0 position part → Generates .alternatives part formula →
        Level.Closed text part position .alternatives → ∀ assignment, formula.holds assignment = false := by
  constructor
  · intro undefined position part formula spells generates closed assignment
    have result := undefined ⟨[],[],formula.names.filter assignment,[]⟩
    rw [defined_holds plain spells generates closed] at result
    · exact Option.some.inj result
    intro name mem
    have filled : name ≠ [] := fun empty => generates_names generates (empty ▸ mem)
    cases value : assignment name <;> simp [evalTokenAsClass,isItemIn,filled,mem,value,ExpressionValue.ofBool]
  · intro unsatisfied classes
    have sound := parsing_sound plain (4*text.length+8) .alternatives 0 (Nat.zero_le _) (Nat.le_refl _)
    change Sound .alternatives text 0 (parse text) at sound
    generalize parsed : parse text = res at sound
    cases sound with
    | failed _ _ => simp [isDefinedClass,parsed]
    | @found _ _ formula spells generates closed =>
      have assigned : ∀ name ∈ formula.names, evalTokenAsClass classes name =
          .ofBool (evalTokenAsClass classes name == .yes) := by
        intro name _
        unfold evalTokenAsClass
        split_ifs <;> rfl
      rw [defined_holds plain spells generates closed assigned,unsatisfied _ _ _ spells generates closed]

theorem trailing_defined : (∀ formula, ¬Generates .alternatives ['a',')'] formula) ∧
    isDefinedClass ⟨[],[],[['a']],[]⟩ (some ['a',')']) = some true := by
  refine ⟨?_,by decide +kernel⟩
  intro formula generates
  have parsed := parse_generated (by decide) generates
  rw [show parse ['a',')'] = some ⟨some (.eval (.literal ['a'])),1⟩ by decide +kernel] at parsed
  simp at parsed

theorem undefined_exact_unclosed : isDefinedClass ⟨[],[],[['a']],[]⟩ (some ['(','a']) = some false := by
  refine (undefined_exact ['(','a'] (by decide)).mpr ?_ _
  intro position part formula spells generates closed
  have parsed := (parse_exact (by decide)).mpr ⟨part,formula,spells,generates,closed,rfl⟩
  have failed : (parse ['(','a']).map Parse.result = some none := by decide +kernel
  simp [parsed] at failed

end Cfengine.Expressions
