import SipxExternals.MongoBsonGrammar

namespace Mongo.BsonAccepts
open Foundations.Runs Mongo.BsonValidate Mongo.BsonGrammar

theorem intAt_range (bytes : Nat → UInt8) (place : Nat) :
    -2^31 ≤ intAt bytes place ∧ intAt bytes place < 2^31 := cInt_range _

def closed : List ValidationObjectFrame → Nat → Machine
  | [],_ => .done
  | frame :: frames,position =>
    if frame.isCodeWithScope then .endCodeWScope frame frames position
    else .withinObj frame frames position

section
variable {buffer : Buffer} (small : buffer.maxLength < 2^31)
include small

-- The int arithmetic overflows only at lengths that leave a buffer of this size.
theorem textMove_exact (sized : start+4 ≤ buffer.maxLength) (positive : 0 < next) (inside : next ≤ buffer.maxLength) :
    (next : Int) = start+4+textMove buffer.bytes start ↔ (next : Int) = start+4+intAt buffer.bytes start := by
  obtain ⟨low,high⟩ := intAt_range buffer.bytes start
  unfold textMove
  by_cases least : intAt buffer.bytes start = -2^31
  · rw [least,show cInt (-2^31-1) = 2147483647 by decide +kernel]
    omega
  · rw [cInt_small (by omega) (by omega)]
    omega

theorem binaryMove_exact (sized : start+4 ≤ buffer.maxLength) (inside : next ≤ buffer.maxLength) :
    (next : Int) = start+4+binaryMove buffer.bytes start ↔ (next : Int) = start+4+1+intAt buffer.bytes start := by
  obtain ⟨low,high⟩ := intAt_range buffer.bytes start
  unfold binaryMove
  by_cases greatest : intAt buffer.bytes start = 2147483647
  · rw [greatest,show cInt (1+2147483647) = -2^31 by decide +kernel]
    omega
  · rw [cInt_small (by omega) (by omega)]
    omega

theorem textMoved_exact : TextMoved buffer start next ↔ Text anyLengths buffer.bytes buffer.maxLength start next := by
  constructor
  · intro text
    exact ⟨text.sized,trivial,(textMove_exact small text.sized text.positive text.inside).mp text.moved,
      text.positive,text.inside,text.ended⟩
  · intro text
    exact ⟨text.sized,(textMove_exact small text.sized text.positive text.inside).mpr text.spans,
      text.positive,text.inside,text.ended⟩

theorem moved_exact (follows : next < buffer.maxLength) :
    Moved buffer type start next ↔ Flat anyLengths buffer.bytes buffer.maxLength type start next := by
  constructor
  · intro moved
    cases moved with
    | fixed sized _ => exact .fixed sized (by omega)
    | text known text => exact .text known ((textMoved_exact small).mp text)
    | reference text => exact .reference ((textMoved_exact small).mp text) (by omega)
    | regex pattern flags => exact .regex pattern flags
    | binary sized moved _ =>
      exact .binary ⟨sized,trivial,(binaryMove_exact small sized (by omega)).mp moved,by omega⟩
  intro flat
  cases flat with
  | fixed sized _ => exact .fixed sized fun _ => follows
  | text known text => exact .text known ((textMoved_exact small).mpr text)
  | reference text _ => exact .reference ((textMoved_exact small).mpr text)
  | regex pattern flags => exact .regex pattern flags
  | binary binary =>
    exact .binary binary.sized ((binaryMove_exact small binary.sized binary.inside).mpr binary.spans) follows

section
variable (from_ : start ≤ buffer.maxLength) (upto : position ≤ buffer.maxLength)
include from_ upto

theorem actualLength_exact (flag : Bool) (size : Int) :
    actualLength (openFrame start flag size) position = (position : Int)-start := by
  unfold actualLength openFrame cInt cUint64 Int.bmod
  simp only
  split <;> omega

theorem endObj_exact : machineStep buffer (.endObj (openFrame start false size) below position) = .ok machine ↔
      (position : Int)-start = size ∧ machine = closed below position := by
  have length := actualLength_exact small from_ upto false size
  have expected : (openFrame start false size).expectedSize = size := rfl
  simp only [machineStep,length,expected]
  by_cases sized : (position : Int)-start = size
  · cases below with
    | nil => simp [sized,closed,eq_comm]
    | cons frame frames => cases plain : frame.isCodeWithScope <;> simp [sized,closed,plain,eq_comm]
  · simp [sized]

theorem endCodeWScope_exact :
    machineStep buffer (.endCodeWScope (openFrame start true size) (frame :: frames) position) = .ok machine ↔
      (position : Int)-start = size ∧ machine = .withinObj frame frames position := by
  have length := actualLength_exact small from_ upto true size
  have expected : (openFrame start true size).expectedSize = size := rfl
  simp only [machineStep,length,expected]
  by_cases sized : (position : Int)-start = size
  · simp [sized,eq_comm]
  · simp [sized]

end

end

abbrev Turns (buffer : Buffer) : Machine → Machine → Prop := Turn (machineStep buffer) finished

theorem laid_ends (laid : Laid lengths bytes limit part start next) : next ≤ limit := by
  induction laid with
  | document _ _ _ ih | element _ _ _ _ _ _ _ ih | object _ _ ih | code _ _ _ _ ih => exact ih
  | terminator inside _ => exact inside
  | flat flat =>
    cases flat with
    | fixed _ inside | reference _ inside => exact inside
    | text _ text => exact text.inside
    | regex _ flags => exact (named_grows flags).2
    | binary binary => exact binary.inside

theorem elements_inside (laid : Laid lengths bytes limit .elements start next) : start < limit := by
  cases laid with
  | terminator inside | element inside => exact inside

theorem beginObj_turn (fits : start+4 ≤ buffer.maxLength) : machineStep buffer (.beginObj frames start) =
      machineStep buffer
        (.withinObj (openFrame start false (intAt buffer.bytes start)) frames (start+4)) := by
  simp only [machineStep]
  rw [(readInt_exact (by omega)).mpr ⟨fits,rfl,rfl⟩]

theorem beginCodeWScope_turn (fits : start+4 ≤ buffer.maxLength) (text : TextMoved buffer (start+4) scope) :
    machineStep buffer (.beginCodeWScope frames start) =
      .ok (.beginObj (openFrame start true (intAt buffer.bytes start) :: frames) scope) := by
  simp only [machineStep]
  rw [(readInt_exact (by omega)).mpr ⟨fits,rfl,rfl⟩]
  simp [(readUTF8String_exact (by omega)).mpr text]

theorem withinObj_turn (passed : validateElementInfo buffer start = .ok (next,after)) :
    machineStep buffer (.withinObj curr below start) = .ok (enter curr below after next) := by
  simp [machineStep,withinObj,passed]

def Passed (buffer : Buffer) : Part → Nat → Nat → Prop
  | .document,start,next => ∀ frames, Relation.ReflTransGen (Turns buffer) (.beginObj frames start)
        (.endObj (openFrame start false (intAt buffer.bytes start)) frames next)
  | .elements,start,next => ∀ curr below, curr.isCodeWithScope = false →
      ∃ machine, machineStep buffer (.withinObj curr below start) = .ok machine ∧
        Relation.ReflTransGen (Turns buffer) machine (.endObj curr below next)
  | .value type,start,next => ∀ curr below, curr.isCodeWithScope = false → next < buffer.maxLength →
        ∃ following after, validateValue buffer start type = .ok (following,after) ∧
          Relation.ReflTransGen (Turns buffer) (enter curr below after following)
            (.withinObj curr below next)

theorem laid_passed (small : buffer.maxLength < 2^31)
    (laid : Laid anyLengths buffer.bytes buffer.maxLength part start next) :
    start ≤ buffer.maxLength → Passed buffer part start next := by
  induction laid with
  | @document start next fits _ _ ih =>
    intro _ frames
    obtain ⟨machine,first,rest⟩ := ih fits (openFrame start false (intAt buffer.bytes start)) frames rfl
    rw [← beginObj_turn fits] at first
    exact .head ⟨rfl,first⟩ rest
  | @terminator start inside zero =>
    intro _ curr below _
    have passed : validateElementInfo buffer start = .ok (.endObj,start+1) :=
      (validateElementInfo_exact (by omega)).mpr ⟨inside,.inl ⟨zero,rfl,rfl⟩⟩
    exact ⟨_,withinObj_turn passed,.refl⟩
  | @element start type value next last inside present known named _ rest valuedIh restIh =>
    intro _ curr below plain
    have follows := elements_inside rest
    obtain ⟨following,after,valued,turns⟩ := valuedIh (named_grows named).2 curr below plain follows
    have passed : validateElementInfo buffer start = .ok (following,after) :=
      (validateElementInfo_exact (by omega)).mpr ⟨inside,.inr ⟨type,value,present,known,named,valued⟩⟩
    obtain ⟨machine,first,later⟩ := restIh (by omega) curr below plain
    exact ⟨_,withinObj_turn passed,turns.trans (.head ⟨rfl,first⟩ later)⟩
  | @flat type start next flat =>
    intro inside curr below _ follows
    have moved := (moved_exact small follows).mpr flat
    exact ⟨.withinObj,next,(validateValue_exact inside).mpr (.inl ⟨rfl,moved⟩),.refl⟩
  | @object type start next object document ih =>
    intro inside curr below plain follows
    have sized : (next : Int)-start = intAt buffer.bytes start := by
      cases document
      assumption
    have closes : machineStep buffer
        (.endObj (openFrame start false (intAt buffer.bytes start)) (curr :: below) next) =
          .ok (.withinObj curr below next) :=
      (endObj_exact small inside (laid_ends document)).mpr ⟨sized,by simp [closed,plain]⟩
    exact ⟨.beginObj,start,(validateValue_exact inside).mpr (.inr (.inl ⟨rfl,object,rfl⟩)),
      (ih inside (curr :: below)).tail ⟨rfl,closes⟩⟩
  | @code start scope next fits text document sized ih =>
    intro inside curr below plain follows
    have opens : machineStep buffer (.beginCodeWScope (curr :: below) start) =
        .ok (.beginObj (openFrame start true (intAt buffer.bytes start) :: curr :: below) scope) :=
      beginCodeWScope_turn fits ((textMoved_exact small).mpr text)
    have inner : (next : Int)-scope = intAt buffer.bytes scope := by
      cases document
      assumption
    have within := ih text.inside (openFrame start true (intAt buffer.bytes start) :: curr :: below)
    have scopeCloses : machineStep buffer
        (.endObj (openFrame scope false (intAt buffer.bytes scope))
          (openFrame start true (intAt buffer.bytes start) :: curr :: below) next) =
            .ok (.endCodeWScope (openFrame start true (intAt buffer.bytes start)) (curr :: below) next) :=
      (endObj_exact small text.inside (laid_ends document)).mpr ⟨inner,rfl⟩
    have closes : machineStep buffer
        (.endCodeWScope (openFrame start true (intAt buffer.bytes start)) (curr :: below) next) =
          .ok (.withinObj curr below next) :=
      (endCodeWScope_exact small inside (laid_ends document)).mpr ⟨sized,rfl⟩
    exact ⟨.beginCodeWScope,start,(validateValue_exact inside).mpr (.inr (.inr ⟨rfl,rfl,rfl⟩)),
      .head ⟨rfl,opens⟩ ((within.tail ⟨rfl,scopeCloses⟩).tail ⟨rfl,closes⟩)⟩

abbrev runs (buffer : Buffer) : Nat → Machine → Option (Except String Machine) :=
  run (machineStep buffer) finished

theorem beginObj_inverted (near : start ≤ buffer.maxLength+12)
    (accepted : runs buffer turns (.beginObj frames start) = some (.ok last)) :
    start+4 ≤ buffer.maxLength ∧ runs buffer turns
        (.withinObj (openFrame start false (intAt buffer.bytes start)) frames (start+4)) = some (.ok last) := by
  obtain ⟨left,machine,rfl,stepped,rest⟩ := run_inverted rfl accepted
  obtain ⟨fits,opened⟩ := beginObj_step near stepped
  exact ⟨fits,(run_turn ⟨rfl,opened⟩).trans rest⟩

theorem withinObj_inverted (stepped : machineStep buffer (.withinObj curr below start) = .ok machine) :
    ∃ next after, validateElementInfo buffer start = .ok (next,after) ∧ machine = enter curr below after next := by
  simp only [machineStep,withinObj] at stepped
  cases passed : validateElementInfo buffer start with
  | error message => simp [passed,bind,Except.bind] at stepped
  | ok found =>
    simp only [passed,bind,Except.bind,pure,Except.pure] at stepped
    cases stepped
    exact ⟨found.1,found.2,rfl,rfl⟩

-- A run that ends well went over the elements of its innermost object first, and
-- what is left of it is shorter.
def Elements (buffer : Buffer) (last : Machine) (turns : Nat) : Prop :=
  ∀ curr below start, curr.isCodeWithScope = false → start ≤ buffer.maxLength+12 →
    runs buffer turns (.withinObj curr below start) = some (.ok last) →
      ∃ next left, left < turns ∧ Laid anyLengths buffer.bytes buffer.maxLength .elements start next ∧
        runs buffer left (.endObj curr below next) = some (.ok last)

section
variable {buffer : Buffer} (small : buffer.maxLength < 2^31)
include small

section
variable (shorter : ∀ fewer, fewer ≤ turns → Elements buffer last fewer) (near : start ≤ buffer.maxLength+12)
include shorter near

theorem document_accepted (accepted : runs buffer turns (.beginObj frames start) = some (.ok last)) :
    ∃ next left, left < turns ∧ Laid anyLengths buffer.bytes buffer.maxLength .document start next ∧
      runs buffer left (closed frames next) = some (.ok last) := by
  obtain ⟨fits,entered⟩ := beginObj_inverted near accepted
  obtain ⟨next,left,fewer,elements,rest⟩ :=
    shorter turns (Nat.le_refl _) _ _ _ rfl (by omega) entered
  obtain ⟨remaining,machine,rfl,stepped,ended⟩ := run_inverted rfl rest
  obtain ⟨sized,rfl⟩ := (endObj_exact small (by omega) (laid_ends elements)).mp stepped
  exact ⟨next,remaining,by omega,.document fits sized elements,ended⟩

theorem code_accepted (accepted : runs buffer turns (.beginCodeWScope (frame :: frames) start) = some (.ok last)) :
    ∃ next left, left < turns ∧ Laid anyLengths buffer.bytes buffer.maxLength (.value .codeWScope) start next ∧
        runs buffer left (.withinObj frame frames next) = some (.ok last) := by
  obtain ⟨left,machine,rfl,stepped,rest⟩ := run_inverted rfl accepted
  obtain ⟨fits,scope,text,rfl⟩ := beginCodeWScope_step near stepped
  have inside := text.inside
  obtain ⟨next,remaining,fewer,document,after⟩ :=
    document_accepted small (fun fewer less => shorter fewer (by omega)) (by omega) rest
  obtain ⟨final,machine,rfl,closes,ended⟩ := run_inverted rfl after
  obtain ⟨sized,rfl⟩ := (endCodeWScope_exact small (by omega) (laid_ends document)).mp closes
  exact ⟨next,final,by omega,.code fits ((textMoved_exact small).mp text) document sized,ended⟩

end

theorem elements_accepted : Elements buffer last turns := by
  induction turns using Nat.strongRecOn with
  | ind turns ih =>
  intro curr below start plain near accepted
  obtain ⟨left,machine,rfl,stepped,rest⟩ := run_inverted rfl accepted
  obtain ⟨following,after,passed,rfl⟩ := withinObj_inverted stepped
  have shorter : ∀ fewer, fewer ≤ left → Elements buffer last fewer :=
    fun fewer less => ih fewer (by omega)
  obtain ⟨inside,⟨zero,rfl,rfl⟩ | ⟨type,value,present,known,named,valued⟩⟩ :=
    (validateElementInfo_exact near).mp passed
  · exact ⟨start+1,left,by omega,.terminator inside zero,rest⟩
  suffices laid : ∃ next fewer, fewer ≤ left ∧ next ≤ buffer.maxLength+12 ∧ (next < buffer.maxLength →
        Laid anyLengths buffer.bytes buffer.maxLength (.value type) value next) ∧
        runs buffer fewer (.withinObj curr below next) = some (.ok last) by
    obtain ⟨next,fewer,less,close,valueLaid,onward⟩ := laid
    obtain ⟨ended,remaining,lesser,elements,final⟩ := shorter fewer less curr below next plain close onward
    exact ⟨ended,remaining,by omega,
      .element inside present known named (valueLaid (elements_inside elements)) elements,final⟩
  have grown := named_grows named
  rcases (validateValue_exact grown.2).mp valued with
    ⟨rfl,moved⟩ | ⟨rfl,object,rfl⟩ | ⟨rfl,rfl,rfl⟩
  · exact ⟨after,left,Nat.le_refl _,moved_near grown.2 moved,
      fun follows => .flat ((moved_exact small follows).mp moved),rest⟩
  · obtain ⟨next,fewer,less,document,onward⟩ := document_accepted small shorter (by omega) rest
    have ends := laid_ends document
    simp only [closed,plain] at onward
    exact ⟨next,fewer,by omega,by omega,fun _ => .object object document,onward⟩
  · obtain ⟨next,fewer,less,laid,onward⟩ := code_accepted small shorter (by omega) rest
    have ends := laid_ends laid
    exact ⟨next,fewer,by omega,by omega,fun _ => laid,onward⟩

-- The machine ends well exactly on the buffers that start with a document when
-- stored lengths are taken as signed distances.
theorem machine_accepts : (∃ turns last, runs buffer turns (.beginObj [] 0) = some (.ok last)) ↔
      StartsLaid anyLengths buffer := by
  constructor
  · rintro ⟨turns,last,accepted⟩
    obtain ⟨next,_,_,document,_⟩ := document_accepted small
      (fun fewer _ => elements_accepted small) (Nat.zero_le _) accepted
    exact ⟨next,document⟩
  rintro ⟨next,document⟩
  have turns := laid_passed small document (Nat.zero_le _) []
  have sized : (next : Int)-(0 : Nat) = intAt buffer.bytes 0 := by
    cases document
    assumption
  have closes : machineStep buffer (.endObj (openFrame 0 false (intAt buffer.bytes 0)) [] next) = .ok .done :=
    (endObj_exact small (Nat.zero_le _) (laid_ends document)).mpr ⟨sized,rfl⟩
  obtain ⟨enough,ran⟩ := run_before (turns.tail ⟨rfl,closes⟩)
    (run_final rfl : runs buffer 1 .done = some (.ok .done))
  exact ⟨enough,.done,ran⟩

end

theorem step_view (validation : Validation) : (step buffer validation).toOption.map Validation.machine =
      (machineStep buffer validation.machine).toOption := by
  unfold step
  cases machineStep buffer validation.machine <;> rfl

theorem iterative_view (buffer : Buffer) (turns : Nat) :
    (validateBSONIterative buffer turns).map (fun result => result.toOption.map Validation.machine) =
      (runs buffer turns (.beginObj [] 0)).map Except.toOption :=
  run_view Validation.machine (fun _ => rfl) step_view turns _

theorem validateBSON_ok_run (large : 5 ≤ buffer.maxLength) : validateBSON buffer turns = some (.ok ()) ↔
      ∃ last, runs buffer turns (.beginObj [] 0) = some (.ok last) := by
  have same := iterative_view buffer turns
  unfold validateBSON
  rw [if_neg (by omega)]
  cases outer : validateBSONIterative buffer turns with
  | none =>
    cases inner : runs buffer turns (.beginObj [] 0) with
    | none => simp
    | some result => rw [outer,inner] at same; cases same
  | some found =>
    cases inner : runs buffer turns (.beginObj [] 0) with
    | none => rw [outer,inner] at same; cases same
    | some result =>
      rw [outer,inner] at same
      have agree := Option.some.inj same
      cases found <;> cases result <;> simp [Except.toOption,Except.map] at agree ⊢

theorem validateBSON_agrees (first : validateBSON buffer turns = some result)
    (second : validateBSON buffer others = some other) : result = other := by
  unfold validateBSON at first second
  split at first
  · rw [if_pos ‹_›] at second
    exact Option.some.inj (first.symm.trans second)
  rw [if_neg ‹_›] at second
  obtain ⟨outer,ran,rfl⟩ := Option.map_eq_some_iff.mp first
  obtain ⟨inner,ran',rfl⟩ := Option.map_eq_some_iff.mp second
  rw [run_agrees ran ran']

theorem validateBSON_laid (small : buffer.maxLength < 2^31) (returned : validateBSON buffer turns = some result) :
    result = .ok () ↔ StartsLaid anyLengths buffer := by
  by_cases large : 5 ≤ buffer.maxLength
  · rw [← machine_accepts small]
    constructor
    · rintro rfl
      exact ⟨turns,(validateBSON_ok_run large).mp returned⟩
    · rintro ⟨others,last,accepted⟩
      exact validateBSON_agrees returned ((validateBSON_ok_run large).mpr ⟨last,accepted⟩)
  have failed : result = .error .short := by
    unfold validateBSON at returned
    rw [if_pos (by omega)] at returned
    exact (Option.some.inj returned).symm
  rw [failed]
  constructor
  · intro impossible
    cases impossible
  rintro ⟨next,document⟩
  cases document with
  | document _ _ elements =>
    have inside := elements_inside elements
    omega

-- The verdict is right exactly when no string length is below 1 and no binary length below 0.
theorem validateBSON_ok_iff (buffer : Buffer) (small : buffer.maxLength < 2^31)
    (returned : validateBSON buffer turns = some result) :
    (result = .ok () ↔ StartsWellFormed buffer) ↔ (StartsLaid anyLengths buffer → StartsLaid properLengths buffer) := by
  rw [validateBSON_laid small returned,← startsLaid_wellFormed]
  constructor
  · intro exactly
    exact exactly.mp
  · intro proper
    exact ⟨proper,fun ⟨next,document⟩ => ⟨next,laid_any document⟩⟩

def oneString : Buffer where
  bytes place := [14,0,0,0,2,97,0,2,0,0,0,98,0,0].getD place 0
  maxLength := 14
  held := by decide

theorem validateBSON_ok_iff_string : ((.ok () : Except Failure Unit) = .ok () ↔ StartsWellFormed oneString) ↔
      (StartsLaid anyLengths oneString → StartsLaid properLengths oneString) :=
  validateBSON_ok_iff oneString (by decide)
    (by decide +kernel : validateBSON oneString 4 = some (.ok ()))

-- A string of length 0: the terminator that is looked at is the last byte of the length.
def zeroLength : Buffer where
  bytes place := [11,0,0,0,2,0,0,0,0,0,0].getD place 0
  maxLength := 11
  held := by decide

theorem zeroLength_accepted : validateBSON zeroLength 4 = some (.ok ()) ∧ ¬ StartsWellFormed zeroLength := by
  refine ⟨by decide +kernel,?_⟩
  rintro ⟨next,formed⟩
  cases formed with
  | document _ _ _ elements =>
    cases elements with
    | terminator _ zero => exact absurd zero (by decide)
    | element _ _ known named valued _ =>
      have empty : Named zeroLength.bytes 11 5 6 :=
        ⟨0,rfl,by decide,by decide,fun place after before => by omega⟩
      cases named_unique empty named
      cases known
      cases valued with
      | flat flat =>
        cases flat with
        | fixed sized => cases sized
        | text _ text =>
          have admitted : 1 ≤ intAt zeroLength.bytes 6 := text.admitted
          exact absurd admitted (by decide +kernel)
      | object object => cases object

end Mongo.BsonAccepts
