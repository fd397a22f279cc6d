import SipxExternals.MongoBsonElements

namespace Mongo.BsonProgress
open Foundations.Runs Mongo.BsonValidate

abbrev Turns (buffer : Buffer) : Validation → Validation → Prop :=
  Turn (step buffer) fun validation => finished validation.machine

def Reached (buffer : Buffer) (validation : Validation) : Prop :=
  Relation.ReflTransGen (Turns buffer) ⟨.beginObj [] 0,0,none⟩ validation

def elementPlace : Machine → Option Nat
  | .beginObj _ position => some (position+4)
  | .withinObj _ _ position => some position
  | _ => none

-- How far the stored length of a value takes the position from where the value starts.
def valueMove (bytes : Nat → UInt8) (start : Nat) : BsonType → Int
  | .code | .symbol | .string => 4+textMove bytes start
  | .dBRef => 4+textMove bytes start+12
  | .binData => 4+binaryMove bytes start
  | _ => 0

-- The stored lengths a turn reads do not take it back to where it began.
def ElementForward (buffer : Buffer) (position : Nat) : Prop :=
  ∀ type value, bsonType (buffer.bytes position) = some type → Named buffer.bytes buffer.maxLength (position+1) value →
      (position : Int) < value+valueMove buffer.bytes value type

def Forward (buffer : Buffer) : Machine → Prop
  | .beginObj _ position => ElementForward buffer (position+4)
  | .withinObj _ _ position => ElementForward buffer position
  | .beginCodeWScope _ position => 0 < 8+textMove buffer.bytes (position+4)
  | _ => True

theorem moved_reaches (moved : Moved buffer type start next) : start+valueMove buffer.bytes start type ≤ next := by
  cases moved with
  | fixed sized _ =>
    have still : valueMove buffer.bytes start type = 0 := by
      cases type <;> first | rfl | cases sized
    omega
  | text known text =>
    have moves : valueMove buffer.bytes start type = 4+textMove buffer.bytes start := by
      cases type <;> first | rfl | cases known
    have reached := text.moved
    omega
  | reference text =>
    have reached := text.moved
    simp only [valueMove]
    omega
  | regex pattern flags =>
    have first := named_grows pattern
    have second := named_grows flags
    simp only [valueMove]
    omega
  | binary _ reached _ =>
    simp only [valueMove]
    omega

section
variable (near : position ≤ buffer.maxLength+12) (forward : ElementForward buffer position)
include near forward

theorem element_forward (passed : validateElementInfo buffer position = .ok (next,after)) :
    position < after ∧ after ≤ buffer.maxLength+12 := by
  obtain ⟨inside,ended | ⟨type,value,_,known,named,valued⟩⟩ := (validateElementInfo_exact near).mp passed
  · omega
  have grown := named_grows named
  rcases (validateValue_exact grown.2).mp valued with ⟨_,moved⟩ | ⟨_,_,rfl⟩ | ⟨_,_,rfl⟩
  · have reached := moved_reaches moved
    have held := moved_near grown.2 moved
    have onward := forward type value known named
    omega
  · omega
  · omega

def place : Machine → Nat
  | .beginObj _ position | .withinObj _ _ position | .endObj _ _ position
  | .beginCodeWScope _ position | .endCodeWScope _ _ position => position
  | .done => 0

def closing : Machine → Nat
  | .endObj .. => 2
  | .endCodeWScope .. => 1
  | _ => 0

theorem withinObj_turn (turned : withinObj buffer curr below position = .ok machine) :
    machine ≠ .done ∧ position < place machine ∧ place machine ≤ buffer.maxLength+12 := by
  unfold withinObj at turned
  cases passed : validateElementInfo buffer position with
  | error message => simp [passed,bind,Except.bind] at turned
  | ok found =>
    obtain ⟨next,after⟩ := found
    have onward := element_forward near forward passed
    simp only [passed,bind,Except.bind] at turned
    cases next <;> cases turned <;> exact ⟨nofun,onward⟩

end

theorem machineStep_turn (near : place machine ≤ buffer.maxLength+12)
    (forward : Forward buffer machine) (going : finished machine = false)
    (turned : machineStep buffer machine = .ok next) :
    next = .done ∨ (place next ≤ buffer.maxLength+12 ∧
      ((place machine < place next ∧ ∀ start, elementPlace machine = some start → start < place next) ∨
        (place next = place machine ∧ closing next < closing machine ∧ elementPlace machine = none))) := by
  cases machine with
  | beginObj frames position =>
    obtain ⟨sized,opened⟩ := beginObj_step (show position ≤ _ from near) turned
    obtain ⟨_,onward,held⟩ := withinObj_turn (by omega) forward opened
    have moved : position < place next := by omega
    refine .inr ⟨held,.inl ⟨moved,?_⟩⟩
    intro start known
    cases known
    exact onward
  | withinObj curr below position =>
    obtain ⟨_,onward,within⟩ := withinObj_turn near forward turned
    refine .inr ⟨within,.inl ⟨onward,?_⟩⟩
    intro start known
    cases known
    exact onward
  | endObj curr below position =>
    simp only [machineStep] at turned
    split at turned
    · cases turned
    cases below with
    | nil =>
      cases turned
      exact .inl rfl
    | cons frame frames =>
      dsimp only at turned
      split at turned <;> cases turned <;>
        exact .inr ⟨near,.inr ⟨rfl,by simp [closing],rfl⟩⟩
  | beginCodeWScope frames position =>
    obtain ⟨sized,scope,text,rfl⟩ := beginCodeWScope_step near turned
    have reached := text.moved
    have held := text.inside
    simp only [Forward,place,elementPlace] at *
    refine .inr ⟨by omega,.inl ⟨by omega,?_⟩⟩
    intro start known
    cases known
  | endCodeWScope curr below position =>
    simp only [machineStep] at turned
    split at turned
    · cases turned
    cases below with
    | nil => cases turned
    | cons frame frames =>
      cases turned
      exact .inr ⟨near,.inr ⟨rfl,by simp [closing],rfl⟩⟩
  | done => cases going

theorem step_machine (turned : step buffer validation = .ok next) :
    machineStep buffer validation.machine = .ok next.machine := by
  unfold step at turned
  cases stepped : machineStep buffer validation.machine with
  | error message => simp [stepped] at turned
  | ok machine =>
    simp only [stepped] at turned
    cases turned
    rfl

section
variable {buffer : Buffer}

theorem turn_open (turn : Turns buffer validation next) : validation.machine ≠ .done := by
  intro ended
  have going : finished validation.machine = false := turn.1
  rw [ended] at going
  cases going

section
variable (forward : ∀ validation, Reached buffer validation → Forward buffer validation.machine)
include forward

theorem reached_near (reached : Reached buffer validation) : place validation.machine ≤ buffer.maxLength+12 := by
  induction reached with
  | refl => exact Nat.zero_le _
  | tail before turn ih =>
    rcases machineStep_turn ih (forward _ before) turn.1 (step_machine turn.2) with ended | ⟨near,_⟩
    · rw [ended]
      exact Nat.zero_le _
    · exact near

theorem turn_place (reached : Reached buffer validation) (turn : Turns buffer validation next) :
    next.machine = .done ∨ (place next.machine ≤ buffer.maxLength+12 ∧ ((place validation.machine < place next.machine ∧
          ∀ start, elementPlace validation.machine = some start → start < place next.machine) ∨
        (place next.machine = place validation.machine ∧ closing next.machine < closing validation.machine ∧
            elementPlace validation.machine = none))) :=
  machineStep_turn (reached_near forward reached) (forward _ reached) turn.1 (step_machine turn.2)

theorem turns_place (reached : Reached buffer first) (turns : Relation.ReflTransGen (Turns buffer) first last)
    (going : last.machine ≠ .done) : place first.machine ≤ place last.machine := by
  induction turns with
  | refl => exact Nat.le_refl _
  | @tail middle last before turn ih =>
    have earlier := ih (turn_open turn)
    rcases turn_place forward (reached.trans before) turn with ended | ⟨_,onward | still⟩
    · exact absurd ended going
    · exact Nat.le_trans earlier (Nat.le_of_lt onward.1)
    · omega

end

-- Each turn either moves on or closes a frame; the measure counts both.
def left (buffer : Buffer) (validation : Validation) : Nat :=
  match validation.machine with
  | .done => 0
  | machine => 3 * (buffer.maxLength+13-place machine)+closing machine

theorem left_lowers (forward : ∀ validation, Reached buffer validation → Forward buffer validation.machine)
    (reached : Reached buffer validation) (turn : Turns buffer validation next) :
    left buffer next < left buffer validation := by
  have near := reached_near forward reached
  have small : ∀ machine, closing machine ≤ 2 := by
    intro machine
    cases machine <;> simp [closing]
  have going : ∀ validation : Validation, validation.machine ≠ .done → left buffer validation =
        3 * (buffer.maxLength+13-place validation.machine)+closing validation.machine := by
    intro validation open_
    unfold left
    cases known : validation.machine <;> first | rfl | exact absurd known open_
  have first := going validation (turn_open turn)
  have upper := small next.machine
  by_cases ended : next.machine = .done
  · have last : left buffer next = 0 := by
      unfold left
      rw [ended]
    omega
  have last := going next ended
  rcases turn_place forward reached turn with closed | ⟨within,onward | still⟩
  · exact absurd closed ended
  · omega
  · omega

end

-- No stored length takes a turn back to where it began.
theorem validateBSON_returns (buffer : Buffer)
    (forward : ∀ validation, Reached buffer validation → Forward buffer validation.machine) :
    (∃ turns result, validateBSON buffer turns = some result) ∧
      ∀ first last, Reached buffer first → Relation.TransGen (Turns buffer) first last →
        ∀ start later, elementPlace first.machine = some start →
          elementPlace last.machine = some later → start < later := by
  constructor
  · obtain ⟨result,returned⟩ := run_returns fun _ _ reached turn => left_lowers forward reached turn
    refine ⟨left buffer ⟨.beginObj [] 0,0,none⟩+1,
      if buffer.maxLength < 5 then .error .short else result.map fun _ => (),?_⟩
    unfold validateBSON validateBSONIterative
    split
    · rfl
    · rw [returned]
      rfl
  intro first last reached turns start later known known'
  obtain ⟨middle,turn,rest⟩ := Relation.TransGen.head'_iff.mp turns
  have going : last.machine ≠ .done := by
    intro ended
    rw [ended] at known'
    cases known'
  have following : Reached buffer middle := reached.tail turn
  have mono := turns_place forward following rest going
  have least : place last.machine ≤ later := by
    cases shape : last.machine <;> rw [shape] at known' <;> cases known' <;> simp [place]
  rcases turn_place forward reached turn with ended | ⟨_,onward | still⟩
  · cases rest using Relation.ReflTransGen.head_induction_on with
    | refl => exact absurd ended going
    | head turn _ => exact absurd ended (turn_open turn)
  · have beyond := onward.2 start known
    omega
  · rw [still.2.2] at known
    cases known

def emptyString : Buffer where
  bytes place := [12,0,0,0,2,0,1,0,0,0,0,0].getD place 0
  maxLength := 12
  held := by decide

theorem emptyString_forward (reached : Reached emptyString validation) : Forward emptyString validation.machine := by
  have passed : validation = ⟨.beginObj [] 0,0,none⟩ ∨ validation = ⟨.withinObj ⟨0,false,12⟩ [] 11,0,none⟩ ∨
        validation = ⟨.endObj ⟨0,false,12⟩ [] 12,0,none⟩ ∨ validation = ⟨.done,0,none⟩ := by
    induction reached with
    | refl => exact .inl rfl
    | tail _ turn ih =>
      have stepped := turn.2
      rcases ih with rfl | rfl | rfl | rfl
      · rw [show step emptyString ⟨.beginObj [] 0,0,none⟩ =
          .ok ⟨.withinObj ⟨0,false,12⟩ [] 11,0,none⟩ by decide +kernel] at stepped
        cases stepped
        exact .inr (.inl rfl)
      · rw [show step emptyString ⟨.withinObj ⟨0,false,12⟩ [] 11,0,none⟩ =
          .ok ⟨.endObj ⟨0,false,12⟩ [] 12,0,none⟩ by decide +kernel] at stepped
        cases stepped
        exact .inr (.inr (.inl rfl))
      · rw [show step emptyString ⟨.endObj ⟨0,false,12⟩ [] 12,0,none⟩ = .ok ⟨.done,0,none⟩ by decide +kernel] at stepped
        cases stepped
        exact .inr (.inr (.inr rfl))
      · exact absurd rfl (turn_open turn)
  rcases passed with rfl | rfl | rfl | rfl
  · intro type value known named
    have empty : Named emptyString.bytes 12 5 6 :=
      ⟨0,rfl,by decide,by decide,fun place after before => by omega⟩
    cases named_unique empty named
    cases known
    decide +kernel
  · intro type value known
    cases known
  · trivial
  · trivial

theorem validateBSON_returns_string : ∃ turns result, validateBSON emptyString turns = some result :=
  (validateBSON_returns emptyString fun _ reached => emptyString_forward reached).1

-- A string of length -6 takes the position from its end back to its own type byte.
def backwards : Buffer where
  bytes place := [10,0,0,0,2,0,250,255,255,255].getD place 0
  maxLength := 10
  held := by decide

theorem validateBSON_loops : (∀ turns, validateBSON backwards turns = none) ∧
    Relation.TransGen (Turns backwards) ⟨.withinObj ⟨0,false,10⟩ [] 4,0,none⟩
      ⟨.withinObj ⟨0,false,10⟩ [] 4,0,none⟩ := by
  have enters : step backwards ⟨.beginObj [] 0,0,none⟩ = .ok ⟨.withinObj ⟨0,false,10⟩ [] 4,0,none⟩ := by
    decide +kernel
  have again : step backwards ⟨.withinObj ⟨0,false,10⟩ [] 4,0,none⟩ = .ok ⟨.withinObj ⟨0,false,10⟩ [] 4,0,none⟩ := by
    decide +kernel
  have endless : ∀ turns, run (step backwards) (fun validation => finished validation.machine) turns
      ⟨.withinObj ⟨0,false,10⟩ [] 4,0,none⟩ = none := by
    intro turns
    induction turns with
    | zero => rfl
    | succ turns ih => rw [run_turn ⟨rfl,again⟩,ih]
  refine ⟨?_,.single ⟨rfl,again⟩⟩
  intro turns
  unfold validateBSON validateBSONIterative
  rw [if_neg (by decide)]
  cases turns with
  | zero => rfl
  | succ turns =>
    rw [run_turn ⟨rfl,enters⟩,endless]
    rfl

end Mongo.BsonProgress
