import SipxExternals.FoundationsOdometer

namespace Cfengine.Iteration

def cfNullValue : String := "cf_null"

def cfNullCutoff : Nat := 5

-- A list variable to iterate over: its padded list, and what that has from state_ptr on,
-- nothing for NULL.
structure Wheel where
  rval : List String
  state : List String

def orthogAppendRlist (list : List String) : Wheel :=
  ⟨cfNullValue :: (list++[cfNullValue]),if list = [] then [] else list++[cfNullValue]⟩

def newIterationContext (lists : List (List String)) : List Wheel := lists.map orthogAppendRlist

def endOfIteration (iterator : List Wheel) : Bool := iterator.all fun wheel => decide (wheel.state.length ≤ 1)

def nullIterators (iterator : List Wheel) : Bool := iterator.any fun wheel => wheel.state.head? == some cfNullValue

def Wheel.reset (wheel : Wheel) : Wheel := { wheel with state := wheel.rval.tail }

def incrementIterationContext : List Wheel → Bool × List Wheel
  | [] => (false,[])
  | wheel :: next =>
    match wheel.state with
    | [] => (false,wheel :: next)
    | [_] =>
      match incrementIterationContext next with
      | (true,later) => (true,wheel.reset :: later)
      | (false,later) => (false,wheel :: later)
    | _ :: item :: rest =>
      let moved : Wheel := { wheel with state := item :: rest }
      if item = cfNullValue then
        match incrementIterationContext next with
        | (true,later) => (true,wheel.reset :: later)
        | (false,later) => (!endOfIteration (moved :: later),moved :: later)
      else (!endOfIteration (moved :: next),moved :: next)

def skipNulls : Nat → List Wheel → List Wheel
  | 0,iterator => iterator
  | turns+1,iterator =>
    if nullIterators iterator then skipNulls turns (incrementIterationContext iterator).2 else iterator

-- The values that the variables have in scope "this"; no state gives no value.
def values (iterator : List Wheel) : List String := iterator.filterMap fun wheel => wheel.state.head?

-- The values for every run of the body, and none where the fuel is out.
def bodies : Nat → List Wheel → Option (List (List String))
  | 0,_ => none
  | fuel+1,iterator =>
    match incrementIterationContext iterator with
    | (true,later) => (bodies fuel later).map (values iterator :: ·)
    | (false,_) => some [values iterator]

def settings (iterator : List Wheel) : Nat := iterator.foldr (fun wheel n => n*wheel.rval.length) 1

def expandPromiseAndDo (lists : List (List String)) : Option (List (List String)) :=
  let lol := newIterationContext lists
  if lol ≠ [] ∧ endOfIteration lol = true then some []
  else
    -- the cutoff is compared before it is counted up
    let skipped := skipNulls (cfNullCutoff+2) lol
    if skipped ≠ [] ∧ endOfIteration skipped = true then some [] else bodies (settings lol) skipped

open Foundations.Odometer List

def isNull (item : String) : Bool := item == cfNullValue

def block : List String → List String
  | [] => []
  | item :: rest => item :: rest.takeWhile (!isNull ·)

def behind : List String → List String
  | [] => []
  | _ :: rest => rest.dropWhile (!isNull ·)

-- What the iteration comes to: behind the first blank of a wheel it goes on only when the
-- others are at their ends.
def enumerated : List (List String) → List (List String)
  | [] => [[]]
  | list :: rest => spread (block list) (enumerated rest)++(behind list).map (· :: rest.map fun _ => cfNullValue)

inductive Runs : List Wheel → List (List String) → List Wheel → Prop where
  | last (stop : incrementIterationContext wheels = (false,final)) : Runs wheels [values wheels] final
  | more (turn : incrementIterationContext wheels = (true,later)) (opened : endOfIteration later = false)
      (rest : Runs later combinations final) : Runs wheels (values wheels :: combinations) final

def Ended (wheels : List Wheel) : Prop := ∀ wheel ∈ wheels, wheel.state = [cfNullValue]

section
variable {rval list rest : List String} {next later final more : List Wheel}

theorem values_cons (rval rest : List String) (next : List Wheel) :
    values (⟨rval,item :: rest⟩ :: next) = item :: values next := rfl

theorem ended_end (ended : Ended wheels) : endOfIteration wheels = true := by
  refine all_eq_true.mpr ?_
  intro wheel mem
  simp [ended wheel mem]

theorem ended_stops (ended : Ended wheels) : incrementIterationContext wheels = (false,wheels) := by
  induction wheels with
  | nil => rfl
  | cons wheel next ih =>
    obtain ⟨here,rest⟩ := forall_mem_cons.mp ended
    rw [incrementIterationContext,here]
    simp [ih rest]

theorem opened_long (rval : List String) (item : String) (rest : List String) (next : List Wheel) :
    endOfIteration (⟨rval,item :: (rest++[cfNullValue])⟩ :: next) = false := by
  simp [endOfIteration]

theorem move_plain (rval rest : List String) (next : List Wheel) (plain : item ≠ cfNullValue) :
    incrementIterationContext (⟨rval,first :: item :: (rest++[cfNullValue])⟩ :: next) =
      (true,⟨rval,item :: (rest++[cfNullValue])⟩ :: next) := by
  rw [incrementIterationContext]
  simp [if_neg plain,opened_long]

theorem move_turned (rval rest : List String) (turn : incrementIterationContext next = (true,later)) :
    incrementIterationContext (⟨rval,first :: cfNullValue :: rest⟩ :: next) = (true,⟨rval,rval.tail⟩ :: later) := by
  rw [incrementIterationContext]
  simp only [if_true,turn]
  rfl

theorem move_stuck (rval rest : List String) (stop : incrementIterationContext next = (false,later)) :
    incrementIterationContext (⟨rval,first :: cfNullValue :: rest⟩ :: next) =
      (!endOfIteration (⟨rval,cfNullValue :: rest⟩ :: later),⟨rval,cfNullValue :: rest⟩ :: later) := by
  rw [incrementIterationContext]
  simp [stop]

theorem stuck_last (rval : List String) (stop : incrementIterationContext next = (false,later)) (ended : Ended later) :
    incrementIterationContext (⟨rval,[first,cfNullValue]⟩ :: next) = (false,⟨rval,[cfNullValue]⟩ :: later) := by
  rw [move_stuck rval [] stop,ended_end]
  · rfl
  · exact forall_mem_cons.mpr ⟨rfl,ended⟩

theorem walk_runs (rval : List String) (first : String) (list : List String) (ended : Ended next) :
    Runs (⟨rval,first :: (list++[cfNullValue])⟩ :: next) ((first :: list).map (· :: values next))
      (⟨rval,[cfNullValue]⟩ :: next) := by
  induction list generalizing first with
  | nil => exact .last (stuck_last rval (ended_stops ended) ended)
  | cons item list ih =>
    refine .more ?_ (opened_long rval item list next) (ih item)
    by_cases blank : item = cfNullValue
    · subst blank
      rw [cons_append,move_stuck rval _ (ended_stops ended),opened_long]
      rfl
    · exact move_plain rval list next blank

theorem block_stop (rval : List String) (first : String) (list : List String)
    (stop : incrementIterationContext next = (false,later)) (ended : Ended later) :
    Runs (⟨rval,first :: (list++[cfNullValue])⟩ :: next)
      ((block (first :: list)).map (· :: values next)++(behind (first :: list)).map (· :: values later))
      (⟨rval,[cfNullValue]⟩ :: later) := by
  induction list generalizing first with
  | nil => exact .last (stuck_last rval stop ended)
  | cons item list ih =>
    by_cases blank : item = cfNullValue
    · subst blank
      refine .more ?_ (opened_long rval cfNullValue list later) (walk_runs rval cfNullValue list ended)
      rw [cons_append,move_stuck rval _ stop,opened_long]
      rfl
    have rest := ih item
    have plain : isNull item = false := by simpa [isNull] using blank
    simp only [block,behind,takeWhile_cons,dropWhile_cons,plain,Bool.not_false,if_true] at rest ⊢
    exact .more (move_plain rval list next blank) (opened_long rval item list next) rest

theorem block_more (rval : List String) (first : String) (list : List String)
    (turn : incrementIterationContext next = (true,later)) (opened : endOfIteration (⟨rval,rval.tail⟩ :: later) = false)
    (rest : Runs (⟨rval,rval.tail⟩ :: later) combinations final) :
    Runs (⟨rval,first :: (list++[cfNullValue])⟩ :: next)
      ((block (first :: list)).map (· :: values next)++combinations) final := by
  induction list generalizing first with
  | nil => exact .more (move_turned rval [] turn) opened rest
  | cons item list ih =>
    by_cases blank : item = cfNullValue
    · subst blank
      exact .more (move_turned rval _ turn) opened rest
    have rest := ih item
    have plain : isNull item = false := by simpa [isNull] using blank
    simp only [block,takeWhile_cons,plain,Bool.not_false,if_true] at rest ⊢
    exact .more (move_plain rval list next blank) (opened_long rval item list next) rest

theorem wheel_runs (filled : list ≠ []) (runs : Runs next combinations final) (ended : Ended final) :
    Runs (orthogAppendRlist list :: next)
      (spread (block list) combinations++(behind list).map (· :: values final))
      (⟨cfNullValue :: (list++[cfNullValue]),[cfNullValue]⟩ :: final) := by
  obtain ⟨first,rest,rfl⟩ := exists_cons_of_ne_nil filled
  induction runs with
  | last stop =>
    rw [spread_cons,show spread (block (first :: rest)) [] = [] from rfl,append_nil]
    exact block_stop _ first rest stop ended
  | more turn opened _ ih =>
    rw [spread_cons,append_assoc]
    exact block_more _ first rest turn (opened_long _ first rest _) (ih ended)

theorem context_runs (filled : ∀ list ∈ lists, list ≠ []) :
    ∃ final, Runs (newIterationContext lists) (enumerated lists) final ∧ Ended final ∧
      values final = lists.map fun _ => cfNullValue := by
  induction lists with
  | nil => exact ⟨[],.last rfl,by simp [Ended],rfl⟩
  | cons list rest ih =>
    obtain ⟨here,others⟩ := forall_mem_cons.mp filled
    obtain ⟨final,runs,ended,blanks⟩ := ih others
    refine ⟨⟨cfNullValue :: (list++[cfNullValue]),[cfNullValue]⟩ :: final,?_,forall_mem_cons.mpr ⟨rfl,ended⟩,?_⟩
    · rw [enumerated,← blanks]
      exact wheel_runs here runs ended
    · rw [values_cons,blanks]
      rfl

end

section
variable {wheels final : List Wheel}

theorem bodies_runs (runs : Runs wheels combinations final) (enough : combinations.length ≤ fuel) :
    bodies fuel wheels = some combinations := by
  induction runs generalizing fuel with
  | last stop =>
    cases fuel with
    | zero => simp at enough
    | succ fuel => rw [bodies,stop]
  | more turn _ _ ih =>
    cases fuel with
    | zero => simp at enough
    | succ fuel =>
      rw [bodies,turn]
      simp [ih (Nat.le_of_succ_le_succ enough)]

theorem nullIterators_values (wheels : List Wheel) : nullIterators wheels = Blank isNull (values wheels) := by
  induction wheels with
  | nil => rfl
  | cons wheel wheels ih =>
    rcases wheel with ⟨rval,state⟩
    cases state with
    | nil => exact ih
    | cons item rest =>
      rw [values_cons]
      unfold nullIterators Blank at ih ⊢
      rw [any_cons,any_cons,ih]
      rfl

theorem skip_ended (ended : Ended final) : skipNulls turns final = final := by
  induction turns with
  | zero => rfl
  | succ turns ih =>
    rw [skipNulls,ended_stops ended,ih]
    exact ite_self _

theorem skip_runs (runs : Runs wheels combinations final) (ended : Ended final) (opened : endOfIteration wheels = false)
    (turns : Nat) :
    (endOfIteration (skipNulls turns wheels) = false ∧
      Runs (skipNulls turns wheels) (dropAtMost (Blank isNull) turns combinations) final) ∨
    (skipNulls turns wheels = final ∧ dropAtMost (Blank isNull) turns combinations = []) := by
  induction runs generalizing turns with
  | @last wheels final stop =>
    cases turns with
    | zero => exact .inl ⟨opened,.last stop⟩
    | succ turns =>
      rw [skipNulls,dropAtMost,nullIterators_values]
      cases blank : Blank isNull (values wheels) with
      | false => exact .inl ⟨opened,.last stop⟩
      | true =>
        rw [if_pos rfl,if_pos rfl,stop]
        refine .inr ⟨skip_ended ended,?_⟩
        cases turns <;> rfl
  | @more wheels later combinations final turn opening rest ih =>
    cases turns with
    | zero => exact .inl ⟨opened,.more turn opening rest⟩
    | succ turns =>
      rw [skipNulls,dropAtMost,nullIterators_values]
      cases blank : Blank isNull (values wheels) with
      | false => exact .inl ⟨opened,.more turn opening rest⟩
      | true =>
        rw [if_pos rfl,if_pos rfl,turn]
        exact ih ended opening turns

theorem enumerated_length (filled : ∀ list ∈ lists, list ≠ []) :
    0 < (enumerated lists).length ∧ (enumerated lists).length ≤ settings (newIterationContext lists) := by
  induction lists with
  | nil => exact ⟨Nat.one_pos,Nat.le_refl _⟩
  | cons list rest ih =>
    obtain ⟨here,others⟩ := forall_mem_cons.mp filled
    obtain ⟨positive,bound⟩ := ih others
    obtain ⟨first,items,rfl⟩ := exists_cons_of_ne_nil here
    have parts : (items.takeWhile (!isNull ·)).length+(items.dropWhile (!isNull ·)).length = items.length := by
      rw [← length_append,takeWhile_append_dropWhile]
    have length : (enumerated ((first :: items) :: rest)).length =
        (enumerated rest).length*((items.takeWhile (!isNull ·)).length+1)+(items.dropWhile (!isNull ·)).length := by
      rw [enumerated,length_append,spread_length,length_map]
      rfl
    have total : settings (newIterationContext ((first :: items) :: rest)) =
        settings (newIterationContext rest)*(items.length+3) := by
      simp [settings,newIterationContext,orthogAppendRlist]
    rw [length,total]
    constructor
    · exact Nat.lt_of_lt_of_le (Nat.mul_pos positive (Nat.succ_pos _)) (Nat.le_add_right _ _)
    have room : (items.dropWhile (!isNull ·)).length ≤ (enumerated rest).length*(items.dropWhile (!isNull ·)).length :=
      Nat.le_mul_of_pos_left _ positive
    calc (enumerated rest).length*((items.takeWhile (!isNull ·)).length+1)+(items.dropWhile (!isNull ·)).length
        ≤ (enumerated rest).length*(items.length+1) := by
          rw [← parts,Nat.mul_add,Nat.mul_add,Nat.mul_add]
          omega
      _ ≤ settings (newIterationContext rest)*(items.length+3) := Nat.mul_le_mul bound (by omega)

theorem expand_enumerated (nonempty : lists ≠ []) (filled : ∀ list ∈ lists, list ≠ []) :
    expandPromiseAndDo lists = some (dropAtMost (Blank isNull) 7 (enumerated lists)) := by
  obtain ⟨final,runs,ended,blanks⟩ := context_runs filled
  obtain ⟨_,enough⟩ := enumerated_length filled
  have opened : endOfIteration (newIterationContext lists) = false := by
    obtain ⟨list,rest,rfl⟩ := exists_cons_of_ne_nil nonempty
    obtain ⟨first,items,rfl⟩ := exists_cons_of_ne_nil (filled list (.head _ ..))
    exact opened_long _ first items _
  unfold expandPromiseAndDo
  rw [show cfNullCutoff+2 = 7 from rfl]
  simp only [opened,Bool.false_eq_true,and_false,if_false]
  rcases skip_runs runs ended opened 7 with ⟨still,rest⟩ | ⟨through,none⟩
  · obtain ⟨front,same,_⟩ := dropAtMost_front (Blank isNull) 7 (enumerated lists)
    have shorter := congrArg length same
    rw [length_append] at shorter
    rw [if_neg (by simp [still])]
    exact bodies_runs rest (by omega)
  · have filled : final ≠ [] := by
      rintro rfl
      exact nonempty (map_eq_nil_iff.mp blanks.symm)
    rw [through,if_pos ⟨filled,ended_end ended⟩,none]

end

end Cfengine.Iteration
