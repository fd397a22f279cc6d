import SipxExternals.FoundationsFieldOrder

namespace Mongo.IndexScan
open Foundations.Segments Foundations.FieldOrder
variable {α : Type}

inductive Location where
  | behind
  | within
  | ahead
  deriving DecidableEq

def sgn (i : Int) : Int := if i = 0 then 0 else if i > 0 then 1 else -1

structure Interval (α : Type) where
  start : α
  startInclusive : Bool
  ending : α
  endInclusive : Bool

structure OrderedIntervalList (α : Type) where
  intervals : List (Interval α)
  name : String

structure PatternElement where
  fieldName : String
  ascending : Bool

def PatternElement.indexDirection (element : PatternElement) : Int := if element.ascending then 1 else -1

-- The comparison of two elements without their field names is a parameter of everything below.
section
variable (woCompare : α → α → Int)

def intervalCmp (interval : Interval α) (key : α) (expectedDirection : Int) : Location :=
  let cmp := sgn (woCompare key interval.start)
  if !(cmp = expectedDirection || (cmp = 0 && interval.startInclusive)) then .behind
  else
    let cmp := sgn (woCompare key interval.ending)
    if !(cmp = -expectedDirection || (cmp = 0 && interval.endInclusive)) then .ahead else .within

def intervalOriented (expectedOrientation : Int) (interval : Interval α) : Bool :=
  let cmp := sgn (woCompare interval.ending interval.start)
  (cmp = 0 && interval.startInclusive && interval.endInclusive) || cmp = expectedOrientation

def neighborsOriented (expectedOrientation : Int) : List (Interval α) → Bool
  | first :: second :: rest =>
    let cmp := sgn (woCompare second.start first.ending)
    (cmp = 0 || cmp = expectedOrientation) && neighborsOriented expectedOrientation (second :: rest)
  | _ => true

def OrderedIntervalList.isValidFor (oil : OrderedIntervalList α) (expectedOrientation : Int) : Bool :=
  oil.intervals.all (intervalOriented woCompare expectedOrientation) &&
  neighborsOriented woCompare expectedOrientation oil.intervals

structure IndexBounds (α : Type) where
  fields : List (OrderedIntervalList α)
  isSimpleRange : Bool
  startKey : List α
  endKey : List α

-- BSONObj::woCompare along a key pattern; a field without a pattern element is ascending.
def objCompare : List PatternElement → List α → List α → Int
  | _,[],[] => 0
  | _,[],_ :: _ => -1
  | _,_ :: _,[] => 1
  | pattern,l :: left,r :: right =>
    let x := woCompare l r
    let x := if (pattern.head?.map (·.ascending)).getD true then x else -x
    if x ≠ 0 then x else objCompare pattern.tail left right

def fieldsValidFor (direction : Int) : List (OrderedIntervalList α) → List PatternElement → Bool
  | [],pattern => pattern.isEmpty
  | _ :: _,[] => false
  | field :: fields,element :: pattern =>
    field.name = element.fieldName && field.isValidFor woCompare (direction*element.indexDirection) &&
    fieldsValidFor direction fields pattern

def IndexBounds.isValidFor (bounds : IndexBounds α) (keyPattern : List PatternElement) (direction : Int) : Bool :=
  if bounds.isSimpleRange then direction = sgn (objCompare woCompare keyPattern bounds.endKey bounds.startKey)
  else fieldsValidFor woCompare direction bounds.fields keyPattern

structure FieldState (α : Type) where
  oil : OrderedIntervalList α
  expectedDirection : Int
  curInterval : Nat

def indexBoundsChecker (bounds : IndexBounds α) (keyPattern : List PatternElement) (scanDirection : Int) :
    List (FieldState α) :=
  List.zipWith (fun oil element => ⟨oil,element.indexDirection*scanDirection,0⟩) bounds.fields keyPattern

def getStartKey : List (FieldState α) → Option (List (α × Bool))
  | [] => some []
  | field :: fields =>
    match field.oil.intervals[0]? with
    | none => none
    | some interval => (getStartKey fields).map ((interval.start,interval.startInclusive) :: ·)

-- A read outside a vector or a failing verify is none here and below.
def findLeftmostProblem : List (FieldState α) → List α → Option (Option (Nat × Location))
  | [],_ => some none
  | _ :: _,[] => none
  | field :: fields,value :: keyValues =>
    match field.oil.intervals[field.curInterval]? with
    | none => none
    | some currentInterval =>
      match intervalCmp woCompare currentInterval value field.expectedDirection with
      | .within => (findLeftmostProblem fields keyValues).map (·.map fun problem => (problem.1+1,problem.2))
      | cmp => some (some (0,cmp))

def spaceLeftToAdvance : List (FieldState α) → List α → Option Bool
  | [],_ => some false
  | _ :: _,[] => none
  | field :: fields,value :: keyValues =>
    if field.curInterval ≠ field.oil.intervals.length-1 then some true
    else
      match field.oil.intervals[field.curInterval]? with
      | none => none
      | some ival =>
        if !ival.endInclusive then some true
        else if -field.expectedDirection = sgn (woCompare value ival.ending) then some true
        else spaceLeftToAdvance fields keyValues

-- std::lower_bound over the intervals; the index is none when the key is ahead of all of them.
def findIntervalForField (elt : α) (oil : OrderedIntervalList α) (expectedDirection : Int) :
    Option (Location × Option Nat) :=
  let i := bisect (fun interval => intervalCmp woCompare interval elt expectedDirection = .ahead) oil.intervals
    oil.intervals.length oil.intervals.length 0
  match oil.intervals[i]? with
  | none => some (.ahead,none)
  | some interval =>
    match intervalCmp woCompare interval elt expectedDirection with
    | .ahead => none
    | cmp => some (cmp,some i)

-- The first fields of the key that the caller is at, and start values for those behind them.
structure Advance (α : Type) where
  keyEltsToUse : Nat
  movePastKeyElts : Bool
  out : List (α × Bool)
  deriving DecidableEq

inductive KeyState (α : Type) where
  | valid
  | mustAdvance (target : Advance α)
  | done
  deriving DecidableEq

def startOver (fields : List (FieldState α)) : List (FieldState α) :=
  fields.map fun field => { field with curInterval := 0 }

def startValues : List (FieldState α) → Option (List (α × Bool))
  | [] => some []
  | field :: fields =>
    match field.oil.intervals[field.curInterval]? with
    | none => none
    | some interval => (startValues fields).map ((interval.start,interval.startInclusive) :: ·)

-- The fields that are in place, with their values, and those from firstNonContainedField on.
def placeLoop (done : List (FieldState α)) (doneValues : List α) :
    List (FieldState α) → List α → Option (List (FieldState α) × KeyState α)
  | [],_ => some (done,.valid)
  | _ :: _,[] => none
  | field :: fields,value :: keyValues =>
    match findIntervalForField woCompare value field.oil field.expectedDirection with
    | some (.within,some newInterval) =>
      placeLoop (done++[{ field with curInterval := newInterval }]) (doneValues++[value]) fields keyValues
    | some (.behind,some newInterval) =>
      let right := { field with curInterval := newInterval } :: startOver fields
      (startValues right).map fun out => (done++right,.mustAdvance ⟨done.length,false,out⟩)
    | some (.ahead,_) =>
      match spaceLeftToAdvance woCompare done doneValues with
      | none => none
      | some false => some (done++field :: fields,.done)
      | some true => some (done++startOver (field :: fields),.mustAdvance ⟨done.length,true,[]⟩)
    | _ => none

def checkKey (checker : List (FieldState α)) (key : List α) : Option (List (FieldState α) × KeyState α) :=
  if checker.length = 0 ∨ key.length ≠ checker.length then none
  else
    match findLeftmostProblem woCompare checker key with
    | none => none
    | some none => some (checker,.valid)
    | some (some (first,.behind)) =>
      let checker := checker.take first++startOver (checker.drop first)
      match findLeftmostProblem woCompare checker key with
      | none => none
      | some none => some (checker,.valid)
      | some (some (first,.behind)) =>
        (startValues (checker.drop first)).map fun out => (checker,.mustAdvance ⟨first,false,out⟩)
      | some (some (first,_)) =>
        placeLoop woCompare (checker.take first) (key.take first) (checker.drop first) (key.drop first)
    | some (some (first,_)) =>
      placeLoop woCompare (checker.take first) (key.take first) (checker.drop first) (key.drop first)

-- customBSONCmp of the btree
def customBSONCmp (direction : Int) : List PatternElement → List α → List α → Bool → List (α × Bool) → Int
  | element :: pattern,l :: left,r :: keyBegin,sup,ends =>
    let x := element.indexDirection*woCompare l r
    if x ≠ 0 then x else customBSONCmp direction pattern left keyBegin sup ends
  | _,_,[],true,_ => -direction
  | element :: pattern,l :: left,[],false,(r,inclusive) :: ends =>
    let x := element.indexDirection*woCompare l r
    if x ≠ 0 then x else if !inclusive then -direction else customBSONCmp direction pattern left [] false ends
  | _,_,_,_,_ => 0

def seek (direction : Int) (pattern : List PatternElement) (index : List (List α)) (keyBegin : List α) (afterKey : Bool)
    (keyEnd : List (α × Bool)) : List (List α) :=
  index.dropWhile fun key => direction*customBSONCmp woCompare direction pattern key keyBegin afterKey keyEnd < 0

structure Scan (α : Type) where
  checker : List (FieldState α)
  keys : List (List α)

def initIndexScan (direction : Int) (pattern : List PatternElement) (bounds : IndexBounds α) (index : List (List α)) :
    Option (Scan α) :=
  let checker := indexBoundsChecker bounds pattern direction
  (getStartKey checker).map fun start => ⟨checker,seek woCompare direction pattern index [] false start⟩

inductive Step (α : Type) where
  | returned (key : List α) (next : Scan α)
  | moved (next : Scan α)
  | hitEnd

-- checkEnd, and next on the cursor when the key is returned.
def step (direction : Int) (pattern : List PatternElement) (index : List (List α)) (scan : Scan α) : Option (Step α) :=
  match scan.keys with
  | [] => some .hitEnd
  | key :: rest =>
    match checkKey woCompare scan.checker key with
    | none => none
    | some (_,.done) => some .hitEnd
    | some (checker,.valid) => some (.returned key ⟨checker,rest⟩)
    | some (checker,.mustAdvance target) =>
      some (.moved ⟨checker,seek woCompare direction pattern index (key.take target.keyEltsToUse) target.movePastKeyElts target.out⟩)

def runScan (direction : Int) (pattern : List PatternElement) (index : List (List α)) :
    Nat → Scan α → Option (List (List α))
  | 0,_ => none
  | fuel+1,scan =>
    match step woCompare direction pattern index scan with
    | none => none
    | some .hitEnd => some []
    | some (.returned key next) => (runScan direction pattern index fuel next).map (key :: ·)
    | some (.moved next) => runScan direction pattern index fuel next

end

end Mongo.IndexScan
