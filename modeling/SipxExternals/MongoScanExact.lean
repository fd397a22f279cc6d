import Mathlib.Data.List.TakeWhile
import Mathlib.Tactic.Ring
import SipxExternals.MongoBoundsChecker
import SipxExternals.MongoBsonCompare

namespace Mongo.ScanExact
open Foundations.Segments Foundations.FieldOrder IndexScan BoundsChecker BsonCompare
variable {α : Type}

def inInterval (order : α → α → Int) (v : α) (interval : Interval α) : Bool :=
  (0 < order v interval.start || (order v interval.start = 0 && interval.startInclusive)) &&
  (order v interval.ending < 0 || (order v interval.ending = 0 && interval.endInclusive))

def keyInBounds (woCompare : α → α → Int) (direction : Int) :
    List (OrderedIntervalList α) → List PatternElement → List α → Bool
  | [],[],[] => true
  | field :: fields,element :: pattern,v :: key =>
    field.intervals.any (inInterval (along (element.indexDirection*direction) woCompare) v) &&
    keyInBounds woCompare direction fields pattern key
  | _,_,_ => false

def scanOrder (direction : Int) (keys : List (List α)) : List (List α) := if direction = 1 then keys else keys.reverse

section
variable {woCompare : α → α → Int} {direction : Int} {pattern : List PatternElement} {fields : List (OrderedIntervalList α)}
  {index : List (List α)}

def shapesOf (direction : Int) (fields : List (OrderedIntervalList α)) (pattern : List PatternElement) : List (Shape α) :=
  List.zipWith (fun oil element => (oil,element.indexDirection*direction)) fields pattern

theorem checker_shape :
    (indexBoundsChecker bounds pattern direction).map shape = shapesOf direction bounds.fields pattern := by
  rw [indexBoundsChecker,List.map_zipWith,shapesOf]
  rfl

theorem inInterval_inside : inInterval order v interval = true ↔ Inside order interval v := by
  simp only [inInterval,Inside,Behind,Past,Bool.and_eq_true,Bool.or_eq_true,decide_eq_true_iff]
  cases interval.startInclusive <;> cases interval.endInclusive <;> simp <;> omega

theorem keyInBounds_admits : ∀ {fields : List (OrderedIntervalList α)} {pattern : List PatternElement},
    fields.length = pattern.length → ∀ key : List α,keyInBounds woCompare direction fields pattern key = true ↔
    AdmitsKey woCompare (shapesOf direction fields pattern) key
  | [],[],_,[] => ⟨fun _ => .nil,fun _ => rfl⟩
  | [],[],_,v :: key => ⟨fun wrong => (by cases wrong),fun wrong => (by cases wrong)⟩
  | [],_ :: _,fits,_ => by cases fits
  | _ :: _,[],fits,_ => by cases fits
  | field :: fields,element :: pattern,fits,[] => ⟨fun wrong => (by cases wrong),fun wrong => (by cases wrong)⟩
  | field :: fields,element :: pattern,fits,v :: key => by
    have deeper := keyInBounds_admits (Nat.succ.inj fits) key
    have split : AdmitsKey woCompare (shapesOf direction (field :: fields) (element :: pattern)) (v :: key) ↔
        Admits (along (element.indexDirection*direction) woCompare) field.intervals v ∧
        AdmitsKey woCompare (shapesOf direction fields pattern) key := List.forall₂_cons
    rw [split,keyInBounds,Bool.and_eq_true,deeper,List.any_eq_true]
    simp [inInterval_inside,Admits]

theorem turned_product (turned : direction = 1 ∨ direction = -1) (element : PatternElement) :
    element.indexDirection*direction = 1 ∨ element.indexDirection*direction = -1 := by
  rw [PatternElement.indexDirection]
  rcases turned with rfl | rfl
  · split <;> simp
  · split <;> simp

theorem fieldsValidFor_length : ∀ {fields : List (OrderedIntervalList α)} {pattern : List PatternElement},
    fieldsValidFor woCompare direction fields pattern = true → fields.length = pattern.length
  | [],[],_ => rfl
  | [],_ :: _,valid => by simp [fieldsValidFor] at valid
  | _ :: _,[],valid => by simp [fieldsValidFor] at valid
  | field :: fields,element :: pattern,valid => by
    simp only [fieldsValidFor,Bool.and_eq_true] at valid
    exact congrArg Nat.succ (fieldsValidFor_length valid.2)

theorem checker_ready (total : TotalPreorder woCompare) (turned : direction = 1 ∨ direction = -1) :
    ∀ {fields : List (OrderedIntervalList α)} {pattern : List PatternElement},
    fieldsValidFor woCompare direction fields pattern = true → (∀ field ∈ fields,field.intervals ≠ []) →
    ∀ field ∈ List.zipWith (fun oil (element : PatternElement) => FieldState.mk oil (element.indexDirection*direction) 0) fields
      pattern,Ready woCompare field ∧ field.curInterval = 0
  | [],pattern,_,_ => fun field mem => by simp at mem
  | _ :: _,[],_,_ => fun field mem => by simp at mem
  | first :: fields,element :: pattern,valid,some_interval => by
    simp only [fieldsValidFor,Bool.and_eq_true] at valid
    intro field mem
    rcases List.mem_cons.mp mem with rfl | deeper
    · have turned_here := turned_product turned element
      refine ⟨⟨turned_here,isValidFor_chain total turned_here ?_,?_⟩,rfl⟩
      · rw [mul_comm]
        exact valid.1.2
      · exact List.length_pos_of_ne_nil (some_interval first (.head _))
    · exact checker_ready total turned valid.2 (List.forall_mem_cons.mp some_interval).2
        field deeper

theorem getStartKey_startValues : ∀ {checker : List (FieldState α)},(∀ field ∈ checker,field.curInterval = 0) →
    getStartKey checker = startValues checker
  | [],_ => rfl
  | field :: checker,first => by
    rw [getStartKey,startValues,first field List.mem_cons_self,
      getStartKey_startValues fun other mem => first other (List.mem_cons_of_mem field mem)]

def scanOrders (woCompare : α → α → Int) (direction : Int) (pattern : List PatternElement) : List (α → α → Int) :=
  pattern.map fun element => along (element.indexDirection*direction) woCompare

theorem orders_shapesOf : ∀ {fields : List (OrderedIntervalList α)} {pattern : List PatternElement},
    fields.length = pattern.length → orders woCompare (shapesOf direction fields pattern) = scanOrders woCompare direction pattern
  | [],[],_ => rfl
  | [],_ :: _,fits => by cases fits
  | _ :: _,[],fits => by cases fits
  | _ :: fields,_ :: pattern,fits => congrArg (List.cons _) (orders_shapesOf (Nat.succ.inj fits))

theorem scanOrders_total (total : TotalPreorder woCompare) (turned : direction = 1 ∨ direction = -1)
    (pattern : List PatternElement) : ∀ order ∈ scanOrders woCompare direction pattern,TotalPreorder order := by
  intro order mem
  obtain ⟨element,_,rfl⟩ := List.mem_map.mp mem
  exact along_preorder total (turned_product turned element)

theorem objCompare_fields : ∀ {pattern : List PatternElement} {left right : List α},left.length = pattern.length →
    right.length = pattern.length → objCompare woCompare pattern left right = fieldCompare (scanOrders woCompare 1 pattern) left right
  | [],[],[],_,_ => rfl
  | [],_ :: _,_,fits,_ => by cases fits
  | [],_,_ :: _,_,fits => by cases fits
  | _ :: _,[],_,fits,_ => by cases fits
  | _ :: _,_,[],_,fits => by cases fits
  | element :: pattern,l :: left,r :: right,left_fits,right_fits => by
    have deeper := objCompare_fields (Nat.succ.inj left_fits) (Nat.succ.inj right_fits)
    have x_eq : (if element.ascending then woCompare l r else -woCompare l r) =
        along (element.indexDirection*1) woCompare l r := by
      rw [along,PatternElement.indexDirection]
      split <;> simp
    have step : objCompare woCompare (element :: pattern) (l :: left) (r :: right) =
        if (if element.ascending then woCompare l r else -woCompare l r) ≠ 0 then
          (if element.ascending then woCompare l r else -woCompare l r)
        else objCompare woCompare pattern left right := rfl
    rw [step,x_eq,deeper]
    rfl

theorem scanOrder_sorted (total : TotalPreorder woCompare) (turned : direction = 1 ∨ direction = -1)
    (fits : ∀ key ∈ keys,key.length = pattern.length)
    (sorted : keys.Pairwise fun left right => objCompare woCompare pattern left right ≤ 0) :
    (scanOrder direction keys).Pairwise fun left right => fieldCompare (scanOrders woCompare direction pattern) left right ≤ 0 := by
  have by_fields : keys.Pairwise fun left right => fieldCompare (scanOrders woCompare 1 pattern) left right ≤ 0 :=
    sorted.imp_of_mem fun {left right} left_in right_in less => by
      rwa [objCompare_fields (fits left left_in) (fits right right_in)] at less
  rcases turned with rfl | rfl
  · exact by_fields
  have turned_orders : scanOrders woCompare (-1) pattern = (scanOrders woCompare 1 pattern).map (along (-1)) := by
    simp only [scanOrders,List.map_map]
    refine List.map_congr_left fun element _ => funext fun a => funext fun b => ?_
    simp [along]
  rw [scanOrder,if_neg (by decide),List.pairwise_reverse,turned_orders]
  exact by_fields.imp fun {left right} less =>
    (field_turned (scanOrders_total total (.inl rfl) pattern) right left).mpr less

theorem customBSONCmp_position (turned : direction = 1 ∨ direction = -1) :
    ∀ (pattern : List PatternElement) (key first : List α) (past : Bool) (starts : List (α × Bool)),
    direction*customBSONCmp woCompare direction pattern key first past starts =
      positionCompare (scanOrders woCompare direction pattern) key first past starts := by
  have square : direction*(-direction) = -1 := by rcases turned with rfl | rfl <;> rfl
  have field : ∀ (element : PatternElement) (a b : α) (rest : Int) (deeper : Int),direction*rest = deeper →
      direction*(if element.indexDirection*woCompare a b ≠ 0 then element.indexDirection*woCompare a b else rest) =
      if along (element.indexDirection*direction) woCompare a b ≠ 0 then along (element.indexDirection*direction) woCompare a b
      else deeper := by
    intro element a b rest deeper same
    have product : direction*(element.indexDirection*woCompare a b) = along (element.indexDirection*direction) woCompare a b := by
      rw [along]
      ring
    have nonzero : direction ≠ 0 := by rcases turned with rfl | rfl <;> decide
    rw [← product]
    by_cases equal : element.indexDirection*woCompare a b = 0
    · rw [if_neg (not_not.mpr equal),if_neg (by rw [equal]; simp),same]
    · rw [if_pos equal,if_pos (mul_ne_zero nonzero equal)]
  intro pattern
  induction pattern with
  | nil =>
    intro key first past starts
    cases first with
    | nil =>
      cases past with
      | true => simpa [customBSONCmp,positionCompare] using square
      | false => simp [customBSONCmp,positionCompare,scanOrders]
    | cons b first => simp [customBSONCmp,positionCompare,scanOrders]
  | cons element pattern ih =>
    intro key first past starts
    cases first with
    | cons b first =>
      cases key with
      | nil => simp [customBSONCmp,positionCompare]
      | cons a key => exact field element a b _ _ (ih key first past starts)
    | nil =>
      cases past with
      | true => simpa [customBSONCmp,positionCompare] using square
      | false =>
        cases key with
        | nil => simp [customBSONCmp,positionCompare]
        | cons a key =>
          cases starts with
          | nil => simp [customBSONCmp,positionCompare]
          | cons start starts =>
            obtain ⟨b,inclusive⟩ := start
            refine field element a b _ _ ?_
            cases inclusive with
            | true => exact ih key [] false starts
            | false => exact square

-- What every scan of an index is about: valid bounds, and keys in the order of the scan.
structure Setting (woCompare : α → α → Int) (direction : Int) (pattern : List PatternElement)
    (fields : List (OrderedIntervalList α)) (index : List (List α)) : Prop where
  total : TotalPreorder woCompare
  turned : direction = 1 ∨ direction = -1
  some_field : pattern ≠ []
  lengths : fields.length = pattern.length
  fits : ∀ key ∈ index,key.length = pattern.length
  sorted : index.Pairwise fun left right => fieldCompare (scanOrders woCompare direction pattern) left right ≤ 0

structure Fine (woCompare : α → α → Int) (direction : Int) (pattern : List PatternElement)
    (fields : List (OrderedIntervalList α)) (index : List (List α)) (scan : Scan α) : Prop where
  ready : ∀ field ∈ scan.checker,Ready woCompare field
  same : scan.checker.map shape = shapesOf direction fields pattern
  rest : scan.keys <:+ index

inductive Advanced (woCompare : α → α → Int) (direction : Int) (pattern : List PatternElement)
    (fields : List (OrderedIntervalList α)) (index : List (List α)) (scan : Scan α) : Option (Step α) → Prop where
  | hitEnd (none_left : ∀ key ∈ scan.keys,keyInBounds woCompare direction fields pattern key = false) :
    Advanced woCompare direction pattern fields index scan (some .hitEnd)
  | returned {key : List α} {next : Scan α} (fine : Fine woCompare direction pattern fields index next)
    (here : scan.keys = key :: next.keys) (valid : keyInBounds woCompare direction fields pattern key = true) :
    Advanced woCompare direction pattern fields index scan (some (.returned key next))
  | moved {key : List α} {passed : List (List α)} {next : Scan α} (fine : Fine woCompare direction pattern fields index next)
    (here : scan.keys = key :: passed++next.keys)
    (skipped : ∀ other ∈ key :: passed,keyInBounds woCompare direction fields pattern other = false) :
    Advanced woCompare direction pattern fields index scan (some (.moved next))

theorem not_in_bounds (lengths : fields.length = pattern.length)
    (not_admitted : ¬ AdmitsKey woCompare (shapesOf direction fields pattern) key) :
    keyInBounds woCompare direction fields pattern key = false :=
  Bool.eq_false_iff.mpr fun valid => not_admitted ((keyInBounds_admits lengths key).mp valid)

theorem seek_dropWhile (turned : direction = 1 ∨ direction = -1) :
    seek woCompare direction pattern index first past starts =
    index.dropWhile fun key => positionCompare (scanOrders woCompare direction pattern) key first past starts < 0 := by
  simp [seek,customBSONCmp_position turned]

section
variable (setting : Setting woCompare direction pattern fields index)
include setting

theorem step_advanced (fine : Fine woCompare direction pattern fields index scan) :
    Advanced woCompare direction pattern fields index scan (step woCompare direction pattern index scan) := by
  obtain ⟨checker,keys⟩ := scan
  have same : checker.map shape = shapesOf direction fields pattern := fine.same
  rw [step]
  cases keys with
  | nil => exact .hitEnd fun key mem => by cases mem
  | cons key rest =>
    obtain ⟨front,whole⟩ := fine.rest
    have orders_eq : orders woCompare (shapesOf direction fields pattern) = scanOrders woCompare direction pattern :=
      orders_shapesOf setting.lengths
    have ready : ∀ field ∈ checker,Ready woCompare field := fine.ready
    have key_fits := setting.fits key (by rw [← whole]; simp)
    have checker_length : checker.length = pattern.length := by
      rw [← List.length_map shape,same,shapesOf,List.length_zipWith,setting.lengths,min_self]
    have sorted := setting.sorted
    rw [← whole,List.pairwise_append,List.pairwise_cons] at sorted
    have outcome := checkKey_outcome setting.total ready (by
        intro empty
        rw [empty] at checker_length
        exact setting.some_field (List.length_eq_zero_iff.mp checker_length.symm))
      (key_fits.trans checker_length.symm)
    rw [same] at outcome
    dsimp only
    generalize checkKey woCompare checker key = result at outcome
    have total_orders := scanOrders_total setting.total setting.turned pattern
    have rest_length : ∀ later ∈ key :: rest,later.length = key.length := by
      intro later mem
      rw [setting.fits later (by rw [← whole]; exact List.mem_append_right front mem),key_fits]
    have not_before : ∀ later ∈ key :: rest,fieldCompare (scanOrders woCompare direction pattern) key later ≤ 0 := by
      exact List.forall_mem_cons.mpr ⟨(field_refl total_orders _).le,sorted.2.1.1⟩
    cases outcome with
    | valid ready_next same_next admits =>
      refine .returned ⟨ready_next,same_next,?_⟩ rfl ((keyInBounds_admits setting.lengths key).mpr admits)
      exact ⟨front++[key],by simpa using whole⟩
    | done skipped =>
      rw [orders_eq] at skipped
      exact .hitEnd fun later mem =>
        not_in_bounds setting.lengths (skipped later (rest_length later mem) (not_before later mem))
    | @advance checker_next target ready_next same_next own skipped =>
      rw [orders_eq] at own skipped
      have before_front : ∀ other ∈ front,positionCompare (scanOrders woCompare direction pattern) other
          (key.take target.keyEltsToUse) target.movePastKeyElts target.out < 0 := by
        intro other mem
        refine position_mono total_orders ?_ (sorted.2.2 other mem key (.head _)) own
        rw [setting.fits other (by rw [← whole]; exact List.mem_append_left _ mem),key_fits]
      have left : seek woCompare direction pattern index (key.take target.keyEltsToUse) target.movePastKeyElts target.out =
          rest.dropWhile fun later => positionCompare (scanOrders woCompare direction pattern) later
            (key.take target.keyEltsToUse) target.movePastKeyElts target.out < 0 := by
        rw [seek_dropWhile setting.turned,← whole,List.dropWhile_append_of_pos (by simpa using before_front),
          List.dropWhile_cons_of_pos (by simpa using own)]
      dsimp only
      rw [left]
      refine .moved ⟨ready_next,same_next,?_⟩ (congrArg (List.cons key) List.takeWhile_append_dropWhile.symm) ?_
      · refine (List.dropWhile_suffix _).trans ⟨front++[key],by simpa using whole⟩
      intro other mem
      refine not_in_bounds setting.lengths ?_
      rcases List.mem_cons.mp mem with rfl | passed
      · exact skipped other rfl (not_before other (.head _)) own
      · have in_rest := List.mem_cons_of_mem key ((List.takeWhile_sublist _).mem passed)
        exact skipped other (rest_length other in_rest) (not_before other in_rest)
          (by simpa using List.mem_takeWhile_imp passed)

theorem runScan_filter :
    ∀ fuel (scan : Scan α),Fine woCompare direction pattern fields index scan → scan.keys.length < fuel →
    runScan woCompare direction pattern index fuel scan =
      some (scan.keys.filter (keyInBounds woCompare direction fields pattern)) := by
  intro fuel
  induction fuel with
  | zero =>
    intro scan _ short
    omega
  | succ fuel ih =>
    intro scan fine short
    have advanced := step_advanced setting fine
    rw [runScan]
    generalize step woCompare direction pattern index scan = result at advanced
    cases advanced with
    | hitEnd none_left =>
      rw [List.filter_eq_nil_iff.mpr fun key mem => by rw [none_left key mem]; decide]
    | returned fine_next here valid =>
      rw [here,List.length_cons] at short
      dsimp only
      rw [ih _ fine_next (by omega),here,List.filter_cons_of_pos valid]
      rfl
    | @moved key passed next fine_next here skipped =>
      have none_passed : (key :: passed).filter (keyInBounds woCompare direction fields pattern) = [] :=
        List.filter_eq_nil_iff.mpr fun other mem => by rw [skipped other mem]; decide
      rw [here,List.length_append,List.length_cons] at short
      dsimp only
      rw [ih next fine_next (by omega),here,List.filter_append,none_passed,List.nil_append]

theorem start_fine
    (bounds_fields : bounds.fields = fields) (valid : fieldsValidFor woCompare direction fields pattern = true)
    (some_interval : ∀ field ∈ fields,field.intervals ≠ []) :
    ∃ start passed,initIndexScan woCompare direction pattern bounds index = some start ∧
      Fine woCompare direction pattern fields index start ∧ index = passed++start.keys ∧
      ∀ key ∈ passed,keyInBounds woCompare direction fields pattern key = false := by
  have ready := checker_ready setting.total setting.turned valid some_interval
  subst bounds_fields
  have checker_eq : indexBoundsChecker bounds pattern direction =
      List.zipWith (fun oil (element : PatternElement) => FieldState.mk oil (element.indexDirection*direction) 0) bounds.fields
        pattern := rfl
  rw [← checker_eq] at ready
  obtain ⟨out,starts⟩ := startValues_ready fun field mem => (ready field mem).1
  have orders_eq : orders woCompare (shapesOf direction bounds.fields pattern) = scanOrders woCompare direction pattern :=
    orders_shapesOf setting.lengths
  rw [initIndexScan,getStartKey_startValues fun field mem => (ready field mem).2,starts,Option.map_some,seek_dropWhile setting.turned]
  refine ⟨_,index.takeWhile fun key => positionCompare (scanOrders woCompare direction pattern) key [] false out < 0,rfl,
    ⟨fun field mem => (ready field mem).1,checker_shape,List.dropWhile_suffix _⟩,
    List.takeWhile_append_dropWhile.symm,fun key mem => ?_⟩
  refine not_in_bounds setting.lengths ?_
  have before : positionCompare (scanOrders woCompare direction pattern) key [] false out < 0 := by
    simpa using List.mem_takeWhile_imp mem
  rw [← orders_eq,← checker_shape] at before
  rw [← checker_shape]
  exact before_first_starts setting.total ready starts before

end

inductive Reach (woCompare : α → α → Int) (direction : Int) (pattern : List PatternElement) (bounds : IndexBounds α)
    (index : List (List α)) : Scan α → Prop where
  | start {scan : Scan α} (first : initIndexScan woCompare direction pattern bounds index = some scan) :
    Reach woCompare direction pattern bounds index scan
  | returned {key : List α} {scan next : Scan α} (before : Reach woCompare direction pattern bounds index scan)
    (taken : step woCompare direction pattern index scan = some (.returned key next)) :
    Reach woCompare direction pattern bounds index next
  | moved {scan next : Scan α} (before : Reach woCompare direction pattern bounds index scan)
    (taken : step woCompare direction pattern index scan = some (.moved next)) :
    Reach woCompare direction pattern bounds index next

theorem reach_fine (setting : Setting woCompare direction pattern fields index)
    (bounds_fields : bounds.fields = fields) (valid : fieldsValidFor woCompare direction fields pattern = true)
    (some_interval : ∀ field ∈ fields,field.intervals ≠ [])
    (reach : Reach woCompare direction pattern bounds index scan) : Fine woCompare direction pattern fields index scan := by
  induction reach with
  | start first =>
    obtain ⟨start,passed,started,fine,_⟩ := start_fine setting bounds_fields valid some_interval
    rw [started] at first
    cases first
    exact fine
  | returned _ taken ih =>
    have advanced := step_advanced setting ih
    rw [taken] at advanced
    cases advanced with
    | returned fine _ _ => exact fine
  | moved _ taken ih =>
    have advanced := step_advanced setting ih
    rw [taken] at advanced
    cases advanced with
    | moved fine _ _ => exact fine

def StepExact (woCompare : α → α → Int) (direction : Int) (pattern : List PatternElement) (bounds : IndexBounds α)
    (scan : Scan α) : Option (Step α) → Prop
  | none => False
  | some .hitEnd => ∀ key ∈ scan.keys,keyInBounds woCompare direction bounds.fields pattern key = false
  | some (.returned key next) =>
    scan.keys = key :: next.keys ∧ keyInBounds woCompare direction bounds.fields pattern key = true
  | some (.moved next) =>
    ∃ key passed,scan.keys = key :: passed++next.keys ∧
      ∀ other ∈ key :: passed,keyInBounds woCompare direction bounds.fields pattern other = false

theorem index_scan_exact {values : KeyValues α} (total : TotalPreorder values.woCompare) (turned : direction = 1 ∨ direction = -1)
    (some_field : pattern ≠ []) (bounds : IndexBounds α) (not_simple : bounds.isSimpleRange = false)
    (valid : bounds.isValidFor values.woCompare pattern direction = true) (some_interval : ∀ field ∈ bounds.fields,field.intervals ≠ [])
    (keys : List (List α)) (fits : ∀ key ∈ keys,key.length = pattern.length)
    (sorted : keys.Pairwise fun left right => objCompare values.woCompare pattern left right ≤ 0) :
    (∃ start,initIndexScan values.woCompare direction pattern bounds (scanOrder direction keys) = some start ∧
      runScan values.woCompare direction pattern (scanOrder direction keys) (keys.length+1) start =
        some ((scanOrder direction keys).filter (keyInBounds values.woCompare direction bounds.fields pattern))) ∧
    ∀ scan,Reach values.woCompare direction pattern bounds (scanOrder direction keys) scan →
      (∀ field ∈ scan.checker,field.curInterval < field.oil.intervals.length) ∧ scan.keys <:+ scanOrder direction keys ∧
      StepExact values.woCompare direction pattern bounds scan (step values.woCompare direction pattern (scanOrder direction keys) scan) := by
  rw [IndexBounds.isValidFor,if_neg (by simp [not_simple])] at valid
  have same_keys : ∀ key,key ∈ scanOrder direction keys ↔ key ∈ keys := by
    intro key
    rw [scanOrder]
    split <;> simp
  have setting : Setting values.woCompare direction pattern bounds.fields (scanOrder direction keys) :=
    ⟨total,turned,some_field,fieldsValidFor_length valid,fun key member => fits key ((same_keys key).mp member),
      scanOrder_sorted total turned fits sorted⟩
  constructor
  · obtain ⟨start,passed,started,fine,whole,skipped⟩ := start_fine setting rfl valid some_interval
    have none_passed : passed.filter (keyInBounds values.woCompare direction bounds.fields pattern) = [] :=
      List.filter_eq_nil_iff.mpr fun key member => by rw [skipped key member]; decide
    have short : start.keys.length < keys.length+1 := by
      have size : (scanOrder direction keys).length = keys.length := by
        rw [scanOrder]
        split <;> simp
      have part := fine.rest.length_le
      omega
    refine ⟨start,started,?_⟩
    rw [runScan_filter setting _ start fine short]
    rw [whole,List.filter_append,none_passed,List.nil_append]
  · intro scan reach
    have fine := reach_fine setting rfl valid some_interval reach
    refine ⟨fun field member => (fine.ready field member).inside,fine.rest,?_⟩
    have advanced := step_advanced setting fine
    generalize step values.woCompare direction pattern (scanOrder direction keys) scan = result at advanced
    cases advanced with
    | hitEnd none_left => exact none_left
    | returned _ here valid_key => exact ⟨here,valid_key⟩
    | moved _ here skipped => exact ⟨_,_,here,skipped⟩

end

def samplePattern : List PatternElement := [⟨"a",true⟩,⟨"b",false⟩]

-- Scanned backwards: [7,7], then [3,2) of a; [1,4) and [4,4] of b.
def sampleBounds : IndexBounds Int where
  fields := [⟨[⟨7,true,7,true⟩,⟨3,true,2,false⟩],"a"⟩,⟨[⟨1,true,4,false⟩,⟨4,true,4,true⟩],"b"⟩]
  isSimpleRange := false
  startKey := []
  endKey := []

def sampleKeys : List (List Int) := [[1,2],[2,9],[2,3],[3,5],[3,4],[3,4],[3,1],[6,2],[7,0],[8,2]]

theorem index_scan_exact_sample : (sampleBounds.isValidFor sampleValues.woCompare samplePattern (-1) = true) ∧
    ∃ start,initIndexScan sampleValues.woCompare (-1) samplePattern sampleBounds (scanOrder (-1) sampleKeys) = some start ∧
      runScan sampleValues.woCompare (-1) samplePattern (scanOrder (-1) sampleKeys) 11 start = some [[3,1],[3,4],[3,4]] := by
  refine ⟨by decide,?_⟩
  obtain ⟨⟨start,first,ran⟩,_⟩ := index_scan_exact sampleValues_order (.inr rfl) (by decide : samplePattern ≠ []) sampleBounds rfl
    (by decide) (by decide) sampleKeys (by decide) (by decide)
  exact ⟨start,first,ran.trans (by decide)⟩

-- The bounds are [2^53,2^53], and the last of the three keys is the double 2^53.
theorem equal_key_skipped :
    let pattern : List PatternElement := [⟨"a",true⟩]
    let bounds : IndexBounds Mixed := ⟨[⟨[⟨.long (2^53),true,.long (2^53),true⟩],"a"⟩],false,[],[]⟩
    let keys : List (List Mixed) := [[.long (2^53)],[.long (2^53+1)],[double53]]
    bounds.isValidFor mixedValues.woCompare pattern 1 = true ∧
    (keys.Pairwise fun left right => objCompare mixedValues.woCompare pattern left right ≤ 0) ∧
    (∃ start, initIndexScan mixedValues.woCompare 1 pattern bounds keys = some start ∧
      runScan mixedValues.woCompare 1 pattern keys 4 start = some [[.long (2^53)]]) ∧
    keyInBounds mixedValues.woCompare 1 bounds.fields pattern [double53] = true := by
  refine ⟨by decide +kernel,by decide +kernel,⟨_,rfl,by decide +kernel⟩,?_⟩
  decide +kernel

end Mongo.ScanExact
